import Mathlib.Data.List.Forall2
import TwoTier.Evaluation.Basic
import TwoTier.Expr.Build

/-! # Outcomes

When a computation has a given result: for sequences of computations, for lists of them, and for the
shapes that the evaluator asks of values.
-/

namespace TwoTier

namespace Traced

variable {ε ε' α β : Type}

@[simp] theorem bind_ok {x : Traced ε α} {f : α → Traced ε β} {b : β} :
    (x >>= f).result = .ok b ↔ ∃ a, x.result = .ok a ∧ (f a).result = .ok b := by
  change (andThen x f).result = .ok b ↔ _
  unfold andThen
  cases h : x.result <;> simp

theorem bind_result {x : Traced ε α} {f : α → Traced ε β} {a : α} (h : x.result = .ok a) :
    (x >>= f).result = (f a).result := by
  change (andThen x f).result = _
  simp [andThen, h]

theorem bind_error {x : Traced ε α} {f : α → Traced ε β} {e : ε} (h : x.result = .error e) :
    (x >>= f).result = .error e := by
  change (andThen x f).result = _
  simp [andThen, h]

theorem seq_ok {x : Traced ε Unit} {f : Unit → Traced ε β} {b : β} :
    (x >>= f).result = .ok b ↔ x.result = .ok () ∧ (f ()).result = .ok b := by
  rw [bind_ok]
  exact ⟨fun ⟨(), h⟩ => h, fun h => ⟨(), h⟩⟩

@[simp] theorem pure_ok {a b : α} : (pure a : Traced ε α).result = .ok b ↔ a = b := by
  change (done a : Traced ε α).result = .ok b ↔ _
  simp [done]

@[simp] theorem fail_ok {e : ε} {a : α} : ¬ (fail e : Traced ε α).result = .ok a := by
  simp [fail]

@[simp] theorem ofExcept_ok {x : Except ε α} {a : α} : (ofExcept x).result = .ok a ↔ x = .ok a :=
  Iff.rfl

@[simp] theorem note_ok {e : Event} : (note e : Traced ε Unit).result = .ok () := rfl

@[simp] theorem mapError_ok {f : ε → ε'} {x : Traced ε α} {a : α} :
    (mapError f x).result = .ok a ↔ x.result = .ok a := by
  unfold mapError
  cases x.result <;> simp [Except.mapError]

theorem each_ok {f : α → Traced ε β} {as : List α} {bs : List β} :
    (each f as).result = .ok bs ↔ List.Forall₂ (fun a b => (f a).result = .ok b) as bs := by
  induction as generalizing bs with
  | nil => cases bs <;> simp [each, done]
  | cons a as ih =>
    simp only [each, bind_ok, pure_ok, ih]
    constructor
    · rintro ⟨b, hb, bs, hbs, rfl⟩
      exact .cons hb hbs
    · rintro (_ | ⟨hb, hbs⟩)
      exact ⟨_, hb, _, hbs, rfl⟩

instance : LawfulMonad (Traced ε) :=
  LawfulMonad.mk' (Traced ε)
    (fun x => by
      change andThen x (fun a => done a) = x
      unfold andThen done
      rcases x with ⟨_ | _, _⟩ <;> simp)
    (fun a f => by
      change andThen (done a) f = f a
      simp [andThen, done])
    (fun x f g => by
      change andThen (andThen x f) g = andThen x fun a => andThen (f a) g
      unfold andThen
      rcases x with ⟨_ | a, _⟩
      · rfl
      · simp only
        rcases f a with ⟨_ | _, _⟩ <;> simp)

@[simp] theorem map_ok {f : α → β} {x : Traced ε α} {b : β} :
    (f <$> x).result = .ok b ↔ ∃ a, x.result = .ok a ∧ f a = b := by
  simp only [map_eq_pure_bind, bind_ok, pure_ok]

theorem mapM_ok {f : α → Traced ε β} {as : List α} {bs : List β} :
    (as.mapM f).result = .ok bs ↔ List.Forall₂ (fun a b => (f a).result = .ok b) as bs := by
  induction as generalizing bs with
  | nil => cases bs <;> simp
  | cons a as ih =>
    simp only [List.mapM_cons, bind_ok, pure_ok, ih]
    constructor
    · rintro ⟨b, hb, bs, hbs, rfl⟩
      exact .cons hb hbs
    · rintro (_ | ⟨hb, hbs⟩)
      exact ⟨_, hb, _, hbs, rfl⟩

variable {σ : Type} {st st' : σ}

@[simp] theorem run_bind_ok {x : StateT σ (Traced ε) α} {f : α → StateT σ (Traced ε) β}
    {r : β × σ} : ((x >>= f).run st).result = .ok r ↔ ∃ a st', (x.run st).result = .ok (a, st') ∧
    ((f a).run st').result = .ok r := by
  simp [StateT.run_bind]

@[simp] theorem run_pure_ok {a : α} {r : α × σ} :
    ((pure a : StateT σ (Traced ε) α).run st).result = .ok r ↔ (a, st) = r := by
  simp [StateT.run_pure]

@[simp] theorem run_lift_ok {x : Traced ε α} {a : α} :
    ((StateT.lift x : StateT σ (Traced ε) α).run st).result = .ok (a, st') ↔ x.result = .ok a ∧
    st = st' := by
  rw [StateT.run_lift]
  simp only [bind_ok, pure_ok, Prod.mk.injEq]
  exact ⟨fun ⟨_, h, ha, hs⟩ => ⟨ha ▸ h, hs⟩, fun ⟨h, hs⟩ => ⟨a, h, rfl, hs⟩⟩

@[simp] theorem run_modify_ok {f : σ → σ} {u : Unit} :
    ((modify f : StateT σ (Traced ε) Unit).run st).result = .ok (u, st') ↔ f st = st' := by
  simp [StateT.run_modify]

@[simp] theorem run_get_ok {a : σ} :
    ((get : StateT σ (Traced ε) σ).run st).result = .ok (a, st') ↔ st = a ∧ st = st' := by
  simp [StateT.run_get]

end Traced

namespace Eval

variable {α : Type}

@[simp] theorem fault_ok {f : EvalFault} {a : α} : ¬ (fault f : Eval α).result = .ok a := by
  simp [fault]

@[simp] theorem misshapen_ok {f : ShapeFault} {a : α} :
    ¬ (misshapen f : Eval α).result = .ok a := by
  simp [misshapen]

@[simp] theorem ofExcept_ok {x : Except EvalFault α} {a : α} :
    (ofExcept x).result = .ok a ↔ x = .ok a := by
  cases x <;> simp [ofExcept, Except.mapError]

@[simp] theorem liftM_ok {x : Except EvalFault α} {a : α} :
    (liftM x : Eval α).result = .ok a ↔ x = .ok a :=
  ofExcept_ok

def fault? (x : Eval α) : Option EvalFault :=
  match x.result with
  | .error (.fault f) => some f
  | _ => none

theorem fault?_some {x : Eval α} {f : EvalFault} (h : x.fault? = some f) :
    x.result = .error (.fault f) := by
  unfold fault? at h
  split at h
  · rename_i hx
    exact Option.some.inj h ▸ hx
  · cases h

end Eval

section Except

variable {ε α β : Type}

@[simp] theorem except_bind_ok {x : Except ε α} {f : α → Except ε β} {b : β} :
    (x >>= f) = .ok b ↔ ∃ a, x = .ok a ∧ f a = .ok b := by
  cases x <;> simp [bind, Except.bind]

theorem except_bind_error {x : Except ε α} {f : α → Except ε β} {e : ε} :
    (x >>= f) = .error e ↔ x = .error e ∨ ∃ a, x = .ok a ∧ f a = .error e := by
  cases x <;> simp [bind, Except.bind]

theorem except_map_error {x : Except ε α} {f : α → β} {e : ε} :
    x.map f = .error e ↔ x = .error e := by
  cases x <;> simp [Except.map]

theorem except_isOk {x : Except ε α} (h : x.isOk = true) : ∃ a, x = .ok a := by
  cases x with
  | error => cases h
  | ok a => exact ⟨a, rfl⟩

theorem except_any {x : Except ε α} {p : α → Bool} (h : x.toOption.any p = true) :
    ∃ a, x = .ok a ∧ p a = true := by
  cases x with
  | error => cases h
  | ok a => exact ⟨a, rfl, h⟩

theorem except_seq_ok {x : Except ε Unit} {y : Except ε β} {b : β} :
    (x >>= fun _ => y) = .ok b ↔ x = .ok () ∧ y = .ok b := by
  cases x <;> simp [bind, Except.bind]

@[simp] theorem except_pure_ok {a b : α} : (pure a : Except ε α) = .ok b ↔ a = b := by
  simp [pure, Except.pure]

@[simp] theorem except_map_ok {x : Except ε α} {f : α → β} {b : β} :
    x.map f = .ok b ↔ ∃ a, x = .ok a ∧ f a = b := by
  cases x <;> simp [Except.map]

@[simp] theorem except_mapError_ok {ε' : Type} {x : Except ε α} {f : ε → ε'} {a : α} :
    x.mapError f = .ok a ↔ x = .ok a := by
  cases x <;> simp [Except.mapError]

theorem except_mapM_ok {f : α → Except ε β} {as : List α} {bs : List β} :
    as.mapM f = .ok bs ↔ List.Forall₂ (fun a b => f a = .ok b) as bs := by
  induction as generalizing bs with
  | nil => cases bs <;> simp
  | cons a as ih =>
    simp only [List.mapM_cons, except_bind_ok, except_pure_ok, ih]
    constructor
    · rintro ⟨b, hb, bs, hbs, rfl⟩
      exact .cons hb hbs
    · rintro (_ | ⟨hb, hbs⟩)
      exact ⟨_, hb, _, hbs, rfl⟩

end Except

/-- If the computation fails, then for a reason with the property `Q`. -/
def FailsAs {ε α : Type} (Q : ε → Prop) (x : Except ε α) : Prop :=
  ∀ e, x = .error e → Q e

section FailsAs

variable {ε α β : Type} {Q : ε → Prop}

theorem failsAs_ok {a : α} : FailsAs Q (.ok a) :=
  fun _ h => nomatch h

theorem failsAs_error {e : ε} (h : Q e) : FailsAs (α := α) Q (.error e) := by
  rintro _ ⟨⟩
  exact h

theorem FailsAs.bind {x : Except ε α} {f : α → Except ε β} (hx : FailsAs Q x)
    (hf : ∀ a, FailsAs Q (f a)) :
    FailsAs Q (x >>= f) := by
  cases x with
  | ok a => exact hf a
  | error e => exact failsAs_error (hx e rfl)

theorem FailsAs.mapError {ε' : Type} {R : ε' → Prop} {k : ε → ε'} {x : Except ε α}
    (hx : FailsAs (fun e => R (k e)) x) :
    FailsAs R (x.mapError k) := by
  cases x with
  | ok a => exact failsAs_ok
  | error e => exact failsAs_error (hx e rfl)

theorem FailsAs.mapM {f : α → Except ε β} {as : List α} (h : ∀ a ∈ as, FailsAs Q (f a)) :
    FailsAs Q (as.mapM f) := by
  induction as with
  | nil => exact failsAs_ok
  | cons a as ih =>
    rw [List.mapM_cons]
    refine (h a List.mem_cons_self).bind fun b => ?_
    exact (ih fun a ha => h a (List.mem_cons_of_mem _ ha)).bind fun bs => failsAs_ok

end FailsAs

namespace Value

@[simp] theorem misshapen_ok {α : Type} {f : ShapeFault} {a : α} :
    ¬ (misshapen f : Except EvalFault α) = .ok a := by
  simp [misshapen]

@[simp] theorem element_ok {v w : Value} {i : Nat} :
    v.element i = .ok w ↔ ∃ vs, v = .tuple vs ∧ vs[i]? = some w := by
  cases v <;> simp [element]
  split <;> simp_all

@[simp] theorem serverContent_ok {v w : Value} : v.serverContent = .ok w ↔ v = .atServer w := by
  cases v <;> simp [serverContent]

@[simp] theorem clientContents_ok {v : Value} {ws : List Value} :
    v.clientContents = .ok ws ↔ v = .atClients ws := by
  cases v <;> simp [clientContents]

@[simp] theorem integer_ok {v : Value} {n : Int} : v.integer = .ok n ↔ v = .int n := by
  cases v <;> simp [integer]

@[simp] theorem two_ok {v : Value} {p : Value × Value} : v.two = .ok p ↔ v = .tuple [p.1, p.2] := by
  obtain ⟨a, b⟩ := p
  unfold two
  split <;> simp_all

@[simp] theorem three_ok {v : Value} {p : Value × Value × Value} :
    v.three = .ok p ↔ v = .tuple [p.1, p.2.1, p.2.2] := by
  obtain ⟨a, b, c⟩ := p
  unfold three
  split <;> simp_all

@[simp] theorem five_ok {v : Value} {p : Value × Value × Value × Value × Value} :
    v.five = .ok p ↔ v = .tuple [p.1, p.2.1, p.2.2.1, p.2.2.2.1, p.2.2.2.2] := by
  obtain ⟨a, b, c, d, e⟩ := p
  unfold five
  split <;> simp_all

end Value

end TwoTier

import TwoTier.Proofs.Outcome

/-! # Budgets that are large enough

A larger budget changes nothing about an evaluation that has not run out of budget. So an evaluation
has one outcome, a value or a fault, that all large enough budgets agree on, and outcomes can be
followed through an evaluation without counting how deep it nests.
-/

namespace TwoTier

variable {α β : Type}

/-- The first computation ran out of budget, or the second is the same. -/
def Below (x y : Eval α) : Prop :=
  x.result = .error .outOfBudget ∨ x = y

theorem below_refl (x : Eval α) : Below x x :=
  .inr rfl

theorem Below.trans {x y z : Eval α} (h : Below x y) (h' : Below y z) : Below x z := by
  rcases h with h | rfl
  · exact .inl h
  · exact h'

theorem Below.result {x y : Eval α} {outcome : Except EvalFault α} (h : Below x y)
    (hx : x.result = outcome.mapError .fault) : y.result = outcome.mapError .fault := by
  rcases h with h | rfl
  · rw [hx] at h
    cases outcome <;> cases h
  · exact hx

theorem Below.bind {x y : Eval α} {f g : α → Eval β} (h : Below x y) (hf : ∀ a, Below (f a) (g a)) :
    Below (x >>= f) (y >>= g) := by
  rcases h with h | rfl
  · exact .inl (Traced.bind_error h)
  · change Below (Traced.andThen x f) (Traced.andThen x g)
    cases hx : x.result with
    | error e => simp only [Traced.andThen, hx, below_refl]
    | ok a =>
      simp only [Traced.andThen, hx]
      rcases hf a with hfa | hfa
      · exact .inl hfa
      · exact .inr (by rw [hfa])

theorem below_each {f g : α → Eval β} (h : ∀ a, Below (f a) (g a)) (as : List α) :
    Below (Traced.each f as) (Traced.each g as) := by
  induction as with
  | nil => exact below_refl _
  | cons a as ih => exact (h a).bind fun b => ih.bind fun bs => below_refl _

namespace Eval

section Steps

variable {s : Setting} {call call' : Value → Option Value → Eval Value}

theorem below_fold (h : ∀ f a, Below (call f a) (call' f a)) (f : Value) (vs : List Value)
    (total : Value) :
    Below (fold call f total vs) (fold call' f total vs) := by
  induction vs generalizing total with
  | nil => exact below_refl _
  | cons v vs ih => exact (h f _).bind fun total => ih total

theorem below_aggregate (h : ∀ f a, Below (call f a) (call' f a)) (values : List Value)
    (zero accumulate merge : Value) : Below (aggregate s call values zero accumulate merge)
    (aggregate s call' values zero accumulate merge) := by
  refine (below_each (fun vs => below_fold h accumulate vs zero) _).bind fun parts => ?_
  cases parts with
  | nil => exact below_refl _
  | cons first rest => exact below_fold h merge rest first

theorem below_within (h : ∀ f a, Below (call f a) (call' f a)) (op : LocalOp) (a : Value) :
    Below (within s call op a) (within s call' op a) := by
  cases op with
  | map =>
    refine (below_refl _).bind fun p => ?_
    obtain ⟨f, values⟩ := p
    cases values with
    | atClients vs => exact (below_each (fun v => h f (some v)) vs).bind fun ws => below_refl _
    | atServer v => exact (h f (some v)).bind fun w => below_refl _
    | _ => exact below_refl _
  | apply =>
    refine (below_refl _).bind fun p => ?_
    refine (below_refl _).bind fun v => ?_
    exact (h p.1 (some v)).bind fun w => below_refl _
  | zipAtClients | zipAtServer | valueAtServer => exact below_refl _

theorem below_intrinsic (h : ∀ f a, Below (call f a) (call' f a)) (op : Intrinsic)
    (t : Ty) (a : Value) :
    Below (intrinsic s call op t a) (intrinsic s call' op t a) := by
  rcases op with op | op
  · cases op with
    | aggregate =>
      refine (below_refl _).bind fun p => ?_
      obtain ⟨values, zero, accumulate, merge, report⟩ := p
      refine (below_refl _).bind fun values => ?_
      refine (below_aggregate h values zero accumulate merge).bind fun total => ?_
      exact (h report (some total)).bind fun v => below_refl _
    | _ => exact below_refl _
  · exact below_within h op a

theorem below_locals {eval eval' : Env → Expr → Eval Value}
    (h : ∀ env e, Below (eval env e) (eval' env e)) (ls : List (String × Expr)) (env : Env) :
    Below (locals eval env ls) (locals eval' env ls) := by
  induction ls generalizing env with
  | nil => exact below_refl _
  | cons l ls ih => exact (h env l.2).bind fun v => ih _

end Steps

variable {s : Setting}

theorem below_expr_succ {n m : Nat} (hexpr : ∀ env e, Below (expr s n env e) (expr s m env e))
    (hcall : ∀ f a, Below (call s n f a) (call s m f a)) (env : Env) (e : Expr) :
    Below (expr s (n + 1) env e) (expr s (m + 1) env e) := by
  unfold expr
  cases e with
  | ref | lambda | intrinsic | builtin => exact below_refl _
  | lit a t => cases a <;> exact below_refl _
  | tuple es t => exact (below_each (hexpr env) es).bind fun vs => below_refl _
  | select e i t => exact (hexpr env e).bind fun v => below_refl _
  | call f a t => exact (hexpr env f).bind fun f => (hexpr env a).bind fun a => hcall f (some a)
  | force f t => exact (hexpr env f).bind fun f => hcall f none
  | block ls r t => exact (below_locals hexpr ls env).bind fun env => hexpr env r

theorem below_call_succ {n m : Nat} (hexpr : ∀ env e, Below (expr s n env e) (expr s m env e))
    (hcall : ∀ f a, Below (call s n f a) (call s m f a)) (f : Value) (a : Option Value) :
    Below (call s (n + 1) f a) (call s (m + 1) f a) := by
  unfold call
  cases f with
  | closure x body env => exact hexpr _ body
  | intrinsic op t => exact (below_refl _).bind fun _ => below_intrinsic hcall op t _
  | _ => exact below_refl _

theorem below_succ (s : Setting) (n : Nat) :
    (∀ env e, Below (expr s n env e) (expr s (n + 1) env e)) ∧
    ∀ f a, Below (call s n f a) (call s (n + 1) f a) := by
  induction n with
  | zero => exact ⟨fun _ _ => .inl rfl, fun _ _ => .inl rfl⟩
  | succ n ih => exact ⟨below_expr_succ ih.1 ih.2, below_call_succ ih.1 ih.2⟩

end Eval

/-- More budget keeps what the computation has come to. -/
def Growing (x : Nat → Eval α) : Prop :=
  ∀ n, Below (x n) (x (n + 1))

theorem Growing.below {x : Nat → Eval α} (h : Growing x) {n m : Nat} (hnm : n ≤ m) :
    Below (x n) (x m) := by
  induction hnm with
  | refl => exact below_refl _
  | step _ ih => exact ih.trans (h _)

/-- From some budget on, this is the outcome. -/
def Settles (x : Nat → Eval α) (outcome : Except EvalFault α) : Prop :=
  ∃ n₀, ∀ n ≥ n₀, (x n).result = outcome.mapError .fault

section Outcomes

variable {x y : Nat → Eval α} {f : Nat → α → Eval β}

theorem Growing.settles (h : Growing x) {outcome : Except EvalFault α} {n : Nat}
    (hn : (x n).result = outcome.mapError .fault) : Settles x outcome :=
  ⟨n, fun _ hm => (h.below hm).result hn⟩

theorem settles_succ {outcome : Except EvalFault α} (h : ∀ n, (y (n + 1)).result = (x n).result) :
    Settles y outcome ↔ Settles x outcome := by
  constructor
  · rintro ⟨n₀, hn₀⟩
    exact ⟨n₀, fun n hn => (h n).symm.trans (hn₀ (n + 1) (by omega))⟩
  · rintro ⟨n₀, hn₀⟩
    refine ⟨n₀ + 1, fun n hn => ?_⟩
    obtain ⟨m, rfl⟩ : ∃ m, n = m + 1 := ⟨n - 1, by omega⟩
    exact (h m).trans (hn₀ m (by omega))

/-- A sequence comes to what its second part does, if the first comes to a value, and else to the
first one's fault. -/
theorem settles_bind {outcome : Except EvalFault β} (hx : Growing x) :
    Settles (fun n => x n >>= f n) outcome ↔
    (∃ a, Settles x (.ok a) ∧ Settles (fun n => f n a) outcome) ∨
      ∃ e, Settles x (.error e) ∧ outcome = .error e := by
  constructor
  · rintro ⟨n₀, hn₀⟩
    rcases hresult : (x n₀).result with halt | a
    · have houtcome := (Traced.bind_error hresult).symm.trans (hn₀ n₀ (Nat.le_refl n₀))
      cases outcome with
      | ok b => cases houtcome
      | error e =>
        cases houtcome
        exact .inr ⟨e, hx.settles hresult, rfl⟩
    · obtain ⟨n₁, hn₁⟩ : Settles x (.ok a) := hx.settles hresult
      refine .inl ⟨a, ⟨n₁, hn₁⟩, max n₀ n₁, fun n hn => ?_⟩
      exact (Traced.bind_result (hn₁ n (by omega))).symm.trans (hn₀ n (by omega))
  · rintro (⟨a, ⟨n₀, hn₀⟩, n₁, hn₁⟩ | ⟨e, ⟨n₀, hn₀⟩, rfl⟩)
    · refine ⟨max n₀ n₁, fun n hn => ?_⟩
      exact (Traced.bind_result (hn₀ n (by omega))).trans (hn₁ n (by omega))
    · exact ⟨n₀, fun n hn => Traced.bind_error (hn₀ n hn)⟩

theorem settles_pure {a : α} {outcome : Except EvalFault α} :
    Settles (fun _ => pure a) outcome ↔ outcome = .ok a := by
  constructor
  · rintro ⟨n₀, hn₀⟩
    have houtcome := hn₀ n₀ (Nat.le_refl n₀)
    cases outcome <;> cases houtcome
    rfl
  · rintro rfl
    exact ⟨0, fun _ _ => rfl⟩

end Outcomes

section Expressions

variable {s : Setting} {env : Env} {outcome : Except EvalFault Value}

theorem growing_expr (e : Expr) : Growing fun n => Eval.expr s n env e :=
  fun n => (Eval.below_succ s n).1 env e

theorem growing_call (f : Value) (a : Option Value) : Growing fun n => Eval.call s n f a :=
  fun n => (Eval.below_succ s n).2 f a

theorem growing_locals (ls : List (String × Expr)) :
    Growing fun n => Eval.locals (Eval.expr s n) env ls :=
  fun n => Eval.below_locals (Eval.below_succ s n).1 ls env

theorem settles_intrinsic {uri : String} {op : Intrinsic} {t : Ty}
    (huri : Intrinsic.ofUri? uri = some op) :
    Settles (fun n => Eval.expr s n env (.intrinsic uri t)) outcome ↔
    outcome = .ok (.intrinsic op t) := by
  refine (settles_succ (x := fun _ => pure (.intrinsic op t)) fun n => ?_).trans settles_pure
  simp only [Eval.expr, huri]

theorem settles_call {f a : Expr} {t : Ty} :
    Settles (fun n => Eval.expr s n env (.call f a t)) outcome ↔
      (∃ g, Settles (fun n => Eval.expr s n env f) (.ok g) ∧
        ((∃ v, Settles (fun n => Eval.expr s n env a) (.ok v) ∧
          Settles (fun n => Eval.call s n g (some v)) outcome) ∨
          ∃ e, Settles (fun n => Eval.expr s n env a) (.error e) ∧ outcome = .error e)) ∨
      ∃ e, Settles (fun n => Eval.expr s n env f) (.error e) ∧ outcome = .error e := by
  refine (settles_succ fun _ => rfl).trans ((settles_bind (growing_expr f)).trans ?_)
  simp only [settles_bind (growing_expr a)]

theorem settles_block {ls : List (String × Expr)} {r : Expr} {t : Ty} :
    Settles (fun n => Eval.expr s n env (.block ls r t)) outcome ↔
      (∃ env', Settles (fun n => Eval.locals (Eval.expr s n) env ls) (.ok env') ∧
        Settles (fun n => Eval.expr s n env' r) outcome) ∨
      ∃ e, Settles (fun n => Eval.locals (Eval.expr s n) env ls) (.error e) ∧ outcome = .error e :=
  (settles_succ fun _ => rfl).trans (settles_bind (growing_locals ls))

theorem settles_mkBlock {ls : List (String × Expr)} {r : Expr} :
    Settles (fun n => Eval.expr s n env (.mkBlock ls r)) outcome ↔
      (∃ env', Settles (fun n => Eval.locals (Eval.expr s n) env ls) (.ok env') ∧
        Settles (fun n => Eval.expr s n env' r) outcome) ∨
      ∃ e, Settles (fun n => Eval.locals (Eval.expr s n) env ls) (.error e) ∧
      outcome = .error e := by
  cases ls with
  | nil => simp [Expr.mkBlock, Eval.locals, settles_pure]
  | cons l ls => exact settles_block

end Expressions

end TwoTier

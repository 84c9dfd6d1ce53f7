import TwoTier.Expr.Check
import TwoTier.Proofs.Assignability
import TwoTier.Proofs.Outcome

/-! # Typed expressions

The judgement that the recorded types of an expression are right, taken apart node by node. An
intrinsic is typed only as the function of a call, where its argument determines its type.
-/

namespace TwoTier

theorem Intrinsic.ofUri?_uri (op : Intrinsic) : Intrinsic.ofUri? op.uri = some op := by
  rcases op with (_ | _) | (_ | _) <;> decide

namespace Expr

section Ty

variable {t : Ty}

@[simp] theorem ty_ref {x : String} : (Expr.ref x t).ty = t := rfl

@[simp] theorem ty_lit {a : Literal} : (Expr.lit a t).ty = t := rfl

@[simp] theorem ty_tuple {es : List Expr} : (Expr.tuple es t).ty = t := rfl

@[simp] theorem ty_select {e : Expr} {i : Nat} : (Expr.select e i t).ty = t := rfl

@[simp] theorem ty_call {f a : Expr} : (Expr.call f a t).ty = t := rfl

@[simp] theorem ty_force {f : Expr} : (Expr.force f t).ty = t := rfl

@[simp] theorem ty_lambda {x : Option String} {e : Expr} : (Expr.lambda x e t).ty = t := rfl

@[simp] theorem ty_block {ls : List (String × Expr)} {r : Expr} : (Expr.block ls r t).ty = t := rfl

@[simp] theorem ty_intrinsic {uri : String} : (Expr.intrinsic uri t).ty = t := rfl

@[simp] theorem ty_builtin {b : Builtin} : (Expr.builtin b t).ty = t := rfl

end Ty

mutual

/-- Every intrinsic is the function of a call with an argument. -/
def intrinsicsCalled : Expr → Bool
  | .ref _ _ | .lit _ _ | .builtin _ _ => true
  | .intrinsic _ _ => false
  | .tuple es _ => intrinsicsCalledList es
  | .select e _ _ => intrinsicsCalled e
  | .call (.intrinsic _ _) a _ => intrinsicsCalled a
  | .call f a _ => intrinsicsCalled f && intrinsicsCalled a
  | .force f _ => intrinsicsCalled f
  | .lambda _ e _ => intrinsicsCalled e
  | .block ls r _ => intrinsicsCalledLocals ls && intrinsicsCalled r

def intrinsicsCalledList : List Expr → Bool
  | [] => true
  | e :: es => intrinsicsCalled e && intrinsicsCalledList es

def intrinsicsCalledLocals : List (String × Expr) → Bool
  | [] => true
  | (_, e) :: ls => intrinsicsCalled e && intrinsicsCalledLocals ls

end

/-- The recorded types are right where names have the types of `Γ`, and intrinsics are called. -/
def Typed (Γ : List (String × Ty)) (e : Expr) : Prop :=
  e.checkIn Γ = .ok () ∧ e.intrinsicsCalled = true

section Typed

variable {Γ : List (String × Ty)} {t : Ty}

attribute [local simp] checkIn checkLocals intrinsicsCalled intrinsicsCalledLocals

theorem agrees_ok {node : Expr} {actual : Ty} : node.agrees actual = .ok () ↔ actual = node.ty := by
  unfold agrees
  split <;> simp_all

theorem mkSelect_ok {e e' : Expr} {i : Nat} :
    e.mkSelect i = .ok e' ↔ ∃ ts u, e.ty = .tuple ts ∧ ts[i]? = some u ∧ e' = .select e i u := by
  unfold mkSelect
  cases h : e.ty <;> simp [Ty.elements?]
  rename_i ts
  cases ts[i]? <;> simp [eq_comm]

theorem mkCall_ok {f a e : Expr} :
    f.mkCall a = .ok e ↔ ∃ p r, f.ty = .func p r ∧ p.accepts a.ty = true ∧ e = .call f a r := by
  unfold mkCall
  cases h : f.ty <;> simp
  rename_i p r
  cases p.accepts a.ty <;> simp [@eq_comm _ e]

theorem mkForce_ok {f e : Expr} : f.mkForce = .ok e ↔ ∃ r, f.ty = .thunk r ∧ e = .force f r := by
  unfold mkForce
  cases h : f.ty <;> simp [eq_comm]

theorem intrinsicType_ok {op : Intrinsic} {arg sig : Ty} :
    intrinsicType op arg = .ok sig ↔ ∃ r, op.resultType arg = .ok r ∧ sig = .func arg r := by
  unfold intrinsicType Intrinsic.signature
  cases op.resultType arg <;> simp [Except.map, eq_comm]

theorem mkIntrinsicCall_ok {op : Intrinsic} {a e : Expr} : mkIntrinsicCall op a = .ok e ↔
    ∃ t, op.resultType a.ty = .ok t ∧ e = .call (.intrinsic op.uri (.func a.ty t)) a t := by
  simp only [mkIntrinsicCall, except_bind_ok, intrinsicType_ok, mkCall_ok]
  constructor
  · rintro ⟨_, ⟨t, ht, rfl⟩, p, r, hp, -, rfl⟩
    cases hp
    exact ⟨t, ht, rfl⟩
  · rintro ⟨t, ht, rfl⟩
    exact ⟨_, ⟨t, ht, rfl⟩, a.ty, t, rfl, Ty.standsFor_self a.ty, rfl⟩

theorem mkBuiltin_ok {b : Builtin} {operand : Ty} {e : Expr} : mkBuiltin b operand = .ok e ↔
    operand.isNumeric = true ∧ e = .builtin b (.func (b.paramType operand) operand) := by
  unfold mkBuiltin Builtin.signature?
  cases operand.isNumeric <;> simp [@eq_comm _ e]

theorem typed_ref {x : String} : Typed Γ (.ref x t) ↔ ∀ u, Γ.lookup x = some u → u = t := by
  unfold Typed
  simp only [checkIn, intrinsicsCalled, and_true]
  cases Γ.lookup x <;> simp [agrees_ok]

theorem typed_lit {a : Literal} : Typed Γ (.lit a t) ↔ a.ty = t :=
  (and_iff_left rfl).trans agrees_ok

theorem typed_intrinsic {uri : String} : ¬ Typed Γ (.intrinsic uri t) :=
  fun h => Bool.false_ne_true h.2

theorem typed_builtin {b : Builtin} : Typed Γ (.builtin b t) ↔
    ∃ operand, operand.isNumeric = true ∧ t = .func (b.paramType operand) operand := by
  unfold Typed
  simp only [checkIn, intrinsicsCalled, and_true]
  constructor
  · intro h
    split at h
    · rename_i _ operand _
      simp only [except_bind_ok, mkBuiltin_ok, agrees_ok] at h
      obtain ⟨_, ⟨hn, rfl⟩, ht⟩ := h
      exact ⟨operand, hn, ht.symm⟩
    · simp at h
  · rintro ⟨operand, hn, rfl⟩
    simp only [Ty.signature?, except_bind_ok, mkBuiltin_ok, agrees_ok]
    exact ⟨_, ⟨hn, rfl⟩, rfl⟩

theorem checkList_ok {es : List Expr} :
    checkList Γ es = .ok () ↔ ∀ e ∈ es, e.checkIn Γ = .ok () := by
  induction es with
  | nil => exact ⟨nofun, fun _ => rfl⟩
  | cons e es ih =>
    rw [List.forall_mem_cons, ← ih]
    exact except_seq_ok

theorem intrinsicsCalledList_iff {es : List Expr} :
    intrinsicsCalledList es = true ↔ ∀ e ∈ es, e.intrinsicsCalled = true := by
  induction es with
  | nil => exact ⟨nofun, fun _ => rfl⟩
  | cons e es ih =>
    rw [List.forall_mem_cons, ← ih]
    exact Bool.and_eq_true_iff

theorem typed_tuple {es : List Expr} :
    Typed Γ (.tuple es t) ↔ (∀ e ∈ es, Typed Γ e) ∧ t = .tuple (es.map Expr.ty) := by
  have h : checkIn Γ (.tuple es t) = .ok () ↔ (∀ e ∈ es, e.checkIn Γ = .ok ()) ∧
      t = .tuple (es.map Expr.ty) :=
    except_seq_ok.trans (and_congr checkList_ok (agrees_ok.trans eq_comm))
  have h' : (Expr.tuple es t).intrinsicsCalled = true ↔ ∀ e ∈ es, e.intrinsicsCalled = true :=
    intrinsicsCalledList_iff
  simp only [Typed, h, h', forall_and]
  tauto

theorem typed_select {e : Expr} {i : Nat} :
    Typed Γ (.select e i t) ↔ Typed Γ e ∧ ∃ ts, e.ty = .tuple ts ∧ ts[i]? = some t := by
  have h : checkIn Γ (.select e i t) = .ok () ↔ e.checkIn Γ = .ok () ∧
      ∃ e', e.mkSelect i = .ok e' ∧ e'.ty = t :=
    except_seq_ok.trans
      (and_congr_right' (except_bind_ok.trans (exists_congr fun _ => and_congr_right' agrees_ok)))
  have h' : (Expr.select e i t).intrinsicsCalled = e.intrinsicsCalled := rfl
  simp only [Typed, h, h', mkSelect_ok]
  constructor
  · rintro ⟨⟨he, _, ⟨ts, u, hts, hu, rfl⟩, rfl⟩, hc⟩
    exact ⟨⟨he, hc⟩, ts, hts, hu⟩
  · rintro ⟨⟨he, hc⟩, ts, hts, hu⟩
    exact ⟨⟨he, _, ⟨ts, t, hts, hu, rfl⟩, rfl⟩, hc⟩

theorem typed_force {f : Expr} : Typed Γ (.force f t) ↔ Typed Γ f ∧ f.ty = .thunk t := by
  have h : checkIn Γ (.force f t) = .ok () ↔ f.checkIn Γ = .ok () ∧
      ∃ e', f.mkForce = .ok e' ∧ e'.ty = t :=
    except_seq_ok.trans
      (and_congr_right' (except_bind_ok.trans (exists_congr fun _ => and_congr_right' agrees_ok)))
  have h' : (Expr.force f t).intrinsicsCalled = f.intrinsicsCalled := rfl
  simp only [Typed, h, h', mkForce_ok]
  constructor
  · rintro ⟨⟨hf, _, ⟨r, hr, rfl⟩, rfl⟩, hc⟩
    exact ⟨⟨hf, hc⟩, hr⟩
  · rintro ⟨⟨hf, hc⟩, hr⟩
    exact ⟨⟨hf, _, ⟨t, hr, rfl⟩, rfl⟩, hc⟩

theorem typed_delay {e : Expr} : Typed Γ (.lambda none e t) ↔ Typed Γ e ∧ t = .thunk e.ty := by
  unfold Typed
  cases t <;> simp only [checkIn, intrinsicsCalled, except_seq_ok, Ty.signature?] <;> try simp
  grind

theorem typed_lambda {x : String} {e : Expr} :
    Typed Γ (.lambda (some x) e t) ↔ ∃ p, Typed ((x, p) :: Γ) e ∧ t = .func p e.ty := by
  unfold Typed
  cases t <;> simp only [checkIn, intrinsicsCalled, except_seq_ok, Ty.signature?] <;> try simp
  grind

theorem checkIn_block {ls : List (String × Expr)} {r : Expr} : checkIn Γ (.block ls r t) = .ok () ↔
    ∃ Δ, checkLocals Γ ls = .ok Δ ∧ r.checkIn Δ = .ok () ∧ t = r.ty := by
  refine except_bind_ok.trans (exists_congr fun Δ => and_congr_right fun _ => ?_)
  exact except_seq_ok.trans (and_congr_right' (agrees_ok.trans eq_comm))

theorem typed_block_nil {r : Expr} : Typed Γ (.block [] r t) ↔ Typed Γ r ∧ t = r.ty := by
  simp only [Typed, checkIn_block, checkLocals, intrinsicsCalled, intrinsicsCalledLocals,
    Except.ok.injEq]
  grind

theorem typed_block_cons {x : String} {e r : Expr} {ls : List (String × Expr)} :
    Typed Γ (.block ((x, e) :: ls) r t) ↔ Typed Γ e ∧ Typed ((x, e.ty) :: Γ) (.block ls r t) := by
  simp only [Typed, checkIn_block, checkLocals, intrinsicsCalled, intrinsicsCalledLocals,
    except_seq_ok]
  grind

/-- How a call is typed: by the signature of a known intrinsic, or by the type of any other
function. -/
inductive CallTyped (Γ : List (String × Ty)) (f : Expr) (arg t : Ty) : Prop where

  | intrinsic {uri : String} {op : Intrinsic} :
      f = .intrinsic uri (.func arg t) → Intrinsic.ofUri? uri = some op →
      op.resultType arg = .ok t → CallTyped Γ f arg t

  | unknown {uri : String} {p : Ty} : f = .intrinsic uri (.func p t) → Intrinsic.ofUri? uri = none →
      p.accepts arg = true → CallTyped Γ f arg t

  | function {p : Ty} : Typed Γ f → f.ty = .func p t → p.accepts arg = true → CallTyped Γ f arg t

theorem checkImplied_ok {f a : Expr} :
    checkImplied f a = .ok () ↔ ∀ uri u op, f = .intrinsic uri u →
    Intrinsic.ofUri? uri = some op → ∃ r, op.resultType a.ty = .ok r ∧ u = .func a.ty r := by
  unfold checkImplied
  split
  · rename_i uri u
    split
    · rename_i op ho
      simp only [except_bind_ok, intrinsicType_ok]
      constructor
      · rintro ⟨_, ⟨r, hr, rfl⟩, h⟩ uri' u' op' he ho'
        cases he
        cases ho.symm.trans ho'
        split at h
        · rename_i h'
          exact ⟨r, hr, h'.symm⟩
        · cases h
      · intro h
        obtain ⟨r, hr, rfl⟩ := h uri u op rfl ho
        exact ⟨_, ⟨r, hr, rfl⟩, by simp⟩
    · rename_i ho
      simp only [true_iff]
      rintro uri' u' op' he ho'
      cases he
      simp [ho] at ho'
  · rename_i hf
    simp only [true_iff]
    rintro uri u op rfl
    exact absurd rfl (hf uri u)

theorem checkIn_call {f a : Expr} : checkIn Γ (.call f a t) = .ok () ↔
    f.checkIn Γ = .ok () ∧ a.checkIn Γ = .ok () ∧ checkImplied f a = .ok () ∧
      ∃ p, f.ty = .func p t ∧ p.accepts a.ty = true := by
  simp only [checkIn, except_seq_ok]
  simp only [except_bind_ok, mkCall_ok, agrees_ok]
  constructor
  · rintro ⟨hf, ha, hi, _, ⟨p, r, hp, hacc, rfl⟩, rfl⟩
    exact ⟨hf, ha, hi, p, hp, hacc⟩
  · rintro ⟨hf, ha, hi, p, hp, hacc⟩
    exact ⟨hf, ha, hi, _, ⟨p, t, hp, hacc, rfl⟩, rfl⟩

theorem intrinsicsCalled_call {f a : Expr} : (Expr.call f a t).intrinsicsCalled = true ↔
    (f.intrinsicsCalled = true ∨ ∃ uri u, f = .intrinsic uri u) ∧ a.intrinsicsCalled = true := by
  cases f <;> simp [intrinsicsCalled]

theorem typed_call {f a : Expr} : Typed Γ (.call f a t) ↔ Typed Γ a ∧ CallTyped Γ f a.ty t := by
  unfold Typed
  rw [checkIn_call, intrinsicsCalled_call]
  constructor
  · rintro ⟨⟨hf, ha, hi, p, hp, hacc⟩, hc | ⟨uri, u, rfl⟩, hca⟩
    · exact ⟨⟨ha, hca⟩, .function ⟨hf, hc⟩ hp hacc⟩
    · rw [ty_intrinsic] at hp
      subst hp
      cases ho : Intrinsic.ofUri? uri with
      | none => exact ⟨⟨ha, hca⟩, .unknown rfl ho hacc⟩
      | some op =>
        obtain ⟨r, hr, h⟩ := checkImplied_ok.mp hi _ _ _ rfl ho
        cases h
        exact ⟨⟨ha, hca⟩, .intrinsic rfl ho hr⟩
  · rintro ⟨⟨ha, hca⟩,
      @⟨uri, op, rfl, ho, hr⟩ | @⟨uri, p, rfl, ho, hacc⟩ | @⟨p, ⟨hf, hc⟩, hp, hacc⟩⟩
    · refine ⟨⟨by simp [checkIn], ha, checkImplied_ok.mpr ?_, a.ty, rfl, ?_⟩, .inr ⟨_, _, rfl⟩, hca⟩
      · rintro _ _ _ ⟨⟩ ho'
        cases ho.symm.trans ho'
        exact ⟨t, hr, rfl⟩
      · exact Ty.standsFor_self a.ty
    · refine ⟨⟨by simp [checkIn], ha, checkImplied_ok.mpr ?_, p, rfl, hacc⟩, .inr ⟨_, _, rfl⟩, hca⟩
      rintro _ _ _ ⟨⟩ ho'
      simp [ho] at ho'
    · refine ⟨⟨hf, ha, checkImplied_ok.mpr ?_, p, hp, hacc⟩, .inl hc, hca⟩
      rintro _ _ _ rfl
      simp [intrinsicsCalled] at hc

theorem checkLocals_children {ls : List (String × Expr)} {Δ : List (String × Ty)}
    (h : checkLocals Γ ls = .ok Δ) :
    ∀ l ∈ ls, ∃ Δ, l.2.checkIn Δ = .ok () := by
  induction ls generalizing Γ with
  | nil => simp
  | cons l ls ih =>
    simp only [checkLocals, except_seq_ok] at h
    exact List.forall_mem_cons.mpr ⟨⟨Γ, h.1⟩, ih h.2⟩

theorem checkIn_children {e : Expr} (h : e.checkIn Γ = .ok ()) :
    ∀ c ∈ e.children, ∃ Δ, c.checkIn Δ = .ok () := by
  cases e with
  | ref | lit | intrinsic | builtin => simp [children]
  | tuple es t =>
    simp only [checkIn, except_seq_ok, checkList_ok] at h
    exact fun c hc => ⟨Γ, h.1 c hc⟩
  | select e i t | force e t =>
    simp only [checkIn, except_seq_ok] at h
    simpa [children] using ⟨Γ, h.1⟩
  | call f a t =>
    obtain ⟨hf, ha, -, -⟩ := checkIn_call.mp h
    simpa [children] using ⟨⟨Γ, hf⟩, Γ, ha⟩
  | lambda x e t =>
    simp only [children, List.mem_singleton, forall_eq]
    rcases x with _ | x <;> cases t <;> simp only [checkIn, except_seq_ok, Ty.signature?] at h
    all_goals first | exact ⟨_, h.1⟩ | cases h
  | block ls r t =>
    obtain ⟨Δ, hΔ, hr, -⟩ := checkIn_block.mp h
    simp only [children, List.mem_append, List.mem_map, List.mem_singleton]
    rintro c (⟨l, hl, rfl⟩ | rfl)
    · exact checkLocals_children hΔ l hl
    · exact ⟨Δ, hr⟩

end Typed

end Expr

end TwoTier

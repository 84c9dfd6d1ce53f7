import TwoTier.Compile
import TwoTier.Proofs.Budget
import TwoTier.Proofs.Forms

/-! # Initial states

The function that computes the bare first state differs from the one that computes it at the
coordinator only in a call at the end of the body, behind any locals. The call places what the other
function returns and cannot fail by itself.
-/

namespace TwoTier

variable {s : Setting} {init : Expr} {b : Block}

def Eval.apply (s : Setting) (budget : Nat) (e : Expr) (argument : Option Value) : Eval Value := do
  let f ← expr s budget [] e
  call s budget f argument

theorem growing_apply (e : Expr) (argument : Option Value) :
    Growing fun n => Eval.apply s n e argument :=
  fun n => (growing_expr e n).bind fun f => growing_call f argument n

/-- The first state is computed by what the body puts at the coordinator, and no other function is
accepted. -/
theorem initialization_ok (h : (initialization init).result = .ok b) :
    ∃ body inner t, init = .lambda none body t ∧ unplaced? body = some inner ∧
    b.payload = .mkDelay inner := by
  simp only [initialization, Traced.seq_ok] at h
  obtain ⟨-, h⟩ := h
  split at h
  · rename_i state e hty
    rw [Traced.mapError_ok, Expr.extract_ok] at h
    obtain ⟨-, hsignature, rfl⟩ := h
    -- The type of the initializer itself is not the one asked for.
    have hplaced : init.ty ≠ .thunk state := by
      rw [hty]
      intro heq
      have hsize := congrArg sizeOf (Ty.thunk.inj heq)
      simp only [Ty.placed.sizeOf_spec] at hsize
      omega
    split at hsignature
    · rename_i body t
      cases hinner : unplaced? body with
      | none =>
        rw [hinner] at hsignature
        exact absurd hsignature hplaced
      | some inner => exact ⟨body, inner, t, rfl, hinner, rfl⟩
    · exact absurd hsignature hplaced
  · exact absurd h Traced.fail_ok

theorem settles_valueAtServer {t : Ty} {v : Value} {outcome : Except EvalFault Value} :
    Settles (fun n => Eval.call s n (.intrinsic (.within .valueAtServer) t) (some v)) outcome ↔
      outcome = .ok (.atServer v) :=
  (settles_succ (x := fun _ => pure (.atServer v)) fun _ => rfl).trans settles_pure

theorem settles_unplaced {body inner : Expr} {env : Env} {outcome : Except EvalFault Value}
    (h : unplaced? body = some inner) :
    Settles (fun n => Eval.expr s n env body) outcome ↔
      ∃ bare, Settles (fun n => Eval.expr s n env inner) bare ∧ outcome = bare.map .atServer := by
  fun_induction unplaced? body generalizing inner env outcome with
  | case1 ls r t ih =>
    obtain ⟨r', hr', rfl⟩ := Option.map_eq_some_iff.mp h
    simp only [settles_block, settles_mkBlock, ih hr']
    constructor
    · rintro (⟨env', henv, bare, hbare, rfl⟩ | ⟨e, he, rfl⟩)
      · exact ⟨bare, .inl ⟨env', henv, hbare⟩, rfl⟩
      · exact ⟨.error e, .inr ⟨e, he, rfl⟩, rfl⟩
    · rintro ⟨bare, ⟨env', henv, hbare⟩ | ⟨e, he, rfl⟩, rfl⟩
      · exact .inl ⟨env', henv, bare, hbare, rfl⟩
      · exact .inr ⟨e, he, rfl⟩
  | case2 uri t a t' huri =>
    cases h
    simp only [settles_call, settles_intrinsic huri, settles_valueAtServer, Except.ok.injEq,
      exists_eq_left, reduceCtorEq, false_and, exists_false, or_false]
    constructor
    · rintro (⟨v, hv, rfl⟩ | ⟨e, he, rfl⟩)
      · exact ⟨.ok v, hv, rfl⟩
      · exact ⟨.error e, he, rfl⟩
    · rintro ⟨e | v, hbare, rfl⟩
      · exact .inr ⟨e, hbare, rfl⟩
      · exact .inl ⟨v, hbare, rfl⟩
  | case3 | case4 => cases h

theorem settles_apply_delay {body : Expr} {t : Ty} {outcome : Except EvalFault Value} :
    Settles (fun n => Eval.apply s n (.lambda none body t) none) outcome ↔
      Settles (fun n => Eval.expr s n [] body) outcome :=
  settles_succ fun _ => rfl

/-- The initializer places the state that the extracted function computes, and fails exactly as that
does, whoever participates. -/
theorem initialization_preserves (h : (initialization init).result = .ok b) (s : Setting) :
    (∀ v, Settles (fun n => Eval.apply s n init none) (.ok (.atServer v)) ↔
      Settles (fun n => Eval.block s n b none) (.ok v)) ∧
    (∀ fault, Settles (fun n => Eval.apply s n init none) (.error fault) ↔
      Settles (fun n => Eval.block s n b none) (.error fault)) ∧
    ∀ w, Settles (fun n => Eval.apply s n init none) (.ok w) → ∃ v, w = .atServer v := by
  obtain ⟨body, inner, t, rfl, hinner, hpayload⟩ := initialization_ok h
  have hblock : ∀ bare, Settles (fun n => Eval.block s n b none) bare ↔
      Settles (fun n => Eval.expr s n [] inner) bare := by
    intro bare
    simp only [Eval.block, hpayload, Expr.mkDelay]
    exact settles_apply_delay
  simp only [settles_apply_delay, settles_unplaced hinner, hblock]
  refine ⟨fun v => ⟨?_, fun hv => ⟨.ok v, hv, rfl⟩⟩,
    fun fault => ⟨?_, fun hf => ⟨.error fault, hf, rfl⟩⟩, ?_⟩
  · rintro ⟨_ | _, hbare, heq⟩ <;> cases heq
    exact hbare
  · rintro ⟨_ | _, hbare, heq⟩ <;> cases heq
    exact hbare
  · rintro w ⟨_ | v, -, heq⟩ <;> cases heq
    exact ⟨v, rfl⟩

/-- Put at the coordinator a number that is increased behind a local of its own name. -/
def increased (n : Int) : Expr :=
  let x := Expr.ref "x" .int32
  let sum := Expr.call (.builtin .add (.func (.tuple [.int32, .int32]) .int32))
    (.mkTuple [x, .int 1]) .int32
  let placed :=
    Expr.call (.intrinsic "federated_value_at_server" (.func .int32 (.atCoordinator .int32))) x
    (.atCoordinator .int32)
  .mkDelay (.mkBlock [("x", .int n)] (.mkBlock [("x", sum)] placed))

/-- The state is there at the coordinator, or the sum is too large for both. -/
theorem initialization_preserves_increased : (∃ b, (initialization (increased 2)).result = .ok b ∧
    Settles (fun n => Eval.block ⟨3, 2⟩ n b none) (.ok (.int 3)) ∧
      Settles (fun n => Eval.apply ⟨3, 2⟩ n (increased 2) none) (.ok (.atServer (.int 3)))) ∧
    ∃ b, (initialization (increased 9223372036854775807)).result = .ok b ∧
      Settles (fun n => Eval.block ⟨3, 2⟩ n b none) (.error (.overflow .add)) ∧
      Settles (fun n => Eval.apply ⟨3, 2⟩ n (increased 9223372036854775807) none)
      (.error (.overflow .add)) := by
  have hvalue :
      Settles (fun n => Eval.apply ⟨3, 2⟩ n (increased 2) none) (.ok (.atServer (.int 3))) :=
    (growing_apply _ _).settles (n := 9) rfl
  have hfault : Settles (fun n => Eval.apply ⟨3, 2⟩ n (increased 9223372036854775807) none)
      (.error (.overflow .add)) :=
    (growing_apply _ _).settles (n := 9) rfl
  exact ⟨⟨_, rfl, ((initialization_preserves rfl ⟨3, 2⟩).1 _).mp hvalue, hvalue⟩,
    ⟨_, rfl, ((initialization_preserves rfl ⟨3, 2⟩).2.1 _).mp hfault, hfault⟩⟩

end TwoTier

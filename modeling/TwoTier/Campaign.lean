import TwoTier.Evaluation.Form
import TwoTier.Release

/-! # Campaigns

A form run round after round, each on the state that the one before left behind, with every output
released.
-/

namespace TwoTier

structure Campaign where
  state : Value
  manager : ReleaseManager := {}

namespace Campaign

inductive Failure where
  | halted (halt : Halt)
  | rejected (error : ReleaseError)

/-- Run a form once. If it returns a new state and an output, the state is kept and the output
released; a rejected release does not take the state back. -/
def run (c : Campaign) (f : Form) (groupSize : Nat) (data : List Value) (key : Option Int) :
    Campaign × Traced Failure Value :=
  let ran := (Eval.form Eval.budget groupSize f c.state data).mapError Failure.halted
  match ran.result with
  | .ok (.tuple [.atServer state, output]) =>
    let released := (c.manager.release output key).mapError Failure.rejected
    let manager := match released.result with
      | .ok m => m
      | .error _ => c.manager
    (⟨state, manager⟩, do
      let v ← ran
      let _ ← released
      return v)
  | _ => (c, ran)

end Campaign

end TwoTier

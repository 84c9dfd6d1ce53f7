import TwoTier.Evaluation.Basic
import TwoTier.Source.Elaboration

/-! # Value literals

Values given as text: closed expressions without placed types, evaluated.
-/

namespace TwoTier

namespace Halt

def message : Halt → String
  | .fault f => f.message
  | .outOfBudget => "evaluation nests too deep"

def diagnostic (h : Halt) : Diagnostic where
  code := some "E0800"
  message := h.message

end Halt

inductive LiteralError where
  | source (fault : Source.Fault)
  | notAValue (text : String)
  | halted (halt : Halt)

def LiteralError.diagnostic : LiteralError → Diagnostic
  | .source fault => fault.diagnostics.headD { code := some "E0100", message := "empty source" }
  | .notAValue s =>
    { code := some "E0104", message := "`" ++ s ++ "` is not a closed unplaced value" }
  | .halted h => h.diagnostic

def Value.ofText (s : String) : Except LiteralError Value := do
  let e ← (Source.read s).mapError .source
  if !e.isClosed || e.ty.isPlaced then .error (.notAValue s)
  else (Eval.closed Eval.budget e).result.mapError .halted

end TwoTier

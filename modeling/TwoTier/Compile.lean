import TwoTier.Form.Check
import TwoTier.Round.Parts

/-! # Compiling rounds

From a round to its form of a template: the round is checked, taken apart, and the parts are checked
to make a form of the round's own type.
-/

namespace TwoTier

def compile (round : Expr) (template : Template) : Traced CompileError Form := do
  Traced.ofExcept (round.check.mapError CompileError.illTyped)
  let tiers ← Traced.ofExcept (round.classify.mapError CompileError.mixedCall)
  Traced.note (.classified template tiers.tier)
  let boundaries ← Traced.ofExcept (round.boundaries.mapError CompileError.unknownCrossing)
  Traced.note (.crossings template boundaries.length)
  let parts ← Round.parts round template
  let form ← (Form.ofParts parts).mapError CompileError.incompatible
  if form.signature = round.ty then
    Traced.note (.compiled template form.signature)
    return form
  else .fail (.shape template .result "round" (.otherSignature form.signature round.ty))

/-- What a body puts at the coordinator in the end, behind any locals. -/
def unplaced? : Expr → Option Expr
  | .block ls r _ => (unplaced? r).map (Expr.mkBlock ls)
  | .call (.intrinsic uri _) a _ =>
    if Intrinsic.ofUri? uri = some (.within .valueAtServer) then some a else none
  | _ => none

/-- The function that computes the bare first state, from one that computes it at the
coordinator. -/
def initialization (init : Expr) : Traced CompileError Block := do
  let slot := "initialize"
  Traced.ofExcept (init.check.mapError CompileError.illTyped)
  match init.ty with
  | .thunk (.placed state .coordinator _) =>
    let candidate := match init with
      | .lambda none body _ => (unplaced? body).elim init Expr.mkDelay
      | _ => init
    (candidate.extract (.thunk state) .unplaced slot).mapError CompileError.extraction
  | t => .fail (.extraction (.signature slot (.thunk (.atCoordinator .empty)) t))

end TwoTier

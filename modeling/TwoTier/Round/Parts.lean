import TwoTier.Round.Factoring.Broadcast
import TwoTier.Round.Factoring.DistributeAggregate
import TwoTier.Round.Factoring.MapReduce

/-! # The parts of a round

A round taken apart into the slots of a template. The first slot that cannot be filled is reported.
-/

namespace TwoTier.Round

def parts (round : Expr) (template : Template) : Traced CompileError Parts := do
  let v ← View.ofRound round template
  Traced.note (.normalized template v.steps.length v.broadcasts.length v.aggregations.length)
  match template with
  | .mapReduce => return .mapReduce (← v.mapReduceParts)
  | .distributeAggregate => return .distributeAggregate (← v.distributeAggregateParts)
  | .broadcast => return .broadcast (← v.broadcastParts)

end TwoTier.Round

import TwoTier.Round.Factoring.Basic

/-! # Broadcast rounds

A round without aggregation: the coordinator computes a context from its state, and each participant
its output from the context and its own data.
-/

namespace TwoTier.Round

def View.broadcastParts (v : View) : Traced CompileError (Broadcast Expr) := do
  let slots := Broadcast.slots
  let (stateName, names) := v.names.fresh "state"
  let (argName, _) := names.fresh "arg"
  declare .broadcast "S" v.state
  declare .broadcast "D" v.data
  match v.result.ty.memberAt? .participants with
  | none => .fail (.shape .broadcast .signature slots.processing (.participantResult v.result.ty))
  | some output =>
    declare .broadcast "O" output
    v.broadcastsFirst slots.context
    let (context, contextTy) ← v.serverContext slots.context stateName
    Traced.note (.reached .broadcast .work)
    match v.aggregations.head? with
    | some s =>
      .fail (.shape .broadcast .work slots.processing
        (.strayAggregation s.name (s.op?.getD .aggregate)))
    | none =>
      let argTy := Ty.tuple [contextTy, v.data]
      let arg := Expr.ref argName argTy
      let c := v.broadcastResults (arg.field 0) {
        view := v, mode := .lowered, stage := .work, slot := slots.processing, data :=
          some (arg.field 1) }
      let (result, locals) ← (c.value v.result).run []
      let processing ← fillSlot (closeOver argName argTy result locals)
        (.func argTy output) .unplaced slots.processing
      Traced.note (.typesBound .broadcast
        [("C", contextTy), ("D", v.data), ("O", output), ("S", v.state)])
      return { context, processing }

end TwoTier.Round

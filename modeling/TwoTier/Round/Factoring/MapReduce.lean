import TwoTier.Round.Factoring.Basic

/-! # Map-reduce rounds

A round that broadcasts a context, lets every participant work on its own, aggregates the updates at
most once per kind of aggregation, and updates the state with the totals.
-/

namespace TwoTier.Round

def aggregationSlot : Crossing → String
  | .bitwidthSum => MapReduce.slots.bitwidth
  | .boundedSum => MapReduce.slots.maxInput
  | .modularSum => MapReduce.slots.modulus
  | _ => MapReduce.slots.zero

structure Aggregation where
  zero : Expr
  accumulate : Expr
  merge : Expr
  report : Expr
  accumulatorTy : Ty
  reportTy : Ty

namespace View

def aggregation? (v : View) (op : Crossing) : Option Step :=
  v.aggregations.find? fun s => s.op? == some op

/-- Every kind of aggregation occurs at most once, and some kind does occur. -/
def aggregatesOnce (v : View) : Traced CompileError Unit := do
  let misfit := fun slot m =>
    (Traced.fail (.shape .mapReduce .aggregation slot m) : Traced CompileError Unit)
  if v.aggregations.isEmpty then misfit MapReduce.slots.zero .noAggregation
  else
    let count := fun op => v.aggregations.countP fun s => s.op? == some op
    match (Crossing.all.filter Crossing.isAggregation).find? fun op => 1 < count op with
    | some op => misfit (aggregationSlot op) (.repeatedAggregation (count op) op)
    | none => return

def plainAggregation (v : View) (s : Step) (update : Ty) : Traced CompileError Aggregation := do
  let slots := MapReduce.slots
  let static := fun index slot => do
    let (e, locals) ← Slice.staticArgument v s index slot
    return Expr.mkBlock locals e
  let zero := Expr.mkDelay (← static 1 slots.zero)
  let a := resultOf zero
  declare .mapReduce "A" a
  let zero ← fillSlot zero (.thunk a) .unplaced slots.zero
  let accumulate ← fillSlot (← static 2 slots.accumulate) (.func (.tuple [a, update]) a) .unplaced
    slots.accumulate
  let merge ← fillSlot (← static 3 slots.merge) (.func (.tuple [a, a]) a) .unplaced slots.merge
  let report ← static 4 slots.report
  let r := resultOf report
  declare .mapReduce "R" r
  let report ← fillSlot report (.func a r) .unplaced slots.report
  return { zero, accumulate, merge, report, accumulatorTy := a, reportTy := r }

def emptyAggregation (x : String) : Traced CompileError Aggregation := do
  Traced.note (.noAggregate .mapReduce)
  declare .mapReduce "A" .empty
  declare .mapReduce "R" .empty
  let pair := Ty.tuple [.empty, .empty]
  let first := Expr.mkLambda x pair ((Expr.ref x pair).field 0)
  return {
    zero := Expr.mkDelay Expr.unit
    accumulate := first
    merge := first
    report := Expr.mkLambda x .empty (.ref x .empty)
    accumulatorTy := .empty
    reportTy := .empty }

def totalAggregation (v : View) (update : Ty) (x : String) : Traced CompileError Aggregation :=
  match v.aggregation? .aggregate with
  | some s => v.plainAggregation s update
  | none => emptyAggregation x

/-- The static parameter of a secure sum, empty if the round has no such sum. -/
def secureParameter (v : View) (op : Crossing) (typeName : String) : Traced CompileError Expr := do
  let slot := aggregationSlot op
  let candidate ← match v.aggregation? op with
    | some s => (Slice.staticArgument v s 1 slot).mapError fun e =>
        CompileError.shape .mapReduce .aggregation slot (.dynamicParameter e)
    | none => pure (Expr.unit, [])
  let candidate := Expr.mkDelay (Expr.mkBlock candidate.2 candidate.1)
  let p := resultOf candidate
  declare .mapReduce typeName p
  fillSlot candidate (.thunk p) .unplaced slot

def clientValue (c : Slice) : Option Step → SliceM Expr
  | some s => c.channelValue s
  | none => return Expr.unit

/-- What one participant sees, given its own data and the context as parameter `x`. -/
def workSlice (v : View) (x : String) (contextTy : Ty) : Slice :=
  let arg := Expr.ref x (.tuple [v.data, contextTy])
  v.broadcastResults (arg.field 1) {
    view := v, mode := .lowered, stage := .work, slot := MapReduce.slots.work, data :=
      some (arg.field 0) }

/-- What the coordinator sees, given the state and the totals as parameter `x`. -/
def updateSlice (v : View) (x : String) (reportTy channelsTy : Ty) : Slice :=
  let param := Expr.ref x (.tuple [v.state, .tuple [reportTy, channelsTy]])
  let c : Slice := {
    view := v, mode := .lowered, stage := .result, slot := MapReduce.slots.update, state :=
      some (param.field 0) }
  let c := (v.aggregation? .aggregate).elim c fun s => c.withInput s.name ((param.field 1).field 0)
  (Crossing.secureSums.map v.aggregation?).zipIdx.foldl (fun c (s, i) =>
    s.elim c fun s => c.withInput s.name (((param.field 1).field 1).field i)) c

def mapReduceParts (v : View) : Traced CompileError (MapReduce Expr) := do
  let slots := MapReduce.slots
  let (stateName, names) := v.names.fresh "state"
  let (argName, names) := names.fresh "arg"
  let (accumulatorName, names) := names.fresh "a"
  let (updateName, _) := names.fresh "update"
  declare .mapReduce "S" v.state
  declare .mapReduce "D" v.data
  match v.output? with
  | none => .fail (.shape .mapReduce .signature slots.update (.coordinatorResult v.result.ty))
  | some output =>
    declare .mapReduce "X" output
    v.broadcastsFirst slots.prepare
    let (prepare, contextTy) ← v.serverContext slots.prepare stateName
    -- What one participant does.
    Traced.note (.reached .mapReduce .work)
    let c := v.workSlice argName contextTy
    let clientValues : SliceM (Expr × List Expr) := do
      let update ← clientValue c (v.aggregation? .aggregate)
      return (update, ← (Crossing.secureSums.map v.aggregation?).mapM (clientValue c))
    let ((update, channels), locals) ← clientValues.run []
    let u := update.ty
    let channelsTy := tupleType channels
    declare .mapReduce "U" u
    declare .mapReduce "V" channelsTy
    let argTy := Ty.tuple [v.data, contextTy]
    let work ← fillSlot
      (closeOver argName argTy (Expr.mkTuple [update, Expr.mkTuple channels]) locals)
      (.func argTy (.tuple [u, channelsTy])) .unplaced slots.work
    -- How the results are brought together.
    Traced.note (.reached .mapReduce .aggregation)
    v.aggregatesOnce
    let total ← v.totalAggregation u accumulatorName
    let bitwidth ← v.secureParameter .bitwidthSum "P1"
    let maxInput ← v.secureParameter .boundedSum "P2"
    let modulus ← v.secureParameter .modularSum "P3"
    -- What becomes of the state.
    Traced.note (.reached .mapReduce .result)
    let updateTy := Ty.tuple [v.state, .tuple [total.reportTy, channelsTy]]
    let c := v.updateSlice updateName total.reportTy channelsTy
    let (result, locals) ← (c.value v.result).run []
    let update ← fillSlot (closeOver updateName updateTy result locals)
      (.func updateTy (.tuple [v.state, output])) .unplaced slots.update
    Traced.note (.typesBound .mapReduce [ ("A", total.accumulatorTy), ("C", contextTy),
      ("D", v.data), ("P1", resultOf bitwidth), ("P2", resultOf maxInput), ("P3", resultOf modulus),
      ("R", total.reportTy), ("S", v.state), ("U", u), ("V", channelsTy), ("X", output)])
    return {
      prepare, work, bitwidth, maxInput, modulus, update
      zero := total.zero
      accumulate := total.accumulate
      merge := total.merge
      report := total.report }

end View

end TwoTier.Round

import TwoTier.Round.Factoring.Basic

/-! # Distribute-aggregate rounds

A round cut along its tier crossings into five functions on placed values: what the coordinator does
first, the broadcasts, what the participants do, the aggregations, and what the coordinator makes of
them.
-/

namespace TwoTier.Round

/-- A coordinator value that is computed before the aggregations and used with them or after them.
An argument of an aggregation is known by the positions of the aggregation and of the argument. -/
inductive Carried where
  | state
  | step (step : Step)
  | argument (aggregation index : Nat) (expr : Expr)

def Carried.isArgument (aggregation index : Nat) : Carried → Bool
  | .argument a i _ => a == aggregation && i == index
  | _ => false

namespace View

def afterwards (v : View) : List Expr :=
  v.result :: (v.steps.filter fun s => s.late && !s.isAggregation).map Step.value

def isCarried (v : View) (s : Step) : Bool :=
  (v.afterwards.any fun e => e.free.contains s.name) && !s.late && s.boundary.isNone
    && s.value.ty.placement? == some .coordinator

def carried (v : View) : List Carried :=
  let state := if v.afterwards.any v.readsState then [Carried.state] else []
  let steps := (v.steps.filter v.isCarried).map Carried.step
  let arguments := v.aggregations.zipIdx.flatMap fun (s, j) =>
    match s.boundary with
    | none => []
    | some b => (b.args.zipIdx.drop 1).filterMap fun (e, i) =>
      if e.ty.placement? == some .coordinator then some (Carried.argument j i e) else none
  state ++ steps ++ arguments

def withCarried (v : View) (source : Expr) (c : Slice) : Slice :=
  v.carried.zipIdx.foldl (fun c (temp, i) => match temp with
    | .state => { c with state := some (source.field i) }
    | .step s => c.withInput s.name (source.field i)
    | .argument _ _ _ => c) c

/-- The coordinator's first function, from the state to what it broadcasts and what it carries over,
with the types of both. -/
def serverPrepare (v : View) (stateName : String) : Traced CompileError (Expr × Ty × Ty) := do
  let stateTy := Ty.atCoordinator v.state
  let state := Expr.ref stateName stateTy
  let slot := DistributeAggregate.slots.serverPrepare
  let c : Slice := { view := v, mode := .placed, stage := .broadcast, slot, state := some state }
  let values : SliceM (List Expr × List Expr) := do
    let broadcasts ← c.channelValues v.broadcasts
    let carried ← v.carried.mapM fun
      | .state => return state
      | .step s => c.value (.ref s.name s.value.ty)
      | .argument _ _ e => c.value e
    return (broadcasts, carried)
  let ((broadcasts, carried), locals) ← values.run []
  let b := tupleType broadcasts
  let t := tupleType carried
  declare v.template "B_I" b
  declare v.template "T" t
  let result := Expr.mkTuple [Expr.mkTuple broadcasts, Expr.mkTuple carried]
  let slotted ← fillSlot (closeOver stateName stateTy result locals) (.func stateTy (.tuple [b, t]))
    .coordinator slot
  return (slotted, b, t)

def broadcastAll (v : View) (paramName : String) (paramTy : Ty) :
    Traced CompileError (Expr × Ty) := do
  let slot := DistributeAggregate.slots.broadcast
  let param := Expr.ref paramName paramTy
  let locals ← v.broadcasts.zipIdx.mapM fun (s, i) =>
    match Expr.mkIntrinsicCall (.crossing .broadcast) (param.field i) with
    | .ok call => (return (s.name, call) : Traced CompileError (String × Expr))
    | .error fault => .fail (.shape v.template .broadcast slot (.illTyped fault))
  let outputs := locals.map fun (x, call) => Expr.ref x call.ty
  let outputTy := tupleType outputs
  declare v.template "B_O" outputTy
  let slotted ← fillSlot (closeOver paramName paramTy (Expr.mkTuple outputs) locals)
    (.func paramTy outputTy) .crossTier slot
  return (slotted, outputTy)

def clientWork (v : View) (paramName : String) (broadcastTy : Ty) :
    Traced CompileError (Expr × Ty) := do
  let slot := DistributeAggregate.slots.clientWork
  let paramTy := Ty.tuple [.atParticipants v.data, broadcastTy]
  let param := Expr.ref paramName paramTy
  let c := v.indexedBroadcasts (param.field 1) {
    view := v, mode := .placed, stage := .work, slot, data := some (param.field 0) }
  let (values, locals) ← (c.channelValues v.aggregations).run []
  let resultTy := tupleType values
  declare v.template "A_I" resultTy
  let slotted ← fillSlot (closeOver paramName paramTy (Expr.mkTuple values) locals)
    (.func paramTy resultTy) .participants slot
  return (slotted, resultTy)

def aggregationCall (v : View) (c : Slice) (values carried : Expr) (s : Step) (j : Nat) :
    SliceM (Option Expr) := do
  match s.boundary with
  | none => return none
  | some b =>
    let extras ← (b.args.zipIdx.drop 1).mapM fun (e, i) =>
      match v.carried.findIdx? (Carried.isArgument j i) with
      | some position => return carried.field position
      | none => c.value e
    let argument := match extras with
      | [] => values.field j
      | es => Expr.mkTuple (values.field j :: es)
    let call ← c.typed (Expr.mkIntrinsicCall (.crossing b.op) argument)
    return some (← Slice.bind s.name call)

/-- The aggregations of what is carried over and what the participants computed, with the type of
the results. -/
def aggregateAll (v : View) (paramName : String) (carriedTy valuesTy : Ty) :
    Traced CompileError (Expr × Ty) := do
  let slot := DistributeAggregate.slots.aggregation
  let paramTy := Ty.tuple [carriedTy, valuesTy]
  let param := Expr.ref paramName paramTy
  let c := v.withCarried (param.field 0) { view := v, mode := .placed, stage := .aggregation, slot }
  let calls := v.aggregations.zipIdx.mapM fun (s, j) =>
    v.aggregationCall c (param.field 1) (param.field 0) s j
  let (results, locals) ← calls.run []
  let results := results.filterMap id
  let resultTy := tupleType results
  declare v.template "A_O" resultTy
  let slotted ← fillSlot (closeOver paramName paramTy (Expr.mkTuple results) locals)
    (.func paramTy resultTy) .crossTier slot
  return (slotted, resultTy)

def serverResult (v : View) (paramName : String) (carriedTy aggregatesTy output : Ty) :
    Traced CompileError Expr := do
  let slot := DistributeAggregate.slots.serverResult
  let paramTy := Ty.tuple [carriedTy, aggregatesTy]
  let param := Expr.ref paramName paramTy
  let c := v.withCarried (param.field 0) { view := v, mode := .placed, stage := .result, slot }
  let c := v.aggregations.zipIdx.foldl
    (fun c (s, j) => c.withInput s.name ((param.field 1).field j)) c
  let (result, locals) ← (c.value v.result).run []
  fillSlot (closeOver paramName paramTy result locals)
    (.func paramTy (.tuple [.atCoordinator v.state, .atCoordinator output])) .coordinator slot

def distributeAggregateParts (v : View) : Traced CompileError (DistributeAggregate Expr) := do
  let slots := DistributeAggregate.slots
  let (stateName, names) := v.names.fresh "server_state"
  let (broadcastName, names) := names.fresh "broadcast_input"
  let (clientName, names) := names.fresh "client_input"
  let (aggregationName, names) := names.fresh "aggregation_input"
  let (resultName, _) := names.fresh "result_input"
  declare v.template "S" v.state
  declare v.template "D" v.data
  match v.output? with
  | none => .fail (.shape v.template .signature slots.serverResult (.coordinatorResult v.result.ty))
  | some output =>
    declare v.template "X" output
    Traced.note (.reached v.template .broadcast)
    v.broadcastsFirst slots.broadcast
    let (serverPrepare, broadcastTy, carriedTy) ← v.serverPrepare stateName
    let (broadcast, sentTy) ← v.broadcastAll broadcastName broadcastTy
    Traced.note (.reached v.template .work)
    let (clientWork, valuesTy) ← v.clientWork clientName sentTy
    Traced.note (.reached v.template .aggregation)
    if v.aggregations.isEmpty then
      .fail (.shape v.template .aggregation slots.aggregation .noAggregation)
    else
      let (aggregation, aggregatesTy) ← v.aggregateAll aggregationName carriedTy valuesTy
      Traced.note (.reached v.template .result)
      let serverResult ← v.serverResult resultName carriedTy aggregatesTy output
      Traced.note
        (.typesBound v.template [ ("A_I", valuesTy), ("A_O", aggregatesTy), ("B_I", broadcastTy),
        ("B_O", sentTy), ("D", v.data), ("S", v.state), ("T", carriedTy), ("X", output)])
      return { serverPrepare, broadcast, clientWork, aggregation, serverResult }

end View

end TwoTier.Round

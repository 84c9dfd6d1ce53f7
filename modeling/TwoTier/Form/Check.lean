import TwoTier.CompileError
import TwoTier.Expr.Check
import TwoTier.Form.Basic

/-! # Checking forms

Parts make a form if every part is a well-typed block of its slot's tier and the parts fit together.
The first violated constraint is reported.
-/

namespace TwoTier

namespace Form

def declare (template : Template) (x : String) (t : Ty) : Traced Incompatible Unit :=
  Traced.note (.declared template x t)

def violated {α : Type} (slot : String) (constraint : Constraint) (actual : Ty) :
    Traced Incompatible α :=
  .fail { slot, constraint, actual := some actual }

def block (e : Expr) (tier : Tier) (slot : String) : Traced Incompatible Block := do
  match e.check with
  | .error fault => .fail { slot, constraint := .wellTyped fault }
  | .ok () => (e.extract e.ty tier slot).mapError fun error =>
    { slot, constraint := .localBlock tier error, actual := some e.ty }

def unary (b : Block) (slot : String) : Traced Incompatible (Ty × Ty) :=
  match b.signature with
  | .func p r => return (p, r)
  | t => violated slot .oneParameter t

def nullary (b : Block) (slot : String) : Traced Incompatible Ty :=
  match b.signature with
  | .thunk r => return r
  | t => violated slot .noParameter t

def pair (t : Ty) (slot : String) (constraint : Constraint) : Traced Incompatible (Ty × Ty) :=
  match t with
  | .tuple [a, b] => return (a, b)
  | t => violated slot constraint t

def expect (slot : String) (constraint : Constraint) (expected actual : Ty) :
    Traced Incompatible Unit :=
  if expected = actual then return
  else .fail { slot, constraint, expected := some expected, actual := some actual }

def assignable (slot : String) (constraint : Constraint) (expected actual : Ty) :
    Traced Incompatible Unit :=
  if expected.accepts actual then return
  else .fail { slot, constraint, expected := some expected, actual := some actual }

/-- Secure sums take integers on three channels. -/
def secureChannels (t : Ty) (slot : String) : Traced Incompatible Unit :=
  match t with
  | .tuple [a, b, c] =>
    match ([a, b, c].zipIdx).find? fun (t, _) => !t.isInteger with
    | some (t, i) => violated slot (.secureChannel i) t
    | none => return
  | t => violated slot .secureTriple t

def secureParameter (e : Expr) (slot : String) : Traced Incompatible Block := do
  let b ← block e .unplaced slot
  let p ← nullary b slot
  if p.isInteger then return b else violated slot .secureParameter p

def ofMapReduce (parts : MapReduce Expr) : Traced Incompatible (MapReduce Block) := do
  let slots := MapReduce.slots
  let declare := declare .mapReduce
  let prepare ← block parts.prepare .unplaced slots.prepare
  let (s, c) ← unary prepare slots.prepare
  declare "S" s
  declare "C" c
  let work ← block parts.work .unplaced slots.work
  let (workIn, workOut) ← unary work slots.work
  let (d, cIn) ← pair workIn slots.work .workParameter
  expect slots.work .workContext c cIn
  declare "D" d
  let (u, v) ← pair workOut slots.work .workResult
  declare "U" u
  declare "V" v
  secureChannels v slots.work
  let zero ← block parts.zero .unplaced slots.zero
  let a ← nullary zero slots.zero
  declare "A" a
  let accumulate ← block parts.accumulate .unplaced slots.accumulate
  let (accumulateIn, accumulateOut) ← unary accumulate slots.accumulate
  expect slots.accumulate .accumulateParameter (.tuple [a, u]) accumulateIn
  let merge ← block parts.merge .unplaced slots.merge
  let (mergeIn, mergeOut) ← unary merge slots.merge
  let report ← block parts.report .unplaced slots.report
  let (reportIn, r) ← unary report slots.report
  expect slots.report .reportParameter a reportIn
  declare "R" r
  let bitwidth ← secureParameter parts.bitwidth slots.bitwidth
  let maxInput ← secureParameter parts.maxInput slots.maxInput
  let modulus ← secureParameter parts.modulus slots.modulus
  let update ← block parts.update .unplaced slots.update
  let (updateIn, updateOut) ← unary update slots.update
  expect slots.update .updateParameter (.tuple [s, .tuple [r, v]]) updateIn
  let (newState, x) ← pair updateOut slots.update .updateResult
  expect slots.update .updateState s newState
  declare "X" x
  assignable slots.accumulate .accumulateResult a accumulateOut
  expect slots.merge .mergeParameter (.tuple [a, a]) mergeIn
  assignable slots.merge .mergeResult a mergeOut
  Traced.note (.validated .mapReduce
    [("A", a), ("C", c), ("D", d), ("R", r), ("S", s), ("U", u), ("V", v), ("X", x)])
  return { prepare, work, zero, accumulate, merge, report, bitwidth, maxInput, modulus, update }

def placedTuple (t : Ty) (p : Placement) (slot name : String) : Traced Incompatible Unit :=
  let placed := match t with
    | .tuple ts => ts.all fun t => t.placement? == some p
    | _ => false
  if placed then return else violated slot (.placedTuple name p) t

/-- A node's own violation of what a crossing function with parameter `param` may do: it names only
crossings of the kind `permitted`, and their arguments depend on the parameter alone. -/
def nodeViolation? (permitted : Crossing → Bool) (kind : Stage) (param : String) (e : Expr) :
    Option Constraint :=
  let foreign := match e with
    | .intrinsic uri _ => match Intrinsic.ofUri? uri with
      | some (.crossing op) => if permitted op then none else some (Constraint.permitted uri kind)
      | _ => some (Constraint.permitted uri kind)
    | _ => none
  let dependent := match e.boundary? with
    | .ok (some call) => ((call.args.flatMap Expr.free).find? (· != param)).map fun x =>
      Constraint.dependsOnly call.op x param
    | _ => none
  foreign <|> dependent

/-- A crossing function is a lambda that does nothing but the crossings. -/
def restricted (b : Block) (slot : String) (permitted : Crossing → Bool) (kind : Stage) :
    Traced Incompatible Unit :=
  match b.payload.parameter? with
  | none => violated slot .lambda b.payload.ty
  | some (param, _) => match b.payload.subterms.findSome? (nodeViolation? permitted kind param) with
    | some constraint => .fail { slot, constraint }
    | none => return

def ofDistributeAggregate (parts : DistributeAggregate Expr) :
    Traced Incompatible (DistributeAggregate Block) := do
  let slots := DistributeAggregate.slots
  let declare := declare .distributeAggregate
  let serverPrepare ← block parts.serverPrepare .coordinator slots.serverPrepare
  let (state, prepared) ← unary serverPrepare slots.serverPrepare
  let s ← match state.memberAt? .coordinator with
    | some s => pure s
    | none => violated slots.serverPrepare .stateParameter state
  declare "S" s
  let (bI, t) ← pair prepared slots.serverPrepare .preparedResult
  placedTuple bI .coordinator slots.serverPrepare "B_I"
  placedTuple t .coordinator slots.serverPrepare "T"
  declare "B_I" bI
  declare "T" t
  let broadcast ← block parts.broadcast .crossTier slots.broadcast
  let (broadcastIn, bO) ← unary broadcast slots.broadcast
  expect slots.broadcast .broadcastParameter bI broadcastIn
  placedTuple bO .participants slots.broadcast "B_O"
  declare "B_O" bO
  let clientWork ← block parts.clientWork .participants slots.clientWork
  let (workIn, aI) ← unary clientWork slots.clientWork
  let (data, bOIn) ← pair workIn slots.clientWork .clientParameter
  if data.placement? ≠ some .participants ∨ data.isAllEqual then
    violated slots.clientWork .clientData data
  else
    expect slots.clientWork .clientContext bO bOIn
    placedTuple aI .participants slots.clientWork "A_I"
    declare "A_I" aI
    let aggregation ← block parts.aggregation .crossTier slots.aggregation
    let (aggregationIn, aO) ← unary aggregation slots.aggregation
    expect slots.aggregation .aggregationParameter (.tuple [t, aI]) aggregationIn
    placedTuple aO .coordinator slots.aggregation "A_O"
    declare "A_O" aO
    let serverResult ← block parts.serverResult .coordinator slots.serverResult
    let (resultIn, out) ← unary serverResult slots.serverResult
    expect slots.serverResult .resultParameter (.tuple [t, aO]) resultIn
    let (newState, x) ← pair out slots.serverResult .resultPair
    expect slots.serverResult .resultState (.atCoordinator s) newState
    if x.placement? ≠ some .coordinator then violated slots.serverResult .resultOutput x
    else
      restricted broadcast slots.broadcast Crossing.isBroadcast .broadcast
      restricted aggregation slots.aggregation Crossing.isAggregation .aggregation
      Traced.note (.validated .distributeAggregate
        [("A_I", aI), ("A_O", aO), ("B_I", bI), ("B_O", bO), ("S", s), ("T", t)])
      return { serverPrepare, broadcast, clientWork, aggregation, serverResult }

def ofBroadcast (parts : Broadcast Expr) : Traced Incompatible (Broadcast Block) := do
  let slots := Broadcast.slots
  let declare := declare .broadcast
  let context ← block parts.context .unplaced slots.context
  let (s, c) ← unary context slots.context
  declare "S" s
  declare "C" c
  let processing ← block parts.processing .unplaced slots.processing
  let (input, o) ← unary processing slots.processing
  let (cIn, d) ← pair input slots.processing .processingParameter
  expect slots.processing .processingContext c cIn
  declare "D" d
  declare "O" o
  Traced.note (.validated .broadcast [("C", c), ("D", d), ("O", o), ("S", s)])
  return { context, processing }

def ofParts : Parts → Traced Incompatible Form
  | .mapReduce p => do return .mapReduce (← ofMapReduce p)
  | .distributeAggregate p => do return .distributeAggregate (← ofDistributeAggregate p)
  | .broadcast p => do return .broadcast (← ofBroadcast p)

/-- The blocks of the form, taken as parts, make a form again. -/
def isValid (f : Form) : Bool :=
  match (ofParts f.parts).result with
  | .ok _ => true
  | .error _ => false

end Form

end TwoTier

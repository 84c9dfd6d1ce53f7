import TwoTier.Expr.Check
import TwoTier.Expr.Subst
import TwoTier.Form.Basic

/-! # Rounds from forms

A form is turned back into a round by wiring its blocks together through intrinsics, one local a
step.
-/

namespace TwoTier

inductive SynthesisCause where
  | illTyped (fault : TypeFault)
  | otherSignature (round form : Ty)
  | noParameter (signature : Ty)

def SynthesisCause.message : SynthesisCause → String
  | .illTyped fault => fault.message
  | .otherSignature round form =>
    "synthesized " ++ round.text ++ " but the form describes " ++ form.text
  | .noParameter t => "form signature " ++ t.text ++ " has no parameter"

structure SynthesisError where
  slot : String
  cause : SynthesisCause

def SynthesisError.message (e : SynthesisError) : String :=
  "synthesis failed at `" ++ e.slot ++ "`: " ++ e.cause.message

namespace Synthesis

/-- The locals so far, the names taken, and the empty value at the coordinator once it is a
local. -/
structure Wiring where
  names : Names
  locals : List (String × Expr) := []
  nothing : Option Expr := none

abbrev WiringM := StateT Wiring (Except SynthesisError)

def typed {α : Type} (slot : String) (x : Except TypeFault α) : WiringM α :=
  StateT.lift (x.mapError fun fault => ⟨slot, .illTyped fault⟩)

def freshName (base : String) : WiringM String := do
  let (x, names) := (← get).names.fresh base
  modify fun w => { w with names := names }
  return x

def bind (slot base : String) (value : Except TypeFault Expr) : WiringM Expr := do
  let e ← typed slot value
  let x ← freshName base
  modify fun w => { w with locals := w.locals ++ [(x, e)] }
  return .ref x e.ty

def mapOver (f values : Expr) : Except TypeFault Expr :=
  Expr.mkIntrinsicCall (.within .map) (Expr.mkTuple [f, values])

def applyTo (f value : Expr) : Except TypeFault Expr :=
  Expr.mkIntrinsicCall (.within .apply) (Expr.mkTuple [f, value])

def zipAtClients (es : List Expr) : Except TypeFault Expr :=
  Expr.mkIntrinsicCall (.within .zipAtClients) (Expr.mkTuple es)

def zipAtServer (es : List Expr) : Except TypeFault Expr :=
  Expr.mkIntrinsicCall (.within .zipAtServer) (Expr.mkTuple es)

def crossing (op : Crossing) (e : Expr) : Except TypeFault Expr :=
  Expr.mkIntrinsicCall (.crossing op) e

def project (e : Expr) (i : Nat) : Except TypeFault Expr :=
  match e with
  | .tuple es _ => match es[i]? with
    | some e => .ok e
    | none => e.mkSelect i
  | e => e.mkSelect i

def selector (t : Ty) (path : List Nat) : Except TypeFault Expr := do
  let body ← path.foldlM Expr.mkSelect (.ref "o" t)
  return Expr.mkLambda "o" t body

def constant (b : Block) : Except TypeFault Expr :=
  match b.payload with
  | .lambda none body _ => .ok body
  | e => e.mkForce

/-- The empty value at the coordinator, made a local only once. -/
def nothing (slot : String) : WiringM Expr := do
  match (← get).nothing with
  | some e => return e
  | none =>
    let e ← bind slot "empty" (Expr.mkIntrinsicCall (.within .valueAtServer) Expr.unit)
    modify fun w => { w with nothing := some e }
    return e

/-- The locals of a block under fresh names, and the replacements for what follows them. -/
def spliceLocals : Subst → List (String × Expr) → WiringM Subst
  | m, [] => return m
  | m, (x, e) :: ls => do
    let e := e.subst m
    let y ← freshName x
    modify fun w => { w with locals := w.locals ++ [(y, e)] }
    spliceLocals (m.insert x (.ref y e.ty)) ls

/-- A function applied to an argument: the body of a lambda is spliced in, anything else is
called. -/
def splice (slot : String) (f argument : Expr) : WiringM Expr := do
  match f with
  | .lambda param body _ =>
    let m : Subst := match param with
      | some x => [(x, argument)]
      | none => []
    match body with
    | .block ls r _ =>
      let m ← spliceLocals m ls
      return r.subst m
    | e => return e.subst m
  | f => bind slot slot (f.mkCall argument)

/-- Start from a round's parameter, given its name and references to state and data, and close over
it. -/
def close (f : Form) (wire : (state data : Expr) → WiringM Expr) : Except SynthesisError Expr := do
  let names := f.toList.foldl (fun (names : Names) b => names.reserveAll b.payload) {}
  match f.signature with
  | .func t _ =>
    let build : WiringM (String × Expr) := do
      let x ← freshName "p"
      let state ← typed "round" ((Expr.ref x t).mkSelect 0)
      let data ← typed "round" ((Expr.ref x t).mkSelect 1)
      return (x, ← wire state data)
    let ((x, result), w) ← build.run { names }
    return Expr.mkLambda x t (Expr.mkBlock w.locals result)
  | t => .error ⟨"round", .noParameter t⟩

/-- A function that takes a pair, of which one element is empty, as a function of the other. -/
def partially (slot : String) (f : Expr) (t : Ty) (argument : Expr → Expr) : WiringM Expr := do
  let body ← typed slot (f.mkCall (argument (.ref "d" t)))
  return Expr.mkLambda "d" t body

def clientOutputs (f : MapReduce Block) (state data : Expr) : WiringM Expr := do
  let slots := MapReduce.slots
  if f.contextType.isEmpty then
    let work ← partially slots.work f.work.payload f.dataType fun d => Expr.mkTuple [d, Expr.unit]
    bind slots.work "client_output" (mapOver work data)
  else
    let prepared ← bind slots.prepare "prepared" (applyTo f.prepare.payload state)
    let context ← bind slots.prepare "context" (crossing .broadcast prepared)
    let inputs ← bind slots.work "client_input" (zipAtClients [data, context])
    bind slots.work "client_output" (mapOver f.work.payload inputs)

/-- The aggregate of the participants' updates, nothing if accumulator and report are empty. -/
def plainTotal (f : MapReduce Block) (outputs : Expr) : WiringM Expr := do
  let slots := MapReduce.slots
  if f.reportType.isEmpty && f.accumulatorType.isEmpty then nothing slots.zero
  else
    let updates ← bind slots.zero "client_update" do
      mapOver (← selector f.work.resultType [0]) outputs
    let zero ← typed slots.zero (constant f.zero)
    bind slots.accumulate "aggregate" (crossing .aggregate
      (Expr.mkTuple [updates, zero, f.accumulate.payload, f.merge.payload, f.report.payload]))

def secureTotal (f : MapReduce Block) (outputs : Expr) (channel : Nat) (op : Crossing)
    (base slot : String) (parameter : Block) : WiringM Expr := do
  if (f.secureType.elementOrEmpty channel).isEmpty then nothing slot
  else
    let values ← bind slot "secure_values" do
      mapOver (← selector f.work.resultType [1, channel]) outputs
    let parameter ← typed slot (constant parameter)
    bind slot base (crossing op (Expr.mkTuple [values, parameter]))

def mapReduce (f : MapReduce Block) (state data : Expr) : WiringM Expr := do
  let slots := MapReduce.slots
  let outputs ← clientOutputs f state data
  let aggregate ← plainTotal f outputs
  let a ← secureTotal f outputs 0 .bitwidthSum "secure_sum_bitwidth" slots.bitwidth f.bitwidth
  let b ← secureTotal f outputs 1 .boundedSum "secure_sum" slots.maxInput f.maxInput
  let c ← secureTotal f outputs 2 .modularSum "secure_modular_sum" slots.modulus f.modulus
  let secure ← bind slots.update "secure" (zipAtServer [a, b, c])
  let global ← bind slots.update "global_update" (zipAtServer [aggregate, secure])
  let input ← bind slots.update "update_input" (zipAtServer [state, global])
  let updated ← bind slots.update "updated" (applyTo f.update.payload input)
  let newState ← bind slots.update "new_state" do
    applyTo (← selector f.update.resultType [0]) updated
  let output ← bind slots.update "output" do applyTo (← selector f.update.resultType [1]) updated
  return Expr.mkTuple [newState, output]

def distributeAggregate (f : DistributeAggregate Block) (state data : Expr) : WiringM Expr := do
  let slots := DistributeAggregate.slots
  let prepared ← splice slots.serverPrepare f.serverPrepare.payload state
  let sent ← typed slots.serverPrepare (project prepared 0)
  let carried ← typed slots.serverPrepare (project prepared 1)
  let received ← splice slots.broadcast f.broadcast.payload sent
  let values ← splice slots.clientWork f.clientWork.payload (Expr.mkTuple [data, received])
  let aggregates ← splice slots.aggregation f.aggregation.payload (Expr.mkTuple [carried, values])
  splice slots.serverResult f.serverResult.payload (Expr.mkTuple [carried, aggregates])

def broadcast (f : Broadcast Block) (state data : Expr) : WiringM Expr := do
  let slots := Broadcast.slots
  if f.context.resultType.isEmpty then
    let processing ← partially slots.processing f.processing.payload f.dataType fun d =>
      Expr.mkTuple [Expr.unit, d]
    bind slots.processing "output" (mapOver processing data)
  else
    let prepared ← bind slots.context "prepared" (applyTo f.context.payload state)
    let context ← bind slots.context "context" (crossing .broadcast prepared)
    let inputs ← bind slots.processing "client_input" (zipAtClients [context, data])
    bind slots.processing "output" (mapOver f.processing.payload inputs)

def wire : Form → (state data : Expr) → WiringM Expr
  | .mapReduce f => mapReduce f
  | .distributeAggregate f => distributeAggregate f
  | .broadcast f => broadcast f

end Synthesis

/-- The round that a form factors, checked to have the form's type. -/
def Form.synthesize (f : Form) : Traced SynthesisError Expr := do
  let round ← Traced.ofExcept (Synthesis.close f (Synthesis.wire f))
  if round.ty ≠ f.signature then .fail ⟨"round", .otherSignature round.ty f.signature⟩
  else
    Traced.ofExcept (round.check.mapError fun fault => ⟨"round", .illTyped fault⟩)
    Traced.note (.synthesized f.template round.ty)
    return round

end TwoTier

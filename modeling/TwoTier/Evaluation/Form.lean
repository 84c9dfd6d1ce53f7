import TwoTier.Evaluation.Basic
import TwoTier.Form.Basic

/-! # Running forms

Each form has a protocol of its own that calls its blocks in turn, on the same inputs that a round
takes.
-/

namespace TwoTier.Eval

def block (s : Setting) (budget : Nat) (b : Block) (argument : Option Value) : Eval Value := do
  let f ← expr s budget [] b.payload
  call s budget f argument

def clientOutput (v : Value) : Except EvalFault (Value × Value × Value × Value) := do
  let (update, secure) ← v.two
  let (a, b, c) ← secure.three
  return (update, a, b, c)

def channelSum (s : Setting) (budget : Nat) (members : List Ty) (channel : Nat) (op : Crossing)
    (values : List Value) (parameter : Block) : Eval Value := do
  match members[channel]? with
  | none => misshapen (.noSecureChannel channel)
  | some member =>
    let parameter ← block s budget parameter none
    Value.secureSum op member values parameter

def mapReduce (s : Setting) (budget : Nat) (f : MapReduce Block) (state : Value)
    (data : List Value) :
    Eval Value := do
  let context ← block s budget f.prepare (some state)
  let outputs ← Traced.each (fun d => block s budget f.work (some (.pair d context))) data
  let outputs ← Traced.each (fun v => ofExcept (clientOutput v)) outputs
  let zero ← block s budget f.zero none
  let accumulate ← expr s budget [] f.accumulate.payload
  let merge ← expr s budget [] f.merge.payload
  let total ← aggregate s (call s budget) (outputs.map fun o => o.1) zero accumulate merge
  let report ← block s budget f.report (some total)
  match f.secureType.elements? with
  | none => misshapen (.secureChannels f.secureType)
  | some members =>
    let a ← channelSum s budget members 0 .bitwidthSum (outputs.map fun o => o.2.1) f.bitwidth
    let b ← channelSum s budget members 1 .boundedSum (outputs.map fun o => o.2.2.1) f.maxInput
    let c ← channelSum s budget members 2 .modularSum (outputs.map fun o => o.2.2.2) f.modulus
    let (newState, output) ← (← block s budget f.update
      (some (.pair state (.pair report (.tuple [a, b, c]))))).two
    return .pair (.atServer newState) (.atServer output)

def distributeAggregate (s : Setting) (budget : Nat) (f : DistributeAggregate Block) (state : Value)
    (data : List Value) : Eval Value := do
  let (sent, carried) ← (← block s budget f.serverPrepare (some (.atServer state))).two
  let received ← block s budget f.broadcast (some sent)
  let values ← block s budget f.clientWork (some (.pair (.atClients data) received))
  let aggregates ← block s budget f.aggregation (some (.pair carried values))
  block s budget f.serverResult (some (.pair carried aggregates))

def broadcast (s : Setting) (budget : Nat) (f : Broadcast Block) (state : Value)
    (data : List Value) :
    Eval Value := do
  let context ← block s budget f.context (some state)
  return .atClients
    (← Traced.each (fun d => block s budget f.processing (some (.pair context d))) data)

def form (budget groupSize : Nat) (f : Form) (state : Value) (data : List Value) : Eval Value :=
  let s : Setting := { participants := data.length, groupSize }
  match f with
  | .mapReduce f => mapReduce s budget f state data
  | .distributeAggregate f => distributeAggregate s budget f state data
  | .broadcast f => broadcast s budget f state data

end TwoTier.Eval

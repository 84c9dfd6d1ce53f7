import TwoTier.Expr.Basic

/-! # Templates and slots

The three factored forms of a round. A form has one part per slot; the parts are expressions before
the form is checked and blocks afterwards.
-/

namespace TwoTier

inductive Template where
  | mapReduce
  | distributeAggregate
  | broadcast
deriving DecidableEq, Repr

namespace Template

def all : List Template := [.mapReduce, .distributeAggregate, .broadcast]

def name : Template → String
  | .mapReduce => "map-reduce"
  | .distributeAggregate => "distribute-aggregate"
  | .broadcast => "broadcast"

def ofName? (s : String) : Option Template :=
  all.find? fun t => t.name == s

end Template

/-- The stages that a round is taken apart in, in order. -/
inductive Stage where
  | signature
  | broadcast
  | work
  | aggregation
  | result
deriving DecidableEq, Repr

def Stage.name : Stage → String
  | .signature => "signature"
  | .broadcast => "broadcast"
  | .work => "work"
  | .aggregation => "aggregation"
  | .result => "result"

/-- Seven functions on unplaced values, and a parameter for each of the three secure sums. -/
structure MapReduce (α : Type) where
  prepare : α
  work : α
  zero : α
  accumulate : α
  merge : α
  report : α
  bitwidth : α
  maxInput : α
  modulus : α
  update : α

/-- Five functions on placed values, of which only the second and the fourth cross tiers. -/
structure DistributeAggregate (α : Type) where
  serverPrepare : α
  broadcast : α
  clientWork : α
  aggregation : α
  serverResult : α

/-- Two functions on unplaced values, without any aggregation. -/
structure Broadcast (α : Type) where
  context : α
  processing : α

namespace MapReduce

def slots : MapReduce String where
  prepare := "prepare"
  work := "work"
  zero := "zero"
  accumulate := "accumulate"
  merge := "merge"
  report := "report"
  bitwidth := "secure_sum_bitwidth"
  maxInput := "secure_sum_max_input"
  modulus := "secure_modular_sum_modulus"
  update := "update"

def toList {α : Type} (s : MapReduce α) : List α :=
  [s.prepare, s.work, s.zero, s.accumulate, s.merge, s.report, s.bitwidth, s.maxInput,
    s.modulus, s.update]

def traverse {m : Type → Type} [Monad m] {α β : Type} (f : α → m β) (s : MapReduce α) :
    m (MapReduce β) := do
  return {
    prepare := ← f s.prepare
    work := ← f s.work
    zero := ← f s.zero
    accumulate := ← f s.accumulate
    merge := ← f s.merge
    report := ← f s.report
    bitwidth := ← f s.bitwidth
    maxInput := ← f s.maxInput
    modulus := ← f s.modulus
    update := ← f s.update }

end MapReduce

namespace DistributeAggregate

def slots : DistributeAggregate String where
  serverPrepare := "server_prepare"
  broadcast := "server_to_client_broadcast"
  clientWork := "client_work"
  aggregation := "client_to_server_aggregation"
  serverResult := "server_result"

def toList {α : Type} (s : DistributeAggregate α) : List α :=
  [s.serverPrepare, s.broadcast, s.clientWork, s.aggregation, s.serverResult]

def traverse {m : Type → Type} [Monad m] {α β : Type} (f : α → m β) (s : DistributeAggregate α) :
    m (DistributeAggregate β) := do
  return {
    serverPrepare := ← f s.serverPrepare
    broadcast := ← f s.broadcast
    clientWork := ← f s.clientWork
    aggregation := ← f s.aggregation
    serverResult := ← f s.serverResult }

end DistributeAggregate

namespace Broadcast

def slots : Broadcast String where
  context := "compute_server_context"
  processing := "client_processing"

def toList {α : Type} (s : Broadcast α) : List α :=
  [s.context, s.processing]

def traverse {m : Type → Type} [Monad m] {α β : Type} (f : α → m β) (s : Broadcast α) :
    m (Broadcast β) := do
  return {
    context := ← f s.context
    processing := ← f s.processing }

end Broadcast

/-- One `α` for every slot of some template. -/
inductive Slotted (α : Type) where
  | mapReduce (parts : MapReduce α)
  | distributeAggregate (parts : DistributeAggregate α)
  | broadcast (parts : Broadcast α)

def Template.slots : Template → Slotted String
  | .mapReduce => .mapReduce MapReduce.slots
  | .distributeAggregate => .distributeAggregate DistributeAggregate.slots
  | .broadcast => .broadcast Broadcast.slots

namespace Slotted

variable {α β : Type}

def template : Slotted α → Template
  | .mapReduce _ => .mapReduce
  | .distributeAggregate _ => .distributeAggregate
  | .broadcast _ => .broadcast

def toList : Slotted α → List α
  | .mapReduce s => s.toList
  | .distributeAggregate s => s.toList
  | .broadcast s => s.toList

/-- Each part through `f`, in the order of the slots. -/
def traverse {m : Type → Type} [Monad m] (f : α → m β) : Slotted α → m (Slotted β)
  | .mapReduce s => do return .mapReduce (← s.traverse f)
  | .distributeAggregate s => do return .distributeAggregate (← s.traverse f)
  | .broadcast s => do return .broadcast (← s.traverse f)

def map (f : α → β) (s : Slotted α) : Slotted β :=
  Id.run (s.traverse fun a => pure (f a))

def named (s : Slotted α) : List (String × α) :=
  s.template.slots.toList.zip s.toList

end Slotted

/-- The parts of a form, before it is checked. -/
abbrev Parts := Slotted Expr

end TwoTier

import TwoTier.Ty.Assignable

/-! # Intrinsics

The operations on placed values, known by name: five that move values from one tier to the other,
and five that work within a tier. The type of an operation is determined by the type of its one,
possibly packed, argument.
-/

namespace TwoTier

/-- The operations that cross tiers. All but `broadcast` bring participant values to the
coordinator. -/
inductive Crossing where
  | broadcast
  | aggregate
  | bitwidthSum
  | boundedSum
  | modularSum
deriving DecidableEq, Repr

namespace Crossing

def all : List Crossing := [.broadcast, .aggregate, .bitwidthSum, .boundedSum, .modularSum]

def uri : Crossing → String
  | .broadcast => "federated_broadcast"
  | .aggregate => "federated_aggregate"
  | .bitwidthSum => "federated_secure_sum_bitwidth"
  | .boundedSum => "federated_secure_sum"
  | .modularSum => "federated_secure_modular_sum"

def isBroadcast (c : Crossing) : Bool := c == .broadcast

def isAggregation (c : Crossing) : Bool := !c.isBroadcast

def secureSums : List Crossing := [.bitwidthSum, .boundedSum, .modularSum]

def secureChannel? : Crossing → Option Nat
  | .bitwidthSum => some 0
  | .boundedSum => some 1
  | .modularSum => some 2
  | _ => none

end Crossing

inductive LocalOp where
  | map
  | apply
  | zipAtClients
  | zipAtServer
  | valueAtServer
deriving DecidableEq, Repr

namespace LocalOp

def all : List LocalOp := [.map, .apply, .zipAtClients, .zipAtServer, .valueAtServer]

def uri : LocalOp → String
  | .map => "federated_map"
  | .apply => "federated_apply"
  | .zipAtClients => "federated_zip_at_clients"
  | .zipAtServer => "federated_zip_at_server"
  | .valueAtServer => "federated_value_at_server"

end LocalOp

inductive Intrinsic where
  | crossing (op : Crossing)
  | within (op : LocalOp)
deriving DecidableEq, Repr

inductive Wanted where
  | coordinatorValue
  | aggregateArguments
  | participantsFirst
  | unplacedZero
  | accumulate (ty : Ty)
  | merge (ty : Ty)
  | report (zero : Ty)
  | secureArguments
  | integerValues
  | parameterTier
  | integerParameter (op : Crossing)
  | functionAndValue
  | appliedAtCoordinator
  | unplacedFunction
  | assignableTo (ty : Ty)
  | participantTuple
  | coordinatorTuple
  | unplacedValue
deriving DecidableEq

def Wanted.text : Wanted → String
  | .coordinatorValue => "a coordinator value T@SERVER"
  | .aggregateArguments => "<\x7bV\x7d@CLIENTS, A, (<A,V> -> A), (<A,A> -> A), (A -> R)>"
  | .participantsFirst => "participant values \x7bV\x7d@CLIENTS as first element"
  | .unplacedZero => "an unplaced zero"
  | .accumulate ty => "accumulate of type " ++ ty.text
  | .merge ty => "merge of type " ++ ty.text
  | .report zero => "report of type (" ++ zero.text ++ " -> R)"
  | .secureArguments => "<\x7bV\x7d@CLIENTS, P>"
  | .integerValues => "integer participant values"
  | .parameterTier => "a static or coordinator-placed parameter"
  | .integerParameter op => "an integer parameter for `" ++ op.uri ++ "`"
  | .functionAndValue => "<(T -> U), T@P>"
  | .appliedAtCoordinator => "a coordinator value"
  | .unplacedFunction => "an unplaced function"
  | .assignableTo ty => "a value assignable to " ++ ty.text
  | .participantTuple => "a tuple of participant values"
  | .coordinatorTuple => "a tuple of coordinator values"
  | .unplacedValue => "an unplaced value"

namespace Intrinsic

def uri : Intrinsic → String
  | .crossing op => op.uri
  | .within op => op.uri

def all : List Intrinsic := Crossing.all.map .crossing ++ LocalOp.all.map .within

def ofUri? (s : String) : Option Intrinsic :=
  all.find? fun i => i.uri == s

def broadcastResult (arg : Ty) : Except Wanted Ty :=
  match arg.memberAt? .coordinator with
  | some m => .ok (.place m .participants true)
  | none => .error .coordinatorValue

/-- Accumulating and merging keep the type of the zero, and the report takes it. -/
def aggregateResult (arg : Ty) : Except Wanted Ty :=
  match arg with
  | .tuple [value, zero, accumulate, merge, report] =>
    match value.memberAt? .participants with
    | none => .error .participantsFirst
    | some m =>
      let wantedAccumulate := Ty.func (.tuple [zero, m]) zero
      let wantedMerge := Ty.func (.tuple [zero, zero]) zero
      if zero.isPlaced then .error .unplacedZero
      else if accumulate ≠ wantedAccumulate then .error (.accumulate wantedAccumulate)
      else if merge ≠ wantedMerge then .error (.merge wantedMerge)
      else match report with
        | .func p r =>
          if p = zero ∧ !r.isPlaced then .ok (.atCoordinator r) else .error (.report zero)
        | _ => .error (.report zero)
  | _ => .error .aggregateArguments

/-- The parameter of a secure sum is static or held by the coordinator. -/
def secureSumResult (op : Crossing) (arg : Ty) : Except Wanted Ty :=
  match arg with
  | .tuple [value, param] =>
    match value.memberAt? .participants with
    | none => .error .participantsFirst
    | some m =>
      if !m.isInteger then .error .integerValues
      else
        let bare : Except Wanted Ty := match param with
          | .placed p .coordinator _ => .ok p
          | .placed _ .participants _ => .error .parameterTier
          | p => .ok p
        bare.bind fun p =>
          if p.isPlaced || !p.isInteger then .error (.integerParameter op) else .ok
            (.atCoordinator m)
  | _ => .error .secureArguments

/-- Mapping works at either tier, applying at the coordinator only. -/
def mapResult (op : LocalOp) (arg : Ty) : Except Wanted Ty :=
  match arg with
  | .tuple [.func p r, .placed m site _] =>
    if op = .apply ∧ site ≠ .coordinator then .error .appliedAtCoordinator
    else if (Ty.func p r).isPlaced then .error .unplacedFunction
    else if !p.accepts m then .error (.assignableTo p)
    else .ok (.place r site false)
  | _ => .error .functionAndValue

def zipResult (site : Placement) (wanted : Wanted) (arg : Ty) : Except Wanted Ty :=
  match arg with
  | .tuple ts =>
    match ts.mapM (Ty.memberAt? site) with
    | some ms => .ok (.place (.tuple ms) site false)
    | none => .error wanted
  | _ => .error wanted

def resultType : Intrinsic → Ty → Except Wanted Ty
  | .crossing .broadcast, arg => broadcastResult arg
  | .crossing .aggregate, arg => aggregateResult arg
  | .crossing op, arg => secureSumResult op arg
  | .within .map, arg => mapResult .map arg
  | .within .apply, arg => mapResult .apply arg
  | .within .zipAtClients, arg => zipResult .participants .participantTuple arg
  | .within .zipAtServer, arg => zipResult .coordinator .coordinatorTuple arg
  | .within .valueAtServer, arg =>
    if arg.isPlaced then .error .unplacedValue else .ok (.atCoordinator arg)

/-- The function type of an intrinsic applied to an argument of type `arg`. -/
def signature (i : Intrinsic) (arg : Ty) : Except Wanted Ty :=
  (i.resultType arg).map fun r => .func arg r

end Intrinsic

end TwoTier

import TwoTier.Block
import TwoTier.Diagnostic

/-! # Compile errors

Why a round has no form of the template asked for, or why parts do not make a form.
-/

namespace TwoTier

inductive Constraint where
  | wellTyped (fault : TypeFault)
  | localBlock (tier : Tier) (error : ExtractError)
  | oneParameter
  | noParameter
  | workParameter
  | workContext
  | workResult
  | secureTriple
  | secureChannel (index : Nat)
  | accumulateParameter
  | reportParameter
  | secureParameter
  | updateParameter
  | updateResult
  | updateState
  | accumulateResult
  | mergeParameter
  | mergeResult
  | stateParameter
  | preparedResult
  | placedTuple (name : String) (placement : Placement)
  | broadcastParameter
  | clientParameter
  | clientData
  | clientContext
  | aggregationParameter
  | resultParameter
  | resultPair
  | resultState
  | resultOutput
  | lambda
  | permitted (uri : String) (kind : Stage)
  | dependsOnly (op : Crossing) (name param : String)
  | processingParameter
  | processingContext

def Constraint.text : Constraint → String
  | .wellTyped fault => "ill-typed slot: " ++ fault.message
  | .localBlock tier e => "not a " ++ tier.text ++ " local block: " ++ e.message
  | .oneParameter => "must be a one-parameter function"
  | .noParameter => "must be a no-parameter function"
  | .workParameter => "parameter must be <D, C>"
  | .workContext => "work consumes the context produced by prepare"
  | .workResult => "result must be <U, V>"
  | .secureTriple => "secure channels must form a triple <V1, V2, V3>"
  | .secureChannel i => s!"secure channel {i + 1} must carry integers"
  | .accumulateParameter => "accumulate takes the accumulator and one client update"
  | .reportParameter => "report consumes the accumulator"
  | .secureParameter => "secure-sum parameter must be an integer"
  | .updateParameter => "update takes the state and the global update <R, V>"
  | .updateResult => "result must be <S, X>"
  | .updateState => "update returns the state type first"
  | .accumulateResult => "accumulate result must be assignable to the accumulator"
  | .mergeParameter => "merge takes two accumulators"
  | .mergeResult => "merge must be closed under repeated merging"
  | .stateParameter => "parameter must be the coordinator state S@SERVER"
  | .preparedResult => "result must be <B_I, T>"
  | .placedTuple x p => x ++ " must be a tuple of values placed at " ++ p.text
  | .broadcastParameter => "broadcast consumes B_I from server_prepare"
  | .clientParameter => "parameter must be <\x7bD\x7d@CLIENTS, B_O>"
  | .clientData => "first parameter element must be participant data \x7bD\x7d@CLIENTS"
  | .clientContext => "client_work consumes B_O from server_to_client_broadcast"
  | .aggregationParameter => "aggregation takes the temporary state and the client values <T, A_I>"
  | .resultParameter => "server_result takes the temporary state and the aggregates <T, A_O>"
  | .resultPair => "result must be <S@SERVER, X@SERVER>"
  | .resultState => "server_result returns the state first"
  | .resultOutput => "round output must be placed at the coordinator"
  | .lambda => "must be a one-parameter lambda"
  | .permitted uri kind => "intrinsic `" ++ uri ++ "` is not a " ++ kind.name ++ " primitive"
  | .dependsOnly op x p =>
    "`" ++ op.uri ++ "` depends on `" ++ x ++ "` rather than only on `" ++ p ++ "`"
  | .processingParameter => "parameter must be <C, D>"
  | .processingContext =>
    "client_processing consumes the context produced by compute_server_context"

structure Incompatible where
  slot : String
  constraint : Constraint
  expected : Option Ty := none
  actual : Option Ty := none

def Incompatible.message (i : Incompatible) : String :=
  let types := match i.expected, i.actual with
    | some e, some a => " (expected " ++ e.text ++ ", found " ++ a.text ++ ")"
    | some e, none => " (expected " ++ e.text ++ ")"
    | none, some a => " (found " ++ a.text ++ ")"
    | none, none => ""
  "incompatible form at `" ++ i.slot ++ "`: " ++ i.constraint.text ++ types

mutual

inductive Misfit where
  | notALambda (ty : Ty)
  | parameterShape (ty : Ty)
  | boundTwice (name : String)
  | hiddenState
  | hiddenData
  | illTyped (fault : TypeFault)
  | wholeParameter
  | unavailable (name : String) (op : Crossing)
  | circular (name : String)
  | withoutArgument (uri : String)
  | malformedArgument (uri : String)
  | unknownIntrinsic (uri : String)
  | coordinatorResult (ty : Ty)
  | participantResult (ty : Ty)
  | lateBroadcast (name : String)
  | noAggregation
  | repeatedAggregation (count : Nat) (op : Crossing)
  | strayAggregation (name : String) (op : Crossing)
  | noValueArgument (name : String)
  | missingArgument (name : String) (index : Nat)
  | dynamicParameter (error : CompileError)
  | otherSignature (form round : Ty)

inductive CompileError where
  | illTyped (fault : TypeFault)
  | mixedCall (call : MixedCall)
  | unknownCrossing (crossing : UnknownCrossing)
  | extraction (error : ExtractError)
  | shape (template : Template) (stage : Stage) (slot : String) (misfit : Misfit)
  | incompatible (violation : Incompatible)

end

mutual

def Misfit.message : Misfit → String
  | .notALambda t => "round must be a one-parameter lambda, found " ++ t.text
  | .parameterShape t => "parameter must be <S@SERVER,\x7bD\x7d@CLIENTS>, found " ++ t.text
  | .boundTwice x => "local `" ++ x ++ "` is bound more than once"
  | .hiddenState => "depends on the round state, which this slot cannot see"
  | .hiddenData => "depends on the participant data, which this slot cannot see"
  | .illTyped fault => fault.message
  | .wholeParameter => "uses the round parameter as a whole; select its state or data component"
  | .unavailable x op =>
    "depends on `" ++ x ++ "` (" ++ op.uri ++ "), which is not available to this slot"
  | .circular x => "`" ++ x ++ "` depends on itself"
  | .withoutArgument uri => "`" ++ uri ++ "` called without an argument"
  | .malformedArgument uri => "malformed `" ++ uri ++ "` argument"
  | .unknownIntrinsic uri =>
    "cannot express a call of unknown intrinsic `" ++ uri ++ "` inside a slot"
  | .coordinatorResult t => "round must return <S@SERVER,X@SERVER>, found " ++ t.text
  | .participantResult t => "round must return \x7bO\x7d@CLIENTS, found " ++ t.text
  | .lateBroadcast x =>
    "broadcast `" ++ x ++
      "` depends on an aggregation result; every broadcast must precede aggregation"
  | .noAggregation =>
    "no aggregation intrinsic found; the round never moves participant values to the coordinator"
  | .repeatedAggregation n op =>
    s!"{n} calls of `" ++ op.uri ++ "`; at most one call per aggregation kind"
  | .strayAggregation x op =>
    "aggregation `" ++ x ++ "` (" ++ op.uri ++ ") has no place in a broadcast-only round"
  | .noValueArgument x => "`" ++ x ++ "` has no value argument"
  | .missingArgument x i => "`" ++ x ++ s!"` is missing argument {i}"
  | .dynamicParameter e => "secure-sum parameter must be static: " ++ e.message
  | .otherSignature form round =>
    "form describes " ++ form.text ++ " but the round has type " ++ round.text

def CompileError.message : CompileError → String
  | .illTyped fault => "type error: " ++ fault.message
  | .mixedCall m => m.message
  | .unknownCrossing u => u.message
  | .extraction e => e.message
  | .shape template stage slot misfit =>
    template.name ++ " template, " ++ stage.name ++ " step: cannot bind slot `" ++ slot ++ "`: " ++
      misfit.message
  | .incompatible i => i.message

end

namespace CompileError

def slot? : CompileError → Option String
  | .illTyped _ | .mixedCall _ | .unknownCrossing _ => none
  | .extraction e => some e.slot
  | .shape _ _ slot _ => some slot
  | .incompatible i => some i.slot

def code : CompileError → String
  | .illTyped _ => "E0104"
  | .mixedCall _ => "E0300"
  | .unknownCrossing _ => "E0301"
  | .extraction (.signature _ _ _) => "E0400"
  | .extraction (.leak _ _ _) => "E0401"
  | .shape _ _ _ _ => "E0500"
  | .incompatible _ => "E0600"

def hint? : CompileError → Option String
  | .shape template _ _ _ =>
    some ("the round is not in " ++ template.name ++ " shape; try another --template")
  | .unknownCrossing _ =>
    some ("supported cross-tier intrinsics: federated_broadcast, federated_aggregate and the " ++
      "three federated_secure_* sums")
  | _ => none

def diagnostic (e : CompileError) : Diagnostic where
  code := some e.code
  message := e.message
  hint := e.hint?

end CompileError

end TwoTier

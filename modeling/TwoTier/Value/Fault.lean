import TwoTier.Value.Basic

/-! # Evaluation faults

Why an expression has no value. Well-typed expressions run into few of these.
-/

namespace TwoTier

inductive ShapeFault where
  | noZero (ty : Ty)
  | noElement (value : Value) (index : Nat)
  | notSelectable (index : Nat) (value : Value)
  | notAtServer (value : Value)
  | notAtClients (value : Value)
  | notAnInteger (value : Value)
  | notCallable (value : Value)
  | secureResult (op : Crossing) (ty : Ty)
  | notMappable (value : Value)
  | notZippable (value : Value)
  | missingValue (participant : Nat)
  | width (expected found : Nat)
  | notATuple (expected : Nat) (value : Value)
  | notASequence (value : Value)
  | operands (op : Builtin) (left right : Value)
  | secureOperands (value parameter : Value)
  | secureChannels (ty : Ty)
  | noSecureChannel (channel : Nat)

inductive EvalFault where
  | unbound (name : String)
  | unknownIntrinsic (uri : String)
  | overflow (op : Builtin)
  | outOfRange (op : Crossing) (value bound : Int)
  | badParameter (op : Crossing) (value : Int)
  | shape (fault : ShapeFault)

def ShapeFault.message : ShapeFault → String
  | .noZero t => "no zero value of type " ++ t.text
  | .noElement v i => v.text ++ s!" has no element {i}"
  | .notSelectable i v => s!"cannot select [{i}] from " ++ v.text
  | .notAtServer v => "expected a coordinator value, found " ++ v.text
  | .notAtClients v => "expected participant values, found " ++ v.text
  | .notAnInteger v => "expected an integer, found " ++ v.text
  | .notCallable v => "cannot call " ++ v.text
  | .secureResult op t => "`" ++ op.uri ++ "` of type " ++ t.text
  | .notMappable v => "cannot map over " ++ v.text
  | .notZippable v => "cannot zip " ++ v.text
  | .missingValue i => s!"participant {i} is missing a value"
  | .width n m => s!"expected a {n}-tuple, found {m} element(s)"
  | .notATuple n v => s!"expected a {n}-tuple, found " ++ v.text
  | .notASequence v => "sequence_sum of " ++ v.text
  | .operands op a b => "`" ++ op.name ++ "` of " ++ a.text ++ " and " ++ b.text
  | .secureOperands v p => "secure-sum value " ++ v.text ++ " with parameter " ++ p.text
  | .secureChannels t => "secure channels of type " ++ t.text
  | .noSecureChannel n => s!"no secure channel {n}"

def EvalFault.message : EvalFault → String
  | .unbound x => "unbound name `" ++ x ++ "`"
  | .unknownIntrinsic uri => "unknown intrinsic `" ++ uri ++ "`"
  | .overflow op => "integer overflow in `" ++ op.name ++ "`"
  | .outOfRange op v bound => "`" ++ op.uri ++ s!"`: value {v} is outside [0, {bound}]"
  | .badParameter op v => "`" ++ op.uri ++ s!"`: parameter {v} is out of range"
  | .shape fault => "ill-shaped value: " ++ fault.message

namespace Value

def misshapen {α : Type} (f : ShapeFault) : Except EvalFault α := .error (.shape f)

def zeroOf (t : Ty) : Except EvalFault Value :=
  (zero t).mapError fun t => .shape (.noZero t)

def element (v : Value) (i : Nat) : Except EvalFault Value :=
  match v with
  | .tuple vs => match vs[i]? with
    | some e => .ok e
    | none => misshapen (.noElement v i)
  | v => misshapen (.notSelectable i v)

def serverContent : Value → Except EvalFault Value
  | .atServer v => .ok v
  | v => misshapen (.notAtServer v)

def clientContents : Value → Except EvalFault (List Value)
  | .atClients vs => .ok vs
  | v => misshapen (.notAtClients v)

def integer : Value → Except EvalFault Int
  | .int v => .ok v
  | v => misshapen (.notAnInteger v)

def two : Value → Except EvalFault (Value × Value)
  | .tuple [a, b] => .ok (a, b)
  | .tuple vs => misshapen (.width 2 vs.length)
  | v => misshapen (.notATuple 2 v)

def three : Value → Except EvalFault (Value × Value × Value)
  | .tuple [a, b, c] => .ok (a, b, c)
  | .tuple vs => misshapen (.width 3 vs.length)
  | v => misshapen (.notATuple 3 v)

def five : Value → Except EvalFault (Value × Value × Value × Value × Value)
  | .tuple [a, b, c, d, e] => .ok (a, b, c, d, e)
  | .tuple vs => misshapen (.width 5 vs.length)
  | v => misshapen (.notATuple 5 v)

end Value

end TwoTier

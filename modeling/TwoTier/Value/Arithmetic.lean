import TwoTier.Value.Fault
import TwoTier.Whole

/-! # Arithmetic

The builtins on values: on numbers, and on tuples element by element.
-/

namespace TwoTier

namespace Builtin

def onWhole : Builtin → Int → Int → Option Int
  | .add, x, y => Whole.add? x y
  | .sub, x, y => Whole.sub? x y
  | .mul, x, y => Whole.mul? x y
  | .max, x, y => some (if x < y then y else x)
  | .min, x, y => some (if y < x then y else x)
  | .sequenceSum, _, _ => none

/-- Of a number and a not-a-number, `max` and `min` take the number; of equal numbers, such as the
two zeros, the second. -/
def onFloat : Builtin → Float → Float → Float
  | .add, x, y | .sequenceSum, x, y => x + y
  | .sub, x, y => x - y
  | .mul, x, y => x * y
  | .max, x, y => if y.isNaN || y < x then x else y
  | .min, x, y => if y.isNaN || x < y then x else y

end Builtin

namespace Value

mutual

def combine (op : Builtin) : Value → Value → Except EvalFault Value
  | .int x, .int y => match op.onWhole x y with
    | some z => .ok (.int z)
    | none => .error (.overflow op)
  | .float x, .float y => .ok (.float (op.onFloat x y))
  | .tuple xs, .tuple ys =>
    if xs.length = ys.length then (combineAll op xs ys).map .tuple
    else misshapen (.operands op (.tuple xs) (.tuple ys))
  | a, b => misshapen (.operands op a b)

def combineAll (op : Builtin) : List Value → List Value → Except EvalFault (List Value)
  | x :: xs, y :: ys => do
    let z ← combine op x y
    return z :: (← combineAll op xs ys)
  | _, _ => .ok []

end

def sum (total : Value) : List Value → Except EvalFault Value
  | [] => .ok total
  | v :: vs => do
    let total ← combine .add total v
    sum total vs

def applyBuiltin (op : Builtin) (operand : Ty) (argument : Value) : Except EvalFault Value :=
  match op with
  | .sequenceSum => match argument with
    | .seq items => do sum (← zeroOf operand) items
    | v => misshapen (.notASequence v)
  | op => do
    let (a, b) ← argument.two
    combine op a b

end Value

end TwoTier

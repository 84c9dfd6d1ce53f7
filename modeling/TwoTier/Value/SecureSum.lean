import TwoTier.Value.Arithmetic

/-! # Secure sums

Sums of integers over all participants, number by number: modulo a power of two, of bounded inputs,
or modulo any number. The parameter is one integer for all numbers of a value, or a tuple of
parameters for its elements.
-/

namespace TwoTier.Value

mutual

def leafwise (f : Int → Int → Except EvalFault Int) : Value → Value → Except EvalFault Value
  | .int v, p => do
    let p ← p.integer
    return .int (← f v p)
  | .tuple vs, .tuple ps =>
    if vs.length = ps.length then (leafwiseEach f vs ps).map .tuple
    else misshapen (.secureOperands (.tuple vs) (.tuple ps))
  | .tuple vs, .int p => (leafwiseAll f p vs).map .tuple
  | v, p => misshapen (.secureOperands v p)

def leafwiseEach (f : Int → Int → Except EvalFault Int) :
    List Value → List Value → Except EvalFault (List Value)
  | v :: vs, p :: ps => do
    let v ← leafwise f v p
    return v :: (← leafwiseEach f vs ps)
  | _, _ => .ok []

def leafwiseAll (f : Int → Int → Except EvalFault Int) (p : Int) :
    List Value → Except EvalFault (List Value)
  | [] => .ok []
  | v :: vs => do
    let v ← leafwise f v (.int p)
    return v :: (← leafwiseAll f p vs)

end

/-- What happens to each number of an input before it is added. -/
def accept (op : Crossing) (parameter v : Value) : Except EvalFault Value :=
  match op with
  | .boundedSum => leafwise (fun x bound =>
      if 0 ≤ x ∧ x ≤ bound then .ok x else .error (.outOfRange op x bound)) v parameter
  | _ => .ok v

/-- What happens to each number of the total. -/
def reduce (op : Crossing) (parameter total : Value) : Except EvalFault Value :=
  match op with
  | .bitwidthSum => leafwise (fun x bits =>
      if 1 ≤ bits ∧ bits ≤ 62 then .ok (x % Nat.pow 2 bits.toNat) else .error
        (.badParameter op bits)) total parameter
  | .modularSum => leafwise (fun x modulus =>
      if 0 < modulus then .ok (x % modulus) else .error (.badParameter op modulus)) total parameter
  | _ => .ok total

/-- Add inputs to a total, each admitted just before it is added. -/
def sumAdmitted (op : Crossing) (parameter total : Value) : List Value → Except EvalFault Value
  | [] => .ok total
  | v :: vs => do
    let v ← accept op parameter v
    let total ← combine .add total v
    sumAdmitted op parameter total vs

/-- The secure sum of values of type `member`. Without participants it is zero, and empty tuples sum
up to the empty tuple whatever the parameter. -/
def secureSum (op : Crossing) (member : Ty) (values : List Value) (parameter : Value) :
    Except EvalFault Value :=
  match values with
  | [] => zeroOf member
  | .tuple [] :: _ => .ok empty
  | first :: rest => do
    let first ← accept op parameter first
    let total ← sumAdmitted op parameter first rest
    reduce op parameter total

end TwoTier.Value

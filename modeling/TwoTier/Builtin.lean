import TwoTier.Ty.Basic

/-! # Builtins

The pure arithmetic available inside local computations, each instantiated at a numeric operand
type.
-/

namespace TwoTier

inductive Builtin where
  | add
  | sub
  | mul
  | max
  | min
  | sequenceSum
deriving DecidableEq, Repr

namespace Builtin

def all : List Builtin := [.add, .sub, .mul, .max, .min, .sequenceSum]

def name : Builtin → String
  | .add => "add"
  | .sub => "sub"
  | .mul => "mul"
  | .max => "max"
  | .min => "min"
  | .sequenceSum => "sequence_sum"

def ofName? (s : String) : Option Builtin :=
  all.find? fun b => b.name == s

def paramType : Builtin → Ty → Ty
  | .sequenceSum, t => .seq t
  | _, t => .tuple [t, t]

def signature? (b : Builtin) (t : Ty) : Option Ty :=
  if t.isNumeric then some (.func (b.paramType t) t) else none

end Builtin

end TwoTier

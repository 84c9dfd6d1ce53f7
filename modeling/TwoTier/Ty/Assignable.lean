import TwoTier.Ty.Basic

/-! # Assignability

Where one type is expected, which types are accepted: the same type, except that a value equal for
all participants may stand for one value per participant. Function parameters are taken the other
way round.
-/

namespace TwoTier.Ty

mutual

/-- The second type may stand for the first or, when `reversed`, the first for the second. -/
def standsFor (reversed : Bool) : Ty → Ty → Bool
  | .scalar a, .scalar b => a == b
  | .tuple as, .tuple bs => standsForList reversed as bs
  | .seq a, .seq b => standsFor reversed a b
  | .func p r, .func q s => standsFor (!reversed) p q && standsFor reversed r s
  | .thunk a, .thunk b => standsFor reversed a b
  | .placed a p x, .placed b q y =>
    p == q && (if reversed then !y || x else !x || y) && standsFor reversed a b
  | _, _ => false

def standsForList (reversed : Bool) : List Ty → List Ty → Bool
  | [], [] => true
  | a :: as, b :: bs => standsFor reversed a b && standsForList reversed as bs
  | _, _ => false

end

/-- A value of type `actual` may be used where `expected` is asked for. -/
def accepts (expected actual : Ty) : Bool :=
  standsFor false expected actual

end TwoTier.Ty

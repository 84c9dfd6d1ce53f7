import TwoTier.Expr.Build

/-! # Boundary calls

The calls in an expression that move values from one tier to the other.
-/

namespace TwoTier

structure BoundaryCall where
  op : Crossing
  args : List Expr
  result : Ty

def BoundaryCall.text (c : BoundaryCall) : String :=
  c.op.uri ++ "(" ++ String.intercalate ", " (c.args.map fun a => a.ty.text) ++
    ") -> " ++ c.result.text

structure UnknownCrossing where
  uri : String
  ty : Ty

def UnknownCrossing.message (u : UnknownCrossing) : String :=
  "unsupported cross-tier intrinsic `" ++ u.uri ++ "` of type " ++ u.ty.text

namespace Expr

def crossingCall? (uri : String) (ty : Ty) (args : List Expr) (result : Ty) :
    Except UnknownCrossing (Option BoundaryCall) :=
  match Intrinsic.ofUri? uri with
  | some (.crossing op) => .ok (some ⟨op, args, result⟩)
  | some (.within _) => .ok none
  | none => if ty.crossesTiers then .error ⟨uri, ty⟩ else .ok none

def boundary? : Expr → Except UnknownCrossing (Option BoundaryCall)
  | .call (.intrinsic uri ty) a t => crossingCall? uri ty a.unpack t
  | .force (.intrinsic uri ty) t => crossingCall? uri ty [] t
  | _ => .ok none

/-- All boundary calls, an outer one before the ones in its parts. -/
def boundaries (e : Expr) : Except UnknownCrossing (List BoundaryCall) := do
  return (← e.subterms.mapM boundary?).filterMap id

end Expr

end TwoTier

import TwoTier.Expr.Build

/-! # Checking recorded types

Every recorded type is compared with the one that the parts of its node imply. References to names
that are not bound within the expression are taken at their recorded type.
-/

namespace TwoTier.Expr

def agrees (node : Expr) (actual : Ty) : Except TypeFault Unit :=
  if actual = node.ty then .ok () else .error (.recorded node actual)

/-- A named intrinsic has the type that its argument implies. -/
def checkImplied (function argument : Expr) : Except TypeFault Unit :=
  match function with
  | .intrinsic uri ty => match Intrinsic.ofUri? uri with
    | some i => do
      let implied ← intrinsicType i argument.ty
      if implied = ty then .ok () else .error (.intrinsicRecorded uri ty implied)
    | none => .ok ()
  | _ => .ok ()

mutual

def checkIn (scope : List (String × Ty)) : Expr → Except TypeFault Unit
  | .ref x t => match scope.lookup x with
    | some u => agrees (.ref x t) u
    | none => .ok ()
  | .lit a t => agrees (.lit a t) a.ty
  | .tuple es t => do
    checkList scope es
    agrees (.tuple es t) (.tuple (es.map ty))
  | .select e i t => do
    checkIn scope e
    let rebuilt ← mkSelect e i
    agrees (.select e i t) rebuilt.ty
  | .call f a t => do
    checkIn scope f
    checkIn scope a
    checkImplied f a
    let rebuilt ← mkCall f a
    agrees (.call f a t) rebuilt.ty
  | .force f t => do
    checkIn scope f
    let rebuilt ← mkForce f
    agrees (.force f t) rebuilt.ty
  | .lambda (some x) e (.func p r) => do
    checkIn ((x, p) :: scope) e
    if e.ty = r then .ok () else .error (.recorded (.lambda (some x) e (.func p r)) (.func p e.ty))
  | .lambda none e (.thunk r) => do
    checkIn scope e
    if e.ty = r then .ok () else .error (.recorded (.lambda none e (.thunk r)) (.thunk e.ty))
  | .lambda x e t =>
    if t.signature?.isSome then .error (.lambdaParameter (.lambda x e t))
    else .error (.lambdaType (.lambda x e t))
  | .block ls r t => do
    let scope ← checkLocals scope ls
    checkIn scope r
    agrees (.block ls r t) r.ty
  | .intrinsic _ _ => .ok ()
  | .builtin b t => match t.signature? with
    | some (_, operand) => do
      let rebuilt ← mkBuiltin b operand
      agrees (.builtin b t) rebuilt.ty
    | none => .error (.builtinType b)

def checkList (scope : List (String × Ty)) : List Expr → Except TypeFault Unit
  | [] => .ok ()
  | e :: es => do
    checkIn scope e
    checkList scope es

/-- Check the locals in order and return the scope of what follows them. -/
def checkLocals (scope : List (String × Ty)) :
    List (String × Expr) → Except TypeFault (List (String × Ty))
  | [] => .ok scope
  | (x, e) :: ls => do
    checkIn scope e
    checkLocals ((x, e.ty) :: scope) ls

end

def check (e : Expr) : Except TypeFault Unit :=
  e.checkIn []

end TwoTier.Expr

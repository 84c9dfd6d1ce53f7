import TwoTier.Expr.Text

/-! # Well-typed expressions, part by part

Constructors that derive the type of a node from its parts and refuse parts that do not fit.
-/

namespace TwoTier

inductive TypeFault where
  | indexOutOfRange (index : Nat) (source : Expr)
  | notATuple (index : Nat) (source : Expr)
  | notAFunction (function : Expr)
  | argumentMismatch (function argument : Expr) (param : Ty)
  | missingArgument (function : Expr) (param : Ty)
  | unwantedArgument (function argument : Expr)
  | operand (op : Builtin) (ty : Ty)
  | intrinsicArgument (op : Intrinsic) (wanted : Wanted) (found : Ty)
  | recorded (node : Expr) (actual : Ty)
  | intrinsicRecorded (uri : String) (ty implied : Ty)
  | lambdaType (node : Expr)
  | lambdaParameter (node : Expr)
  | builtinType (op : Builtin)

def TypeFault.message : TypeFault → String
  | .indexOutOfRange i e => s!"index {i} out of range for " ++ e.ty.text ++ " (`" ++ e.text ++ "`)"
  | .notATuple i e =>
    s!"cannot select [{i}] from non-tuple " ++ e.ty.text ++ " (`" ++ e.text ++ "`)"
  | .notAFunction f => "cannot call non-function `" ++ f.text ++ "` of type " ++ f.ty.text
  | .argumentMismatch f a p =>
    "argument `" ++ a.text ++ "` of type " ++ a.ty.text ++ " does not match parameter " ++ p.text
      ++ " of `" ++ f.text ++ "`"
  | .missingArgument f p => "`" ++ f.text ++ "` expects an argument of type " ++ p.text
  | .unwantedArgument f a => "`" ++ f.text ++ "` takes no argument, given `" ++ a.text ++ "`"
  | .operand b t => "`" ++ b.name ++ "` requires a numeric operand type, found " ++ t.text
  | .intrinsicArgument i w t => "`" ++ i.uri ++ "` expects " ++ w.text ++ ", found " ++ t.text
  | .recorded e t => "`" ++ e.text ++ "` is recorded as " ++ e.ty.text ++ " but has type " ++ t.text
  | .intrinsicRecorded uri t implied =>
    "intrinsic `" ++ uri ++ "` recorded as " ++ t.text ++
      " but its argument implies " ++ implied.text
  | .lambdaType e => "lambda `" ++ e.text ++ "` has non-function type"
  | .lambdaParameter e => "lambda `" ++ e.text ++ "` parameter does not agree with its type"
  | .builtinType b => "builtin `" ++ b.name ++ "` has non-function type"

namespace Expr

def int (v : Int) : Expr := .lit (.int v) .int32

def float (v : Float) : Expr := .lit (.float v) .float32

def boolean (v : Bool) : Expr := .lit (.bool v) .boolean

def mkTuple (es : List Expr) : Expr :=
  .tuple es (.tuple (es.map ty))

def unit : Expr := mkTuple []

def mkSelect (e : Expr) (i : Nat) : Except TypeFault Expr :=
  match e.ty.elements? with
  | some ts => match ts[i]? with
    | some t => .ok (.select e i t)
    | none => .error (.indexOutOfRange i e)
  | none => .error (.notATuple i e)

def mkCall (f a : Expr) : Except TypeFault Expr :=
  match f.ty with
  | .func p r => if p.accepts a.ty then .ok (.call f a r) else .error (.argumentMismatch f a p)
  | .thunk _ => .error (.unwantedArgument f a)
  | _ => .error (.notAFunction f)

def mkForce (f : Expr) : Except TypeFault Expr :=
  match f.ty with
  | .thunk r => .ok (.force f r)
  | .func p _ => .error (.missingArgument f p)
  | _ => .error (.notAFunction f)

def mkApply (f : Expr) : Option Expr → Except TypeFault Expr
  | some a => mkCall f a
  | none => mkForce f

def mkLambda (x : String) (t : Ty) (body : Expr) : Expr :=
  .lambda (some x) body (.func t body.ty)

def mkDelay (body : Expr) : Expr :=
  .lambda none body (.thunk body.ty)

def mkBlock (locals : List (String × Expr)) (result : Expr) : Expr :=
  if locals.isEmpty then result else .block locals result result.ty

def mkBuiltin (b : Builtin) (t : Ty) : Except TypeFault Expr :=
  match b.signature? t with
  | some sig => .ok (.builtin b sig)
  | none => .error (.operand b t)

def intrinsicType (i : Intrinsic) (arg : Ty) : Except TypeFault Ty :=
  match i.signature arg with
  | .ok sig => .ok sig
  | .error w => .error (.intrinsicArgument i w arg)

def mkIntrinsicCall (i : Intrinsic) (a : Expr) : Except TypeFault Expr := do
  let sig ← intrinsicType i a.ty
  mkCall (.intrinsic i.uri sig) a

/-- `e[i]` with the type found in `e`, the empty tuple if there is none. -/
def field (e : Expr) (i : Nat) : Expr :=
  .select e i (e.ty.elementOrEmpty i)

/-- The parts of a packed argument: the elements of a tuple, literal or selected. -/
def unpack (a : Expr) : List Expr :=
  match a with
  | .tuple es _ => es
  | a => match a.ty with
    | .tuple ts => (List.range ts.length).map a.field
    | _ => [a]

end Expr

end TwoTier

import TwoTier.Decimal.Layout
import TwoTier.Expr.Basic
import TwoTier.Intrinsic
import TwoTier.Text.Quoted

/-! # Printed expressions

One-line text in the source syntax, and a rendering of rounds with one local a line. A call of a
known intrinsic at the type its argument implies is written by name alone; any other use of an
intrinsic spells out its type.
-/

namespace TwoTier

def Literal.text : Literal → String
  | .int v => toString v
  | .float v => Decimal.printed.writeAny v
  | .bool true => "true"
  | .bool false => "false"

namespace Expr

/-- An intrinsic, called on an argument of type `arg`, is named with exactly the type that `arg`
implies. -/
def isImplied (uri : String) (ty arg : Ty) : Bool :=
  match Intrinsic.ofUri? uri with
  | some i => match i.signature arg with
    | .ok sig => sig == ty
    | .error _ => false
  | none => false

def lambdaHead (param : Option String) (ty : Ty) (arrow : String) : String :=
  match param, ty with
  | some x, .func p _ => "(" ++ x ++ ": " ++ p.text ++ arrow
  | _, _ => "(" ++ arrow

def builtinText (op : Builtin) (ty : Ty) : String :=
  match ty.signature? with
  | some (_, r) => op.name ++ "<" ++ r.text ++ ">"
  | none => op.name

mutual

/-- The text of an expression; a block that is not outermost (`nested`) stands in parentheses. -/
def render (nested : Bool) : Expr → String
  | .ref x _ => x
  | .lit a _ => a.text
  | .tuple es _ => "<" ++ String.intercalate "," (renderList es) ++ ">"
  | .select e i _ => render true e ++ "[" ++ toString i ++ "]"
  | .call (.intrinsic uri ty) a _ =>
    (if isImplied uri ty a.ty then uri
      else "(intrinsic " ++ Text.quoted uri ++ " : " ++ ty.text ++ ")") ++ "(" ++
        render true a ++ ")"
  | .call f a _ => render true f ++ "(" ++ render true a ++ ")"
  | .force f _ => render true f ++ "()"
  | .lambda x e ty => lambdaHead x ty " -> " ++ render false e ++ ")"
  | .block ls r _ =>
    let body := "let " ++ String.intercalate ", " (renderLocals ls) ++ " in " ++ render true r
    if nested then "(" ++ body ++ ")" else body
  | .intrinsic uri ty => "(intrinsic " ++ Text.quoted uri ++ " : " ++ ty.text ++ ")"
  | .builtin b ty => builtinText b ty

def renderList : List Expr → List String
  | [] => []
  | e :: es => render true e :: renderList es

def renderLocals : List (String × Expr) → List String
  | [] => []
  | (x, e) :: ls => (x ++ " = " ++ render true e) :: renderLocals ls

end

def text (e : Expr) : String :=
  e.render false

def localLines : List (String × Expr) → String
  | [] => ""
  | [(x, e)] => "    " ++ x ++ " = " ++ e.text ++ "\n"
  | (x, e) :: ls => "    " ++ x ++ " = " ++ e.text ++ ",\n" ++ localLines ls

/-- A lambda around a block is spread over lines; anything else is as in `text`. -/
def pretty : Expr → String
  | .lambda x (.block ls r bt) ty =>
    if ty.signature?.isSome then
      lambdaHead x ty " ->" ++ "\n  let\n" ++ localLines ls ++ "  in " ++ r.text ++ ")"
    else text (.lambda x (.block ls r bt) ty)
  | e => e.text

end Expr

end TwoTier

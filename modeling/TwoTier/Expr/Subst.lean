import TwoTier.Expr.Build
import TwoTier.Expr.Fresh

/-! # Substitution

Free references are replaced by expressions. A binder that would capture a name of a replacement is
renamed, and a selection from a tuple literal becomes the selected element.
-/

namespace TwoTier

abbrev Subst := List (String × Expr)

namespace Subst

def erase (m : Subst) (x : String) : Subst :=
  m.filter fun r => r.1 != x

def insert (m : Subst) (x : String) (e : Expr) : Subst :=
  (x, e) :: m.erase x

def names (m : Subst) : List String :=
  m.flatMap fun r => r.2.freeIn []

end Subst

namespace Expr

/-- A name for the binder `x` that clashes with no name of its scope and none in `avoid`. -/
def freshBinder (x : String) (scope avoid : List String) : String :=
  ((Names.mk []).reserveList (scope ++ avoid)).pick x

def selectOf (e : Expr) (i : Nat) (t : Ty) : Expr :=
  match e with
  | .tuple es _ => es.getD i (.select e i t)
  | _ => .select e i t

/-- What goes under a binder: the replacements and names to avoid there, and the binder's own new
name. -/
def underBinder (m : Subst) (avoid : List String) (x : String) (t : Ty) (scope : List String) :
    Subst × List String × String :=
  let inner := m.erase x
  if x ∈ avoid ∧ !inner.isEmpty then
    let y := freshBinder x scope avoid
    (inner.insert x (.ref y t), y :: avoid, y)
  else (inner, avoid, x)

mutual

/-- Replace by `m`, renaming binders that are in `avoid`. -/
def replace (m : Subst) (avoid : List String) : Expr → Expr
  | .ref x t => (m.lookup x).getD (.ref x t)
  | .lit a t => .lit a t
  | .intrinsic u t => .intrinsic u t
  | .builtin b t => .builtin b t
  | .tuple es t => .tuple (replaceList m avoid es) t
  | .select e i t => selectOf (replace m avoid e) i t
  | .call f a t => .call (replace m avoid f) (replace m avoid a) t
  | .force f t => .force (replace m avoid f) t
  | .lambda none e t => .lambda none (replace m avoid e) t
  | .lambda (some x) e t =>
    let (m, avoid, y) := underBinder m avoid x (match t with
      | .func p _ => p
      | _ => .empty) e.allNames
    .lambda (some y) (if m.isEmpty then e else replace m avoid e) t
  | .block ls r t =>
    let (ls', m, avoid) := replaceLocals m avoid (allNames (.block ls r t)) ls
    mkBlock ls' (replace m avoid r)
termination_by structural e => e

def replaceList (m : Subst) (avoid : List String) : List Expr → List Expr
  | [] => []
  | e :: es => replace m avoid e :: replaceList m avoid es
termination_by structural es => es

/-- The locals of a block with names `scope`, and what holds for the expressions after them. -/
def replaceLocals (m : Subst) (avoid scope : List String) :
    List (String × Expr) → List (String × Expr) × Subst × List String
  | [] => ([], m, avoid)
  | (x, e) :: ls =>
    let e := replace m avoid e
    let (m, avoid, y) := underBinder m avoid x e.ty scope
    let (ls, m, avoid) := replaceLocals m avoid scope ls
    ((y, e) :: ls, m, avoid)
termination_by structural ls => ls

end

def subst (e : Expr) (m : Subst) : Expr :=
  if m.isEmpty then e else e.replace m m.names

end Expr

end TwoTier

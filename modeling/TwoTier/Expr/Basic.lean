import TwoTier.Builtin
import TwoTier.Ty.Basic

/-! # Expressions

Computations over placed and unplaced values, with a type recorded at every node. The recorded types
need not be right: an expression may come from serialized data.
-/

namespace TwoTier

inductive Literal where
  | int (value : Int)
  | float (value : Float)
  | bool (value : Bool)

/-- A call without an argument is a `force`. The locals of a block are bound in order, each seeing
the ones before it. The parameter type of a lambda is part of its own type. -/
inductive Expr where
  | ref (name : String) (ty : Ty)
  | lit (value : Literal) (ty : Ty)
  | tuple (elements : List Expr) (ty : Ty)
  | select (source : Expr) (index : Nat) (ty : Ty)
  | call (function argument : Expr) (ty : Ty)
  | force (function : Expr) (ty : Ty)
  | lambda (param : Option String) (body : Expr) (ty : Ty)
  | block (locals : List (String × Expr)) (result : Expr) (ty : Ty)
  | intrinsic (uri : String) (ty : Ty)
  | builtin (op : Builtin) (ty : Ty)
deriving Inhabited

namespace Literal

def ty : Literal → Ty
  | .int _ => .int32
  | .float _ => .float32
  | .bool _ => .boolean

def same : Literal → Literal → Bool
  | .int a, .int b => a == b
  | .float a, .float b => a == b
  | .bool a, .bool b => a == b
  | _, _ => false

end Literal

namespace Expr

def ty : Expr → Ty
  | .ref _ t | .lit _ t | .tuple _ t | .select _ _ t | .call _ _ t | .force _ t | .lambda _ _ t
  | .block _ _ t | .intrinsic _ t | .builtin _ t => t

mutual

/-- Equality of trees, recorded types included; float literals are compared by value. -/
def same : Expr → Expr → Bool
  | .ref x t, .ref y u => x == y && t == u
  | .lit a t, .lit b u => a.same b && t == u
  | .tuple as t, .tuple bs u => sameList as bs && t == u
  | .select a i t, .select b j u => same a b && i == j && t == u
  | .call f a t, .call g b u => same f g && same a b && t == u
  | .force f t, .force g u => same f g && t == u
  | .lambda x a t, .lambda y b u => x == y && same a b && t == u
  | .block ls a t, .block ms b u => sameLocals ls ms && same a b && t == u
  | .intrinsic x t, .intrinsic y u => x == y && t == u
  | .builtin x t, .builtin y u => x == y && t == u
  | _, _ => false

def sameList : List Expr → List Expr → Bool
  | [], [] => true
  | a :: as, b :: bs => same a b && sameList as bs
  | _, _ => false

def sameLocals : List (String × Expr) → List (String × Expr) → Bool
  | [], [] => true
  | (x, a) :: as, (y, b) :: bs => x == y && same a b && sameLocals as bs
  | _, _ => false

end

def children : Expr → List Expr
  | .tuple es _ => es
  | .select e _ _ => [e]
  | .call f a _ => [f, a]
  | .force f _ => [f]
  | .lambda _ e _ => [e]
  | .block ls r _ => ls.map Prod.snd ++ [r]
  | .ref _ _ | .lit _ _ | .intrinsic _ _ | .builtin _ _ => []

mutual

def subterms : Expr → List Expr
  | .ref x t => [.ref x t]
  | .lit a t => [.lit a t]
  | .tuple es t => .tuple es t :: subtermsList es
  | .select e i t => .select e i t :: subterms e
  | .call f a t => .call f a t :: (subterms f ++ subterms a)
  | .force f t => .force f t :: subterms f
  | .lambda x e t => .lambda x e t :: subterms e
  | .block ls r t => .block ls r t :: (subtermsLocals ls ++ subterms r)
  | .intrinsic x t => [.intrinsic x t]
  | .builtin b t => [.builtin b t]

def subtermsList : List Expr → List Expr
  | [] => []
  | e :: es => subterms e ++ subtermsList es

def subtermsLocals : List (String × Expr) → List Expr
  | [] => []
  | (_, e) :: ls => subterms e ++ subtermsLocals ls

end

def size (e : Expr) : Nat :=
  e.subterms.length

def ownNames : Expr → List String
  | .ref x _ => [x]
  | .lambda (some x) _ _ => [x]
  | .block ls _ _ => ls.map Prod.fst
  | _ => []

def allNames (e : Expr) : List String :=
  e.subterms.flatMap ownNames

def isLambda : Expr → Bool
  | .lambda _ _ _ => true
  | _ => false

def parameter? : Expr → Option (String × Ty)
  | .lambda (some x) _ (.func p _) => some (x, p)
  | _ => none

mutual

/-- References to names that are neither in `bound` nor bound within the expression, as they
occur. -/
def freeIn (bound : List String) : Expr → List String
  | .ref x _ => if x ∈ bound then [] else [x]
  | .lit _ _ | .intrinsic _ _ | .builtin _ _ => []
  | .tuple es _ => freeInList bound es
  | .select e _ _ => freeIn bound e
  | .call f a _ => freeIn bound f ++ freeIn bound a
  | .force f _ => freeIn bound f
  | .lambda (some x) e _ => freeIn (x :: bound) e
  | .lambda none e _ => freeIn bound e
  | .block ls r _ => freeInLocals bound ls ++ freeIn (ls.foldl (fun b l => l.1 :: b) bound) r

def freeInList (bound : List String) : List Expr → List String
  | [] => []
  | e :: es => freeIn bound e ++ freeInList bound es

def freeInLocals (bound : List String) : List (String × Expr) → List String
  | [] => []
  | (x, e) :: ls => freeIn bound e ++ freeInLocals (x :: bound) ls

end

def insertName (x : String) : List String → List String
  | [] => [x]
  | y :: ys => if x < y then x :: y :: ys else if x = y then y :: ys else y :: insertName x ys

def free (e : Expr) : List String :=
  (e.freeIn []).foldr insertName []

def isClosed (e : Expr) : Bool :=
  e.free.isEmpty

end Expr

end TwoTier

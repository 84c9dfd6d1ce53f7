import TwoTier.Expr.Basic

/-! # Fresh names

Names that clash with none already taken: a base name, or the base with the first free number behind
it.
-/

namespace TwoTier

structure Names where
  used : List String := []

namespace Names

def isReserved (names : Names) (x : String) : Bool :=
  names.used.contains x

def reserve (names : Names) (x : String) : Names :=
  if names.isReserved x then names else ⟨x :: names.used⟩

def reserveList (names : Names) (xs : List String) : Names :=
  xs.foldl reserve names

def reserveAll (names : Names) (e : Expr) : Names :=
  names.reserveList e.allNames

def avoiding (e : Expr) : Names :=
  ({} : Names).reserveAll e

/-- The first free name among `base_n`, `base_(n+1)`, …; `fuel` bounds the search. -/
def numbered (names : Names) (base : String) : (fuel n : Nat) → String
  | 0, n => base ++ "_" ++ toString n
  | fuel + 1, n =>
    let x := base ++ "_" ++ toString n
    if names.isReserved x then names.numbered base fuel (n + 1) else x

/-- A name for `base` that is not taken. Among one more candidate than there are taken names one is
free. -/
def pick (names : Names) (base : String) : String :=
  if names.isReserved base then names.numbered base names.used.length 1 else base

def fresh (names : Names) (base : String) : String × Names :=
  let x := names.pick base
  (x, names.reserve x)

end Names

end TwoTier

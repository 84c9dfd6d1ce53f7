/-! # Spans

Ranges of bytes in a source text, and the lines and columns they are reported at.
-/

namespace TwoTier

/-- The bytes from `start` up to, and without, `stop`. -/
structure Span where
  start : Nat
  stop : Nat
deriving DecidableEq, Repr

namespace Source

def byteLength (cs : List Char) : Nat :=
  cs.foldr (fun c n => c.utf8Size + n) 0

/-- The characters before byte `n`: all of them if there are fewer bytes, and none at all if the
byte lies inside a character. -/
def before? : Nat → List Char → Option (List Char)
  | _, [] => some []
  | 0, _ => some []
  | n + 1, c :: cs =>
    if c.utf8Size ≤ n + 1 then (before? (n + 1 - c.utf8Size) cs).map (c :: ·) else none

def lineAfter (cs : List Char) : Nat :=
  cs.count '\n' + 1

/-- The column of what follows `cs`, counted in bytes from one. -/
def columnAfter (cs : List Char) : Nat :=
  byteLength (cs.reverse.takeWhile (· != '\n')) + 1

end Source

end TwoTier

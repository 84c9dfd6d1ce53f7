/-! # Shortest decimals

The fewest decimal digits that read back to a given binary64 number, chosen by exact arithmetic on
the number's bits. Of two candidates with equally few digits the nearer one is taken.
-/

namespace TwoTier.Decimal

/-- A positive number `mant * 2 ^ exp`; `narrow` says that the gap below it is half the gap
above. -/
structure Binary where
  mant : Nat
  exp : Int
  narrow : Bool

def Binary.ofFloat (x : Float) : Binary :=
  let bits := x.toBits.toNat
  let fraction : Nat := bits % Nat.pow 2 52
  let field : Nat := bits / Nat.pow 2 52 % Nat.pow 2 11
  if field = 0 then ⟨fraction, -1074, false⟩
  else ⟨Nat.pow 2 52 + fraction, (field : Int) - 1075, fraction == 0 && field > 1⟩

structure Digits where
  digits : Nat
  exp : Int

/-- Which neighbour wins when a number lies halfway between the two. -/
inductive Tie where
  | up
  | even
deriving DecidableEq, Repr

def aligned (a : Nat) (p : Int) (b : Nat) (q : Int) : Nat × Nat :=
  (a * Nat.pow 10 p.toNat * Nat.pow 2 (-q).toNat, b * Nat.pow 2 q.toNat * Nat.pow 10 (-p).toNat)

namespace Binary

/-- `d * 10 ^ p` rounds to this number: it lies between the midpoints to the two neighbours, and may
be a midpoint itself when the significand is even. -/
def readBy (b : Binary) (d : Nat) (p : Int) : Bool :=
  let low := aligned d p (4 * b.mant - if b.narrow then 1 else 2) (b.exp - 2)
  let high := aligned d p (4 * b.mant + 2) (b.exp - 2)
  if b.mant % 2 = 0 then low.2 ≤ low.1 && high.1 ≤ high.2
  else low.2 < low.1 && high.1 < high.2

/-- The least `k` with the number below `10 ^ k`, searched from an estimate. -/
def scale (b : Binary) : Int :=
  let guess := ((Nat.log2 b.mant : Int) + 1 + b.exp) * 30103 / 100000
  let below := fun k => let (ten, two) := aligned 1 k b.mant b.exp; two < ten
  ([guess - 1, guess, guess + 1].find? below).getD (guess + 2)

def onGrid (b : Binary) (tie : Tie) (p : Int) : Option Digits :=
  let (ten, two) := aligned 1 p b.mant b.exp
  let low := two / ten
  let closerUp :=
    match compare (2 * two) ((2 * low + 1) * ten) with
    | .lt => false
    | .gt => true
    | .eq => match tie with
      | .up => true
      | .even => low % 2 == 1
  match b.readBy low p, b.readBy (low + 1) p with
  | true, true => some ⟨if closerUp then low + 1 else low, p⟩
  | true, false => some ⟨low, p⟩
  | false, true => some ⟨low + 1, p⟩
  | false, false => none

def strip : Nat → Digits → Digits
  | 0, d => d
  | fuel + 1, d =>
    if d.digits ≠ 0 ∧ d.digits % 10 = 0 then strip fuel ⟨d.digits / 10, d.exp + 1⟩ else d

/-- Seventeen digits always suffice, so the last grid is never left without a candidate. -/
def shortest (b : Binary) (tie : Tie) : Digits :=
  let k := b.scale
  match (List.range 17).findSome? fun (n : Nat) => b.onGrid tie (k - 1 - (n : Int)) with
  | some d => strip 20 d
  | none =>
    let (ten, two) := aligned 1 (k - 17) b.mant b.exp
    ⟨two / ten, k - 17⟩

end Binary

end TwoTier.Decimal

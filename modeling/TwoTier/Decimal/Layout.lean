import TwoTier.Decimal.Shortest

/-! # Laying out decimals

How chosen digits are written: positionally or with an exponent, with or without a decimal point.
-/

namespace TwoTier.Decimal

/-- The decisions of one number format. `positional k` says whether a number with `k` digits before
its point (or `-k` zeros behind it) is written without an exponent. -/
structure Layout where
  tie : Tie
  positional : Int → Bool
  keepPoint : Bool
  plusSign : Bool

def isNegative (x : Float) : Bool :=
  x.toBits.toNat / Nat.pow 2 63 == 1

def isZero (x : Float) : Bool :=
  x.toBits.toNat % Nat.pow 2 63 == 0

def digitsOf (n : Nat) : List Char :=
  (Nat.repr n).toList

/-- `0.ds * 10 ^ k`, written without an exponent. -/
def positionally (keepPoint : Bool) (ds : List Char) (k : Int) : List Char :=
  if k ≤ 0 then ['0', '.'] ++ List.replicate (-k).toNat '0' ++ ds
  else
    let whole := ds.take k.toNat ++ List.replicate (k.toNat - ds.length) '0'
    match ds.drop k.toNat with
    | [] => whole ++ if keepPoint then ['.', '0'] else []
    | rest => whole ++ '.' :: rest

def withExponent (plusSign : Bool) (ds : List Char) (k : Int) : List Char :=
  let lead := match ds with
    | [] => ['0']
    | [d] => [d]
    | d :: rest => d :: '.' :: rest
  let e := k - 1
  let sign := if e < 0 then ['-'] else if plusSign then ['+'] else []
  lead ++ 'e' :: sign ++ digitsOf e.natAbs

namespace Layout

def write (l : Layout) (x : Float) : String :=
  let sign := if isNegative x then ['-'] else []
  if isZero x then
    String.ofList (sign ++ if l.keepPoint then ['0', '.', '0'] else ['0'])
  else
    let d := (Binary.ofFloat x).shortest l.tie
    let ds := digitsOf d.digits
    let k := d.exp + ds.length
    let body :=
      if l.positional k then positionally l.keepPoint ds k else withExponent l.plusSign ds k
    String.ofList (sign ++ body)

def writeAny (l : Layout) (x : Float) : String :=
  if x.isNaN then "NaN" else if x.isInf then (if isNegative x then "-inf" else "inf") else l.write x

end Layout

/-- Printed expressions and values: positional from `10 ^ -4` up to `10 ^ 16`, always with a point
there. -/
def printed : Layout where
  tie := .up
  positional k := -4 < k && k ≤ 16
  keepPoint := true
  plusSign := false

/-- Number tokens in messages: always positional, and whole numbers without a point. -/
def plain : Layout where
  tie := .up
  positional _ := true
  keepPoint := false
  plusSign := false

/-- Serialized numbers: positional from `10 ^ -5` up to `10 ^ 16`, exponents always signed. -/
def serialized : Layout where
  tie := .even
  positional k := -5 < k && k ≤ 16
  keepPoint := true
  plusSign := true

end TwoTier.Decimal

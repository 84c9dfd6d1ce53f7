/-! # Reading decimals

A decimal numeral as a binary64 number: rounded once to the nearest, or, for serialized data, as a
scaled integer where each of the few arithmetic steps rounds.
-/

namespace TwoTier.Decimal

def natOfDigits (ds : List Char) : Nat :=
  ds.foldl (fun n c => n * 10 + (c.toNat - 48)) 0

def infinity : Float := 1.0 / 0.0

/-- The binary64 number nearest to `m * 10 ^ e`; infinite above the range. Exponents far outside the
range are decided by the number of digits alone. -/
def nearest (m : Nat) (e : Int) : Float :=
  let magnitude := ((Nat.repr m).length : Int) + e
  if m = 0 then 0.0
  else if magnitude > 310 then infinity
  else if magnitude < -330 then 0.0
  else if e < 0 then Float.ofScientific m true e.natAbs else Float.ofScientific m false e.natAbs

structure Numeral where
  whole : List Char
  fraction : List Char
  exponent : Int

def Numeral.toFloat (n : Numeral) : Float :=
  nearest (natOfDigits (n.whole ++ n.fraction)) (n.exponent - n.fraction.length)

def isDigit (c : Char) : Bool :=
  '0' ≤ c && c ≤ '9'

def exponent? : List Char → Option (Int × List Char × List Char)
  | mark :: cs =>
    if mark = 'e' || mark = 'E' then
      let (sign, cs) := match cs with
        | '+' :: cs => (['+'], cs)
        | '-' :: cs => (['-'], cs)
        | cs => ([], cs)
      match cs.takeWhile isDigit with
      | [] => none
      | ds =>
        let n : Int := natOfDigits ds
        some (if sign = ['-'] then -n else n, mark :: sign ++ ds, cs.dropWhile isDigit)
    else none
  | [] => none

/-- A number written by a person: optional sign, digits with an optional point, optional exponent,
or one of the words for infinity and not-a-number in any case. -/
def ofText? (s : String) : Option Float :=
  let (negative, cs) := match s.toList with
    | '+' :: cs => (false, cs)
    | '-' :: cs => (true, cs)
    | cs => (false, cs)
  let signed := fun (x : Float) => if negative then -x else x
  let word := String.ofList (cs.map Char.toLower)
  if word = "inf" || word = "infinity" then some (signed infinity)
  else if word = "nan" then some (signed (0.0 / 0.0))
  else
    let whole := cs.takeWhile isDigit
    let (fraction, rest) := match cs.dropWhile isDigit with
      | '.' :: rest => (rest.takeWhile isDigit, rest.dropWhile isDigit)
      | rest => ([], rest)
    if whole.isEmpty && fraction.isEmpty then none
    else match rest with
      | [] => some (signed (Numeral.toFloat ⟨whole, fraction, 0⟩))
      | rest => match exponent? rest with
        | some (e, _, []) => some (signed (Numeral.toFloat ⟨whole, fraction, e⟩))
        | _ => none

def tenPow (n : Nat) : Float :=
  Float.ofScientific 1 false n

/-- `x * 10 ^ e` by one division or multiplication per step of at most `10 ^ 308`; `none` above the
range. -/
def scaled : Nat → Float → Int → Option Float
  | 0, x, _ => some x
  | fuel + 1, x, e =>
    if e.natAbs ≤ 308 then
      if 0 ≤ e then
        let y := x * tenPow e.natAbs
        if y.isInf then none else some y
      else some (x / tenPow e.natAbs)
    else if x == 0.0 then some x
    else if 0 ≤ e then none
    else scaled fuel (x / tenPow 308) (e + 308)

end TwoTier.Decimal

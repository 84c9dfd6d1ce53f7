import TwoTier.Decimal.Reading
import TwoTier.Json.Basic

/-! # Reading JSON

A reader for JSON text with a bound on how deep arrays and objects may nest. Every scanner returns
what it read and the characters that follow.
-/

namespace TwoTier.Json

abbrev Scan (α : Type) := List Char → Option (α × List Char)

def isBlank (c : Char) : Bool :=
  c = ' ' || c = '\t' || c = '\n' || c = '\r'

def skipBlank (cs : List Char) : List Char :=
  cs.dropWhile isBlank

def maxSignificand : Nat := Nat.pow 2 64 - 1

/-- Append digits to a significand while it stays in range: the result and how many digits went
in. -/
def absorbDigits : Nat → List Char → Nat × Nat
  | n, [] => (n, 0)
  | n, d :: ds =>
    let next := n * 10 + (d.toNat - 48)
    if next ≤ maxSignificand then
      let (m, taken) := absorbDigits next ds
      (m, taken + 1)
    else (n, 0)

def scaledNumber (negative : Bool) (significand : Nat) (e : Int) : Option Json :=
  (Decimal.scaled 5 (Float.ofNat significand) e).map fun x => .float (if negative then -x else x)

/-- An integer that fits 64 bits, signed or unsigned; anything else counts as a scaled number. -/
def wholeNumber (negative : Bool) (n : Nat) : Json :=
  if negative then
    if 0 < n ∧ n ≤ Nat.pow 2 63 then .int (-n) else .float (-Float.ofNat n)
  else .int n

def numberTail (negative : Bool) (whole : List Char) (rest : List Char) :
    Option (Json × List Char) :=
  let (n, taken) := absorbDigits 0 whole
  let dropped := whole.length - taken
  let finish := fun (n : Nat) (e : Int) (rest : List Char) =>
    match rest with
    | 'e' :: _ | 'E' :: _ => do
      let (x, _, rest) ← Decimal.exponent? rest
      return (← scaledNumber negative n (e + x), rest)
    | _ => return (← scaledNumber negative n e, rest)
  match rest with
  | '.' :: rest =>
    let fraction := rest.takeWhile Decimal.isDigit
    if fraction.isEmpty then none
    else
      let (m, used) := absorbDigits n fraction
      finish m ((dropped : Int) - (used : Int)) (rest.dropWhile Decimal.isDigit)
  | 'e' :: _ | 'E' :: _ => finish n dropped rest
  | _ => if dropped = 0 then some (wholeNumber negative n, rest) else finish n dropped rest

def number : Scan Json := fun cs =>
  let (negative, cs) := match cs with
    | '-' :: cs => (true, cs)
    | cs => (false, cs)
  match cs.takeWhile Decimal.isDigit with
  | [] => none
  | '0' :: _ :: _ => none
  | whole => numberTail negative whole (cs.dropWhile Decimal.isDigit)

def hexValue (c : Char) : Option Nat :=
  if '0' ≤ c && c ≤ '9' then some (c.toNat - 48)
  else if 'a' ≤ c && c ≤ 'f' then some (c.toNat - 87)
  else if 'A' ≤ c && c ≤ 'F' then some (c.toNat - 55)
  else none

def hex4 (a b c d : Char) : Option Nat := do
  return (((← hexValue a) * 16 + (← hexValue b)) * 16 + (← hexValue c)) * 16 + (← hexValue d)

def simpleEscape : Char → Option Char
  | '"' => some '"'
  | '\\' => some '\\'
  | '/' => some '/'
  | 'b' => some (Char.ofNat 8)
  | 'f' => some (Char.ofNat 12)
  | 'n' => some '\n'
  | 'r' => some '\r'
  | 't' => some '\t'
  | _ => none

/-- The code units up to the closing quote: a code point for each character, and for each numbered
escape the number it names. -/
def stringUnits : Scan (List Nat)
  | '"' :: rest => some ([], rest)
  | '\\' :: 'u' :: a :: b :: c :: d :: rest => do
    let unit ← hex4 a b c d
    let (units, rest) ← stringUnits rest
    return (unit :: units, rest)
  | '\\' :: c :: rest => do
    let c ← simpleEscape c
    let (units, rest) ← stringUnits rest
    return (c.toNat :: units, rest)
  | c :: rest =>
    if c.toNat < 32 || c = '\\' then none
    else do
      let (units, rest) ← stringUnits rest
      return (c.toNat :: units, rest)
  | [] => none

/-- Code units as characters. A code point above the basic plane takes two units, which must stand
together. -/
def joinUnits : List Nat → Option (List Char)
  | [] => some []
  | u :: us =>
    if 0xd800 ≤ u ∧ u < 0xdc00 then
      match us with
      | [] => none
      | v :: vs =>
        if 0xdc00 ≤ v ∧ v < 0xe000 then
          (joinUnits vs).map (Char.ofNat (0x10000 + (u - 0xd800) * 0x400 + (v - 0xdc00)) :: ·)
        else none
    else if 0xdc00 ≤ u ∧ u < 0xe000 then none
    else (joinUnits us).map (Char.ofNat u :: ·)

def string : Scan String
  | '"' :: rest => do
    let (units, rest) ← stringUnits rest
    return (String.ofList (← joinUnits units), rest)
  | _ => none

def moreItems {α : Type} (item : Scan α) (closing : Char) : Nat → Scan (List α)
  | 0, _ => none
  | fuel + 1, cs =>
    match skipBlank cs with
    | ',' :: rest => do
      let (a, rest) ← item (skipBlank rest)
      let (as, rest) ← moreItems item closing fuel rest
      return (a :: as, rest)
    | c :: rest => if c = closing then some ([], rest) else none
    | [] => none

def items {α : Type} (item : Scan α) (closing : Char) : Scan (List α) := fun cs =>
  match skipBlank cs with
  | [] => none
  | c :: rest =>
    if c = closing then some ([], rest)
    else do
      let (a, rest) ← item (c :: rest)
      let (as, rest) ← moreItems item closing (rest.length + 1) rest
      return (a :: as, rest)

def fieldOf (value : Scan Json) : Scan (String × Json) := fun cs => do
  let (name, rest) ← string cs
  match skipBlank rest with
  | ':' :: rest =>
    let (j, rest) ← value (skipBlank rest)
    return ((name, j), rest)
  | _ => none

def scalar : Scan Json
  | 'n' :: 'u' :: 'l' :: 'l' :: rest => some (.null, rest)
  | 't' :: 'r' :: 'u' :: 'e' :: rest => some (.bool true, rest)
  | 'f' :: 'a' :: 'l' :: 's' :: 'e' :: rest => some (.bool false, rest)
  | '"' :: rest => (string ('"' :: rest)).map fun r => (.str r.1, r.2)
  | cs => number cs

/-- A value whose arrays and objects nest at most `depth` deep. -/
def value : (depth : Nat) → Scan Json
  | 0, cs => scalar cs
  | depth + 1, cs =>
    match cs with
    | '[' :: rest => (items (value depth) ']' rest).map fun r => (.arr r.1, r.2)
    | '\x7b' :: rest => (items (fieldOf (value depth)) '\x7d' rest).map fun r => (.obj r.1, r.2)
    | cs => scalar cs

def read? (depth : Nat) (text : String) : Option Json :=
  match value depth (skipBlank text.toList) with
  | some (j, rest) => if (skipBlank rest).isEmpty then some j else none
  | none => none

end TwoTier.Json

import TwoTier.Text.Glyph

/-! # Quoted text

Text between double quotes, as messages and printed expressions show it. Quotes, backslashes and the
usual controls have short escapes; any other character without a glyph is spelled by its code point.
-/

namespace TwoTier.Text

def hexDigit (n : Nat) : Char :=
  if n < 10 then Char.ofNat (48 + n) else Char.ofNat (87 + n)

def hexDigits : Nat → Nat → List Char
  | 0, _ => []
  | fuel + 1, n => if n < 16 then [hexDigit n] else hexDigits fuel (n / 16) ++ [hexDigit (n % 16)]

def escapeChar (c : Char) : List Char :=
  if c = '"' then ['\\', '"']
  else if c = '\\' then ['\\', '\\']
  else if c = '\n' then ['\\', 'n']
  else if c = '\r' then ['\\', 'r']
  else if c = '\t' then ['\\', 't']
  else if c = '\x00' then ['\\', '0']
  else if hasGlyph c then [c]
  else ['\\', 'u', '\x7b'] ++ hexDigits 8 c.toNat ++ ['\x7d']

def quoted (s : String) : String :=
  "\"" ++ String.ofList (s.toList.flatMap escapeChar) ++ "\""

end TwoTier.Text

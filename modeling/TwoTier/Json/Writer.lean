import TwoTier.Decimal.Layout
import TwoTier.Json.Basic
import TwoTier.Text.Quoted

/-! # Writing JSON

Compact text without any blank, and indented text with one field or item a line.
-/

namespace TwoTier.Json

def escapeChar (c : Char) : List Char :=
  if c = '"' then ['\\', '"']
  else if c = '\\' then ['\\', '\\']
  else if c = '\n' then ['\\', 'n']
  else if c = '\r' then ['\\', 'r']
  else if c = '\t' then ['\\', 't']
  else if c.toNat = 8 then ['\\', 'b']
  else if c.toNat = 12 then ['\\', 'f']
  else if c.toNat < 32 then
    ['\\', 'u', '0', '0', Text.hexDigit (c.toNat / 16), Text.hexDigit (c.toNat % 16)]
  else [c]

def quotedText (s : String) : String :=
  "\"" ++ String.ofList (s.toList.flatMap escapeChar) ++ "\""

/-- Numbers that are not finite have no numeral and are written as `null`. -/
def floatText (x : Float) : String :=
  if x.isFinite then Decimal.serialized.write x else "null"

mutual

def compact : Json → String
  | .null => "null"
  | .bool true => "true"
  | .bool false => "false"
  | .int n => toString n
  | .float x => floatText x
  | .str s => quotedText s
  | .arr items => "[" ++ String.intercalate "," (compactItems items) ++ "]"
  | .obj fields => "\x7b" ++ String.intercalate "," (compactFields fields) ++ "\x7d"

def compactItems : List Json → List String
  | [] => []
  | j :: js => compact j :: compactItems js

def compactFields : List (String × Json) → List String
  | [] => []
  | (name, j) :: fs => (quotedText name ++ ":" ++ compact j) :: compactFields fs

end

def spread (opening closing : String) (depth : Nat) (entries : List String) : String :=
  if entries.isEmpty then opening ++ closing
  else
    let margin := fun n => "\n" ++ String.ofList (List.replicate (2 * n) ' ')
    opening ++ String.intercalate "," (entries.map (margin (depth + 1) ++ ·)) ++
      margin depth ++ closing

mutual

def indented (depth : Nat) : Json → String
  | .arr items => spread "[" "]" depth (indentedItems (depth + 1) items)
  | .obj fields => spread "\x7b" "\x7d" depth (indentedFields (depth + 1) fields)
  | .null => compact .null
  | .bool b => compact (.bool b)
  | .int n => compact (.int n)
  | .float x => compact (.float x)
  | .str s => compact (.str s)

def indentedItems (depth : Nat) : List Json → List String
  | [] => []
  | j :: js => indented depth j :: indentedItems depth js

def indentedFields (depth : Nat) : List (String × Json) → List String
  | [] => []
  | (name, j) :: fs => (quotedText name ++ ": " ++ indented depth j) :: indentedFields depth fs

end

end TwoTier.Json

import TwoTier.Decimal.Reading
import TwoTier.Source.Token
import TwoTier.Text.Quoted
import TwoTier.Whole

/-! # Cutting a source text into tokens

A text is cut into pieces from left to right, each as long as possible: tokens, blanks and comments,
and pieces that are no token. Reading goes on after a piece of the last kind.
-/

namespace TwoTier.Source

inductive Piece where
  | token (t : Token)
  | filler
  | fault

def fractionLength : List Char → Nat
  | '.' :: cs => match (cs.takeWhile Decimal.isDigit).length with
    | 0 => 0
    | n + 1 => n + 2
  | _ => 0

def exponentLength (cs : List Char) : Nat :=
  match Decimal.exponent? cs with
  | some (_, text, _) => text.length
  | none => 0

/-- The number whose digits start at `cs`, and its length. -/
def number (negative : Bool) (cs : List Char) : Piece × Nat :=
  let whole := cs.takeWhile Decimal.isDigit
  let fraction := fractionLength (cs.drop whole.length)
  let tail := cs.drop (whole.length + fraction)
  let length := whole.length + fraction + exponentLength tail
  if length = whole.length then
    let v : Int := if negative then -Decimal.natOfDigits whole else Decimal.natOfDigits whole
    (if Whole.inRange v then .token (.int v) else .fault, length)
  else
    let e := match Decimal.exponent? tail with
      | some (e, _) => e
      | none => 0
    let x := Decimal.Numeral.toFloat
      ⟨whole, ((cs.drop whole.length).take fraction).drop 1, e⟩
    (.token (.float (if negative then -x else x)), length)

/-- The length of what follows an opening quote, and whether it ends in a closing quote. A backslash
takes the next character with it, unless that is a line break. -/
def stringExtent : List Char → Nat × Bool
  | [] => (0, false)
  | '"' :: _ => (1, true)
  | '\\' :: c :: cs =>
    if c = '\n' then (0, false)
    else
      let (n, closed) := stringExtent cs
      (n + 2, closed)
  | c :: cs =>
    if c = '\\' then (0, false)
    else
      let (n, closed) := stringExtent cs
      (n + 1, closed)

/-- The characters meant by the inside of a string; only quotes and backslashes may be escaped. -/
def unescape : List Char → Option (List Char)
  | [] => some []
  | '\\' :: c :: cs => if c = '"' || c = '\\' then (unescape cs).map (c :: ·) else none
  | c :: cs => if c = '\\' then none else (unescape cs).map (c :: ·)

def string (cs : List Char) : Piece × Nat :=
  match stringExtent cs with
  | (n, false) => (.fault, n)
  | (n, true) => match unescape (cs.take (n - 1)) with
    | some inside => (.token (.text (String.ofList inside)), n)
    | none => (.fault, n)

def isBlank (c : Char) : Bool :=
  c = ' ' || c = '\t' || c = '\r' || c = '\n'

def startsName (c : Char) : Bool :=
  ('a' ≤ c && c ≤ 'z') || ('A' ≤ c && c ≤ 'Z') || c = '_'

def continuesName (c : Char) : Bool :=
  startsName c || Decimal.isDigit c

def word (spelling : String) : Token :=
  match spelling with
  | "let" => .symbol .kwLet
  | "in" => .symbol .kwIn
  | "intrinsic" => .symbol .kwIntrinsic
  | "true" => .symbol .kwTrue
  | "false" => .symbol .kwFalse
  | _ => .name spelling

def sign? : Char → Option Symbol
  | '@' => some .atSign
  | ':' => some .colon
  | '(' => some .parenL
  | ')' => some .parenR
  | '\x7b' => some .braceL
  | '\x7d' => some .braceR
  | '[' => some .bracketL
  | ']' => some .bracketR
  | ',' => some .comma
  | '=' => some .equals
  | '<' => some .less
  | '>' => some .greater
  | '*' => some .star
  | _ => none

def minus (cs : List Char) : Piece × Nat :=
  match cs with
  | '>' :: _ => (.token (.symbol .arrow), 1)
  | c :: _ => if Decimal.isDigit c then number true cs else (.fault, 0)
  | [] => (.fault, 0)

/-- The piece that starts with `c`, and how many of the following characters `cs` belong to it. -/
def front (c : Char) (cs : List Char) : Piece × Nat :=
  if isBlank c then (.filler, (cs.takeWhile isBlank).length)
  else if c = '#' then (.filler, (cs.takeWhile (· != '\n')).length)
  else if startsName c then
    let rest := cs.takeWhile continuesName
    (.token (word (String.ofList (c :: rest))), rest.length)
  else if Decimal.isDigit c then
    let (piece, length) := number false (c :: cs)
    (piece, length - 1)
  else if c = '-' then minus cs
  else if c = '"' then string cs
  else match sign? c with
    | some s => (.token (.symbol s), 0)
    | none => (.fault, 0)

/-- The pieces of a text and the characters of each, after `skipped` characters that are already
dealt with. -/
def piecesFrom : (skipped : Nat) → List Char → List (Piece × List Char)
  | _, [] => []
  | n + 1, _ :: cs => piecesFrom n cs
  | 0, c :: cs =>
    let (piece, n) := front c cs
    (piece, c :: cs.take n) :: piecesFrom n cs

def pieces (source : String) : List (Piece × List Char) :=
  piecesFrom 0 source.toList

structure LexFault where
  span : Span
  text : String
deriving DecidableEq, Repr

def LexFault.message (f : LexFault) : String :=
  "unexpected character: " ++ Text.quoted f.text

structure Lexed where
  lexemes : List Lexeme := []
  faults : List LexFault := []

/-- Tokens and faults among pieces of which the first begins at byte `start`. -/
def locate : (start : Nat) → List (Piece × List Char) → Lexed
  | _, [] => {}
  | start, (piece, text) :: rest =>
    let span := ⟨start, start + byteLength text⟩
    let found := locate span.stop rest
    match piece with
    | .token t => { found with lexemes := ⟨t, span⟩ :: found.lexemes }
    | .fault => { found with faults := ⟨span, String.ofList text⟩ :: found.faults }
    | .filler => found

def lex (source : String) : Lexed :=
  locate 0 (pieces source)

end TwoTier.Source

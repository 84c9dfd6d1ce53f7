import TwoTier.Decimal.Layout
import TwoTier.Source.Span

/-! # Tokens

The words and signs of the source syntax, and what tokens look like in messages.
-/

namespace TwoTier.Source

inductive Symbol where
  | kwLet
  | kwIn
  | kwIntrinsic
  | kwTrue
  | kwFalse
  | arrow
  | atSign
  | colon
  | parenL
  | parenR
  | braceL
  | braceR
  | bracketL
  | bracketR
  | comma
  | equals
  | less
  | greater
  | star
deriving DecidableEq, Repr

def Symbol.text : Symbol → String
  | .kwLet => "let"
  | .kwIn => "in"
  | .kwIntrinsic => "intrinsic"
  | .kwTrue => "true"
  | .kwFalse => "false"
  | .arrow => "->"
  | .atSign => "@"
  | .colon => ":"
  | .parenL => "("
  | .parenR => ")"
  | .braceL => "\x7b"
  | .braceR => "\x7d"
  | .bracketL => "["
  | .bracketR => "]"
  | .comma => ","
  | .equals => "="
  | .less => "<"
  | .greater => ">"
  | .star => "*"

inductive Token where
  | symbol (sign : Symbol)
  | int (value : Int)
  | float (value : Float)
  | text (value : String)
  | name (spelling : String)

/-- A token in a message. Names are shown by their class only. -/
def Token.shown : Token → String
  | .symbol s => s.text
  | .int v => toString v
  | .float v => Decimal.plain.writeAny v
  | .text s => "\"" ++ s ++ "\""
  | .name _ => "<ident>"

structure Lexeme where
  token : Token
  span : Span

end TwoTier.Source

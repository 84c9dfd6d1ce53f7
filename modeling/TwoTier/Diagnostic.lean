import TwoTier.Source.Span

/-! # Diagnostics

A fault as it is reported: with a code, a place in the source where there is one, and perhaps a
hint.
-/

namespace TwoTier

inductive Severity where
  | error
  | warning
deriving DecidableEq, Repr

def Severity.text : Severity → String
  | .error => "error"
  | .warning => "warning"

structure Diagnostic where
  code : Option String := none
  level : Severity := .error
  span : Option Span := none
  message : String
  hint : Option String := none
deriving DecidableEq, Repr

namespace Diagnostic

def text (d : Diagnostic) : String :=
  let code := match d.code with
    | some c => "[" ++ c ++ "]"
    | none => ""
  let hint := match d.hint with
    | some h => "\n  hint: " ++ h
    | none => ""
  d.level.text ++ code ++ ": " ++ d.message ++ hint

/-- The text behind the name of the file and, where there is one, the place in it. A place inside a
character of the source cannot be told. -/
def render? (d : Diagnostic) (file source : String) : Option String :=
  match d.span with
  | some s => (Source.before? s.start source.toList).map fun cs =>
    file ++ s!":{Source.lineAfter cs}:{Source.columnAfter cs}: " ++ d.text
  | none => some (file ++ ": " ++ d.text)

end Diagnostic

end TwoTier

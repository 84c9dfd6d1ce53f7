import TwoTier.Source.Lexer
import TwoTier.Source.Tree

/-! # Reading syntax trees

A recursive descent over lexemes: alternatives are tried in order, the first that succeeds is taken,
and repetitions take as much as they can. Along the way the parser remembers how far any alternative
got, which is where a faulty text is reported.
-/

namespace TwoTier.Source

/-- The lexemes still to be read, and the end of the last one that was. -/
structure Cursor where
  rest : List Lexeme
  stop : Nat

/-- A result with the cursor behind it, and how many lexemes were left where a test failed, at the
least. -/
structure Parsed (α : Type) where
  out : Option (α × Cursor)
  stuck : Option Nat

def Parser (α : Type) := Cursor → Parsed α

namespace Parser

variable {α β : Type}

def furthest : Option Nat → Option Nat → Option Nat
  | some a, some b => some (min a b)
  | some a, none => some a
  | none, b => b

def done (a : α) : Parser α := fun c => ⟨some (a, c), none⟩

def andThen (p : Parser α) (f : α → Parser β) : Parser β := fun c =>
  let first := p c
  match first.out with
  | none => ⟨none, first.stuck⟩
  | some (a, c) =>
    let second := f a c
    ⟨second.out, furthest first.stuck second.stuck⟩

instance : Monad Parser where
  pure := done
  bind := andThen

/-- The second alternative is tried where the first one started. -/
def either (p q : Parser α) : Parser α := fun c =>
  let first := p c
  match first.out with
  | some r => ⟨some r, first.stuck⟩
  | none =>
    let second := q c
    ⟨second.out, furthest first.stuck second.stuck⟩

def choice : List (Parser α) → Parser α
  | [] => fun _ => ⟨none, none⟩
  | [p] => p
  | p :: ps => either p (choice ps)

def optional (p : Parser α) : Parser (Option α) :=
  either (andThen p fun a => done (some a)) (done none)

/-- As many as there are, at most `n`. -/
def many (p : Parser α) : (n : Nat) → Parser (List α)
  | 0 => done []
  | n + 1 => do
    match ← optional p with
    | none => return []
    | some a => return a :: (← many p n)

def accept (test : Token → Option α) : Parser (α × Span) := fun c =>
  match c.rest with
  | [] => ⟨none, some 0⟩
  | l :: rest => match test l.token with
    | some a => ⟨some ((a, l.span), ⟨rest, l.span.stop⟩), none⟩
    | none => ⟨none, some (rest.length + 1)⟩

def spanned (p : Parser α) : Parser (α × Span) := fun c =>
  let start := match c.rest with
    | l :: _ => l.span.start
    | [] => c.stop
  let r := p c
  ⟨r.out.map fun (a, c) => ((a, ⟨start, c.stop⟩), c), r.stuck⟩

def symbol (s : Symbol) : Parser Span := do
  let (_, span) ← accept fun
    | .symbol t => if t = s then some () else none
    | _ => none
  return span

def ident : Parser Ident := do
  let (x, span) ← accept fun
    | .name x => some x
    | _ => none
  return ⟨x, span⟩

def between (opening closing : Symbol) (p : Parser α) : Parser α := do
  let _ ← symbol opening
  let a ← p
  let _ ← symbol closing
  return a

def commaSeparated1 (n : Nat) (p : Parser α) : Parser (List α) := do
  let a ← p
  let as ← many (do let _ ← symbol .comma; p) n
  return a :: as

def commaSeparated (n : Nat) (p : Parser α) : Parser (List α) := do
  match ← optional (commaSeparated1 n p) with
  | some as => return as
  | none => return []

def baseType (n : Nat) (ty : Parser TypeTree) : Parser TypeTree := do
  let (make, span) ← spanned (choice [
    do return TypeTree.named (← ident),
    do return TypeTree.tuple (← between .less .greater (commaSeparated n ty)),
    between .parenL .parenR do
      let param ← optional ty
      let _ ← symbol .arrow
      let result ← ty
      return match param with
        | some p => TypeTree.func p result
        | none => TypeTree.thunk result])
  return make span

def sequenceType (n : Nat) (ty : Parser TypeTree) : Parser TypeTree := do
  let base ← baseType n ty
  let stars ← many (symbol .star) n
  return stars.foldl (fun t star => .seq t ⟨t.span.start, star.stop⟩) base

def eachType (ty : Parser TypeTree) : Parser TypeTree := do
  let ((member, placement), span) ← spanned do
    let member ← between .braceL .braceR ty
    let _ ← symbol .atSign
    return (member, ← ident)
  return .placed member placement false span

def plainType (n : Nat) (ty : Parser TypeTree) : Parser TypeTree := do
  let ((member, placement), span) ← spanned do
    let member ← sequenceType n ty
    let placement ← optional do
      let _ ← symbol .atSign
      ident
    return (member, placement)
  return match placement with
    | some p => .placed member p true span
    | none => member

def typeTree : (n : Nat) → Parser TypeTree
  | 0 => choice []
  | n + 1 => either (eachType (typeTree n)) (plainType n (typeTree n))

def literal : Parser (Span → Tree) := do
  let (make, _) ← accept fun
    | .int v => some (Tree.int v)
    | .float v => some (Tree.float v)
    | .symbol .kwTrue => some (Tree.bool true)
    | .symbol .kwFalse => some (Tree.bool false)
    | _ => none
  return make

def letIn (n : Nat) (expr : Parser Tree) : Parser (Span → Tree) := do
  let _ ← symbol .kwLet
  let bindings ← commaSeparated1 n do
    let x ← ident
    let _ ← symbol .equals
    return (x, ← expr)
  let _ ← symbol .kwIn
  return Tree.letIn bindings (← expr)

def intrinsic (ty : Parser TypeTree) : Parser (Span → Tree) := do
  let _ ← symbol .kwIntrinsic
  let (uri, _) ← accept fun
    | .text s => some s
    | _ => none
  let _ ← symbol .colon
  return Tree.intrinsic uri (← ty)

def lambda (ty : Parser TypeTree) (expr : Parser Tree) : Parser (Span → Tree) :=
  between .parenL .parenR do
    let param ← optional do
      let x ← ident
      let _ ← symbol .colon
      return (x, ← ty)
    let _ ← symbol .arrow
    return Tree.lambda param (← expr)

def parenthesized (expr : Parser Tree) : Parser (Span → Tree) := do
  let e ← between .parenL .parenR expr
  return fun span => e.withSpan span

def tuple (n : Nat) (expr : Parser Tree) : Parser (Span → Tree) := do
  return Tree.tuple (← between .less .greater (commaSeparated n expr))

def named (ty : Parser TypeTree) : Parser (Span → Tree) := do
  let x ← ident
  match ← optional (between .less .greater ty) with
  | some t => return Tree.builtin x t
  | none => return Tree.name x

def atom (n : Nat) (ty : Parser TypeTree) (expr : Parser Tree) : Parser Tree := do
  let (make, span) ← spanned (choice [literal, letIn n expr, intrinsic ty, lambda ty expr,
    parenthesized expr, tuple n expr, named ty])
  return make span

inductive Suffix where
  | call (arguments : List Tree)
  | select (index : Nat)

def suffix (n : Nat) (expr : Parser Tree) : Parser (Suffix × Span) :=
  spanned (choice [
    do return Suffix.call (← between .parenL .parenR (commaSeparated n expr)),
    do
      let (i, _) ← between .bracketL .bracketR (accept fun
        | .int v => if 0 ≤ v then some v.toNat else none
        | _ => none)
      return Suffix.select i])

def withSuffix (e : Tree) : Suffix × Span → Tree
  | (.call as, s) => .call e as ⟨e.span.start, s.stop⟩
  | (.select i, s) => .select e i ⟨e.span.start, s.stop⟩

def exprRule (n : Nat) (ty : Parser TypeTree) (expr : Parser Tree) : Parser Tree := do
  let first ← atom n ty expr
  let suffixes ← many (suffix n expr) n
  return suffixes.foldl withSuffix first

def tree : (n : Nat) → Parser Tree
  | 0 => choice []
  | n + 1 => exprRule n (typeTree n) (tree n)

def ending : Parser Unit := fun c =>
  match c.rest with
  | [] => ⟨some ((), c), none⟩
  | l :: rest => ⟨none, some (l :: rest).length⟩

end Parser

inductive SyntaxFault where
  | lexical (fault : LexFault)
  | unexpected (span : Span) (found : Option Token)

namespace SyntaxFault

def span : SyntaxFault → Span
  | .lexical f => f.span
  | .unexpected s _ => s

def message : SyntaxFault → String
  | .lexical f => f.message
  | .unexpected _ (some t) => "found '" ++ t.shown ++ "'"
  | .unexpected _ none => "found end of input"

end SyntaxFault

/-- The expression that a sequence of lexemes spells, or the place where reading it got stuck. Every
step into a part reads a lexeme first, so the number of lexemes bounds the depth. -/
def treeOf (lexemes : List Lexeme) : Except (Option Nat) Tree :=
  let parsed :=
    (do let e ← Parser.tree (lexemes.length + 1); let _ ← Parser.ending; return e : Parser Tree)
    ⟨lexemes, 0⟩
  match parsed.out with
  | some (e, _) => .ok e
  | none => .error parsed.stuck

/-- The lexeme with `left - 1` others behind it, or else the end of a text of `length` bytes. -/
def faultAt (lexemes : List Lexeme) (length : Nat) (left : Option Nat) : SyntaxFault :=
  match lexemes[lexemes.length - left.getD 0]? with
  | some l => .unexpected l.span (some l.token)
  | none => .unexpected ⟨length, length⟩ none

/-- Parts that are no token are left out for reading, but any of them makes the text faulty. -/
def parse (source : String) : Except (List SyntaxFault) Tree :=
  let lexed := lex source
  let lexical := lexed.faults.map SyntaxFault.lexical
  match treeOf lexed.lexemes with
  | .ok e => if lexical.isEmpty then .ok e else .error lexical
  | .error left => .error (lexical ++ [faultAt lexed.lexemes (byteLength source.toList) left])

end TwoTier.Source

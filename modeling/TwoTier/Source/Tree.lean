import TwoTier.Source.Span

/-! # Syntax trees

What a source text says, before names are resolved and types are known. Every node has the span of
the text it was read from.
-/

namespace TwoTier.Source

structure Ident where
  name : String
  span : Span
deriving DecidableEq, Repr

inductive TypeTree where
  | named (name : Ident) (span : Span)
  | tuple (elements : List TypeTree) (span : Span)
  | seq (element : TypeTree) (span : Span)
  | func (param result : TypeTree) (span : Span)
  | thunk (result : TypeTree) (span : Span)
  | placed (member : TypeTree) (placement : Ident) (allEqual : Bool) (span : Span)

def TypeTree.span : TypeTree → Span
  | .named _ s | .tuple _ s | .seq _ s | .func _ _ s | .thunk _ s | .placed _ _ _ s => s

inductive Tree where
  | int (value : Int) (span : Span)
  | float (value : Float) (span : Span)
  | bool (value : Bool) (span : Span)
  | name (name : Ident) (span : Span)
  | builtin (name : Ident) (operand : TypeTree) (span : Span)
  | tuple (elements : List Tree) (span : Span)
  | call (function : Tree) (arguments : List Tree) (span : Span)
  | select (source : Tree) (index : Nat) (span : Span)
  | lambda (param : Option (Ident × TypeTree)) (body : Tree) (span : Span)
  | letIn (bindings : List (Ident × Tree)) (body : Tree) (span : Span)
  | intrinsic (uri : String) (ty : TypeTree) (span : Span)

namespace Tree

def span : Tree → Span
  | .int _ s | .float _ s | .bool _ s | .name _ s | .builtin _ _ s | .tuple _ s | .call _ _ s
  | .select _ _ s | .lambda _ _ s | .letIn _ _ s | .intrinsic _ _ s => s

def withSpan (s : Span) : Tree → Tree
  | .int v _ => .int v s
  | .float v _ => .float v s
  | .bool v _ => .bool v s
  | .name x _ => .name x s
  | .builtin x t _ => .builtin x t s
  | .tuple es _ => .tuple es s
  | .call f as _ => .call f as s
  | .select e i _ => .select e i s
  | .lambda p e _ => .lambda p e s
  | .letIn bs e _ => .letIn bs e s
  | .intrinsic u t _ => .intrinsic u t s

end Tree

end TwoTier.Source

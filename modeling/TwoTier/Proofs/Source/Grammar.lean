import TwoTier.Source.Elaboration

/-! # The grammar

The grammar is context-free over tokens, and ambiguous in one respect: what follows a `let` may
belong to its body or to the `let` as a whole. A tree is spelled by lexemes according to a finer
grammar, in which only the first reading is left, and in which every node covers the lexemes that
spell it. Both grammars have the same words.

Both leave open which names stand for base types and for placements.
-/

namespace TwoTier.Source

open Token (symbol name)

inductive Nonterminal where
  | type
  /-- A base type with stars behind it. -/
  | sequence
  | base
  | types
  | expr
  | atom
  | exprs
  | bindings

/-- The names that may stand for base types and for placements. -/
structure Vocabulary where
  Base : String → Prop
  Place : String → Prop

namespace Vocabulary

def any : Vocabulary := ⟨fun _ => True, fun _ => True⟩

def known : Vocabulary :=
  ⟨fun x => (Scalar.ofName? x).isSome, fun p => (Placement.ofName? p).isSome⟩

end Vocabulary

/-- The words of the grammar. -/
inductive Derives (V : Vocabulary) : Nonterminal → List Token → Prop
  | each {ts p} : Derives V .type ts → V.Place p →
      Derives V .type (symbol .braceL :: ts ++ [symbol .braceR, symbol .atSign, name p])
  | plain {ts} : Derives V .sequence ts → Derives V .type ts
  | placed {ts p} :
      Derives V .sequence ts → V.Place p → Derives V .type (ts ++ [symbol .atSign, name p])
  | base {ts} : Derives V .base ts → Derives V .sequence ts
  | star {ts} : Derives V .sequence ts → Derives V .sequence (ts ++ [symbol .star])
  | namedType {x} : V.Base x → Derives V .base [name x]
  | unitType : Derives V .base [symbol .less, symbol .greater]
  | tupleType {ts} : Derives V .types ts → Derives V .base (symbol .less :: ts ++ [symbol .greater])
  | thunkType {ts} : Derives V .type ts →
      Derives V .base (symbol .parenL :: symbol .arrow :: ts ++ [symbol .parenR])
  | funcType {ts us} : Derives V .type ts → Derives V .type us →
      Derives V .base (symbol .parenL :: ts ++ symbol .arrow :: (us ++ [symbol .parenR]))
  | oneType {ts} : Derives V .type ts → Derives V .types ts
  | moreTypes {ts us} :
      Derives V .type ts → Derives V .types us → Derives V .types (ts ++ symbol .comma :: us)
  | atom {ts} : Derives V .atom ts → Derives V .expr ts
  | force {ts} : Derives V .expr ts → Derives V .expr (ts ++ [symbol .parenL, symbol .parenR])
  | call {ts us} : Derives V .expr ts → Derives V .exprs us →
      Derives V .expr (ts ++ symbol .parenL :: (us ++ [symbol .parenR]))
  | select {ts i} : Derives V .expr ts → 0 ≤ i →
      Derives V .expr (ts ++ [symbol .bracketL, .int i, symbol .bracketR])
  | int {v} : Derives V .atom [.int v]
  | float {v} : Derives V .atom [.float v]
  | true : Derives V .atom [symbol .kwTrue]
  | false : Derives V .atom [symbol .kwFalse]
  | name {x} : Derives V .atom [name x]
  | builtin {x ts} :
      Derives V .type ts → Derives V .atom (Token.name x :: symbol .less :: ts ++ [symbol .greater])
  | unit : Derives V .atom [symbol .less, symbol .greater]
  | tuple {ts} : Derives V .exprs ts → Derives V .atom (symbol .less :: ts ++ [symbol .greater])
  | delay {ts} : Derives V .expr ts →
      Derives V .atom (symbol .parenL :: symbol .arrow :: ts ++ [symbol .parenR])
  | lambda {x ts us} : Derives V .type ts → Derives V .expr us →
      Derives V .atom
        (symbol .parenL :: Token.name x :: symbol .colon :: ts ++ symbol .arrow ::
          (us ++ [symbol .parenR]))
  | paren {ts} : Derives V .expr ts → Derives V .atom (symbol .parenL :: ts ++ [symbol .parenR])
  | letIn {ts us} : Derives V .bindings ts → Derives V .expr us →
      Derives V .atom (symbol .kwLet :: ts ++ symbol .kwIn :: us)
  | intrinsic {uri ts} :
      Derives V .type ts → Derives V .atom (symbol .kwIntrinsic :: .text uri :: symbol .colon :: ts)
  | oneExpr {ts} : Derives V .expr ts → Derives V .exprs ts
  | moreExprs {ts us} :
      Derives V .expr ts → Derives V .exprs us → Derives V .exprs (ts ++ symbol .comma :: us)
  | oneBinding {x ts} :
      Derives V .expr ts → Derives V .bindings (Token.name x :: symbol .equals :: ts)
  | moreBindings {x ts us} : Derives V .expr ts → Derives V .bindings us →
      Derives V .bindings (Token.name x :: symbol .equals :: ts ++ symbol .comma :: us)

/-- From the first byte of the first lexeme to the last byte of the last one. -/
def cover : List Lexeme → Span
  | [] => ⟨0, 0⟩
  | l :: ls => ⟨l.span.start, (ls.getLastD l).span.stop⟩

inductive TypePhrase where
  | type (t : TypeTree)
  | sequence (t : TypeTree)
  | base (t : TypeTree)
  | types (ts : List TypeTree)

/-- The lexemes of a type. -/
inductive TypePhrase.Spelled (V : Vocabulary) : TypePhrase → List Lexeme → Prop
  | each {t ls p s₁ s₂ s₃ s whole} : (type t).Spelled V ls → V.Place p → whole =
      ⟨symbol .braceL, s₁⟩ :: ls ++ [⟨symbol .braceR, s₂⟩, ⟨symbol .atSign, s₃⟩, ⟨name p, s⟩] →
      (type (.placed t ⟨p, s⟩ false (cover whole))).Spelled V whole
  | plain {t ls} : (sequence t).Spelled V ls → (type t).Spelled V ls
  | placed {t ls p s₁ s whole} : (sequence t).Spelled V ls → V.Place p →
      whole = ls ++ [⟨symbol .atSign, s₁⟩, ⟨name p, s⟩] →
      (type (.placed t ⟨p, s⟩ true (cover whole))).Spelled V whole
  | base {t ls} : (base t).Spelled V ls → (sequence t).Spelled V ls
  | star {t ls s whole} : (sequence t).Spelled V ls → whole = ls ++ [⟨symbol .star, s⟩] →
      (sequence (.seq t (cover whole))).Spelled V whole
  | named {x s} : V.Base x → (base (.named ⟨x, s⟩ s)).Spelled V [⟨name x, s⟩]
  | tuple {ts ls s₁ s₂ whole} : (types ts).Spelled V ls →
      whole = ⟨symbol .less, s₁⟩ :: ls ++ [⟨symbol .greater, s₂⟩] →
      (base (.tuple ts (cover whole))).Spelled V whole
  | thunk {t ls s₁ s₂ s₃ whole} : (type t).Spelled V ls →
      whole = ⟨symbol .parenL, s₁⟩ :: ⟨symbol .arrow, s₂⟩ :: ls ++ [⟨symbol .parenR, s₃⟩] →
      (base (.thunk t (cover whole))).Spelled V whole
  | func {t u ls ms s₁ s₂ s₃ whole} : (type t).Spelled V ls → (type u).Spelled V ms →
      whole = ⟨symbol .parenL, s₁⟩ :: ls ++ ⟨symbol .arrow, s₂⟩ :: (ms ++ [⟨symbol .parenR, s₃⟩]) →
      (base (.func t u (cover whole))).Spelled V whole
  | none : (types []).Spelled V []
  | one {t ls} : (type t).Spelled V ls → (types [t]).Spelled V ls
  | more {t u ts ls ms s} : (type t).Spelled V ls → (types (u :: ts)).Spelled V ms →
      (types (t :: u :: ts)).Spelled V (ls ++ ⟨symbol .comma, s⟩ :: ms)

inductive Phrase where
  | expr (e : Tree)
  /-- An expression that does not end in the body of a `let`. -/
  | closed (e : Tree)
  | atom (e : Tree)
  | exprs (es : List Tree)
  | bindings (bs : List (Ident × Tree))

/-- The lexemes of an expression. A `let` extends as far as possible. -/
inductive Phrase.Spelled (V : Vocabulary) : Phrase → List Lexeme → Prop
  | closed {e ls} : (closed e).Spelled V ls → (expr e).Spelled V ls
  | letIn {bs e ls ms s₁ s₂ whole} : (bindings bs).Spelled V ls → (expr e).Spelled V ms →
      whole = ⟨symbol .kwLet, s₁⟩ :: ls ++ ⟨symbol .kwIn, s₂⟩ :: ms →
      (expr (.letIn bs e (cover whole))).Spelled V whole
  | atom {e ls} : (atom e).Spelled V ls → (closed e).Spelled V ls
  | call {f es ls ms s₁ s₂ whole} : (closed f).Spelled V ls → (exprs es).Spelled V ms →
      whole = ls ++ ⟨symbol .parenL, s₁⟩ :: (ms ++ [⟨symbol .parenR, s₂⟩]) →
      (closed (.call f es (cover whole))).Spelled V whole
  | select {e i ls s₁ s₂ s₃ whole} : (closed e).Spelled V ls → 0 ≤ i →
      whole = ls ++ [⟨symbol .bracketL, s₁⟩, ⟨.int i, s₂⟩, ⟨symbol .bracketR, s₃⟩] →
      (closed (.select e i.toNat (cover whole))).Spelled V whole
  | int {v s} : (atom (.int v s)).Spelled V [⟨.int v, s⟩]
  | float {v s} : (atom (.float v s)).Spelled V [⟨.float v, s⟩]
  | true {s} : (atom (.bool true s)).Spelled V [⟨symbol .kwTrue, s⟩]
  | false {s} : (atom (.bool false s)).Spelled V [⟨symbol .kwFalse, s⟩]
  | name {x s} : (atom (.name ⟨x, s⟩ s)).Spelled V [⟨name x, s⟩]
  | builtin {x t ls s s₁ s₂ whole} : (TypePhrase.type t).Spelled V ls →
      whole = ⟨Token.name x, s⟩ :: ⟨symbol .less, s₁⟩ :: ls ++ [⟨symbol .greater, s₂⟩] →
      (atom (.builtin ⟨x, s⟩ t (cover whole))).Spelled V whole
  | tuple {es ls s₁ s₂ whole} : (exprs es).Spelled V ls →
      whole = ⟨symbol .less, s₁⟩ :: ls ++ [⟨symbol .greater, s₂⟩] →
      (atom (.tuple es (cover whole))).Spelled V whole
  | delay {e ls s₁ s₂ s₃ whole} : (expr e).Spelled V ls →
      whole = ⟨symbol .parenL, s₁⟩ :: ⟨symbol .arrow, s₂⟩ :: ls ++ [⟨symbol .parenR, s₃⟩] →
      (atom (.lambda none e (cover whole))).Spelled V whole
  | lambda {x t e ls ms s s₁ s₂ s₃ s₄ whole} :
      (TypePhrase.type t).Spelled V ls → (expr e).Spelled V ms →
      whole = ⟨symbol .parenL, s₁⟩ :: ⟨Token.name x, s⟩ :: ⟨symbol .colon, s₂⟩ :: ls ++
        ⟨symbol .arrow, s₃⟩ :: (ms ++ [⟨symbol .parenR, s₄⟩]) →
      (atom (.lambda (some (⟨x, s⟩, t)) e (cover whole))).Spelled V whole
  | paren {e ls s₁ s₂ whole} : (expr e).Spelled V ls →
      whole = ⟨symbol .parenL, s₁⟩ :: ls ++ [⟨symbol .parenR, s₂⟩] →
      (atom (e.withSpan (cover whole))).Spelled V whole
  | intrinsic {uri t ls s₁ s₂ s₃ whole} : (TypePhrase.type t).Spelled V ls →
      whole = ⟨symbol .kwIntrinsic, s₁⟩ :: ⟨.text uri, s₂⟩ :: ⟨symbol .colon, s₃⟩ :: ls →
      (atom (.intrinsic uri t (cover whole))).Spelled V whole
  | none : (exprs []).Spelled V []
  | one {e ls} : (expr e).Spelled V ls → (exprs [e]).Spelled V ls
  | more {e f es ls ms s} : (expr e).Spelled V ls → (exprs (f :: es)).Spelled V ms →
      (exprs (e :: f :: es)).Spelled V (ls ++ ⟨symbol .comma, s⟩ :: ms)
  | oneBinding {x e ls s s₁} : (expr e).Spelled V ls →
      (bindings [(⟨x, s⟩, e)]).Spelled V (⟨Token.name x, s⟩ :: ⟨symbol .equals, s₁⟩ :: ls)
  | moreBindings {x e b bs ls ms s s₁ s₂} :
      (expr e).Spelled V ls → (bindings (b :: bs)).Spelled V ms →
      (bindings ((⟨x, s⟩, e) :: b :: bs)).Spelled V
        (⟨Token.name x, s⟩ :: ⟨symbol .equals, s₁⟩ :: ls ++ ⟨symbol .comma, s₂⟩ :: ms)

theorem tokens_cons {ls : List Lexeme} {t : Token} {ts : List Token} :
    ls.map Lexeme.token = t :: ts ↔ ∃ s ms, ls = ⟨t, s⟩ :: ms ∧ ms.map Lexeme.token = ts := by
  rw [List.map_eq_cons_iff]
  constructor
  · rintro ⟨l, ms, rfl, rfl, rfl⟩
    exact ⟨l.span, ms, rfl, rfl⟩
  · rintro ⟨s, ms, rfl, rfl⟩
    exact ⟨⟨t, s⟩, ms, rfl, rfl, rfl⟩

/-- What can follow all closed expressions can follow all expressions: it goes to the body of a
`let`. -/
theorem Phrase.Spelled.suffixed {V : Vocabulary} {e : Tree}
    {ls ms : List Lexeme} (h : (expr e).Spelled V ls)
    (hs : ∀ f ks, (Phrase.closed f).Spelled V ks → ∃ g, (Phrase.closed g).Spelled V (ks ++ ms)) :
    ∃ g, (expr g).Spelled V (ls ++ ms) := by
  generalize hφ : expr e = φ at h
  induction h generalizing e with
  | closed h =>
    obtain ⟨g, hg⟩ := hs _ _ h
    exact ⟨g, .closed hg⟩
  | letIn hbs _ hwhole _ ih =>
    obtain ⟨g, hg⟩ := ih rfl
    subst hwhole
    exact ⟨_, .letIn hbs hg (List.append_assoc _ _ _)⟩
  | _ => cases hφ

/-- Some tree is spelled as the nonterminal asks. An atom that is a `let` is spelled as an
expression only. -/
def Nonterminal.Spelled (V : Vocabulary) : Nonterminal → List Lexeme → Prop
  | .type, ls => ∃ t, (TypePhrase.type t).Spelled V ls
  | .sequence, ls => ∃ t, (TypePhrase.sequence t).Spelled V ls
  | .base, ls => ∃ t, (TypePhrase.base t).Spelled V ls
  | .types, ls => ∃ t ts, (TypePhrase.types (t :: ts)).Spelled V ls
  | .expr, ls | .atom, ls => ∃ e, (Phrase.expr e).Spelled V ls
  | .exprs, ls => ∃ e es, (Phrase.exprs (e :: es)).Spelled V ls
  | .bindings, ls => ∃ b bs, (Phrase.bindings (b :: bs)).Spelled V ls

/-- Every word of the grammar spells a tree. -/
theorem Derives.spelled {V : Vocabulary} {n : Nonterminal} {ls : List Lexeme}
    (h : Derives V n (ls.map Lexeme.token)) : n.Spelled V ls := by
  generalize hts : ls.map Lexeme.token = ts at h
  have closed {e : Tree} {ls : List Lexeme} (h : (Phrase.atom e).Spelled V ls) :
      ∃ e, (Phrase.expr e).Spelled V ls :=
    ⟨e, .closed (.atom h)⟩
  induction h generalizing ls <;> try simp only [List.cons_append, List.map_eq_append_iff,
    tokens_cons, List.map_eq_nil_iff] at hts
  case each hp ih =>
    obtain ⟨_, _, rfl, ls, _, rfl, hls, _, _, rfl, _, _, rfl, _, _, rfl, rfl⟩ := hts
    obtain ⟨t, ht⟩ := ih hls
    exact ⟨_, .each ht hp rfl⟩
  case plain ih =>
    obtain ⟨t, ht⟩ := ih hts
    exact ⟨t, .plain ht⟩
  case placed hp ih =>
    obtain ⟨ls, _, rfl, hls, _, _, rfl, _, _, rfl, rfl⟩ := hts
    obtain ⟨t, ht⟩ := ih hls
    exact ⟨_, .placed ht hp rfl⟩
  case base ih =>
    obtain ⟨t, ht⟩ := ih hts
    exact ⟨t, .base ht⟩
  case star ih =>
    obtain ⟨ls, _, rfl, hls, _, _, rfl, rfl⟩ := hts
    obtain ⟨t, ht⟩ := ih hls
    exact ⟨_, .star ht rfl⟩
  case namedType hx =>
    obtain ⟨_, _, rfl, rfl⟩ := hts
    exact ⟨_, .named hx⟩
  case unitType =>
    obtain ⟨_, _, rfl, _, _, rfl, rfl⟩ := hts
    exact ⟨_, .tuple .none rfl⟩
  case tupleType ih =>
    obtain ⟨_, _, rfl, ls, _, rfl, hls, _, _, rfl, rfl⟩ := hts
    obtain ⟨t, ts, ht⟩ := ih hls
    exact ⟨_, .tuple ht rfl⟩
  case thunkType ih =>
    obtain ⟨_, _, rfl, _, _, rfl, ls, _, rfl, hls, _, _, rfl, rfl⟩ := hts
    obtain ⟨t, ht⟩ := ih hls
    exact ⟨_, .thunk ht rfl⟩
  case funcType iht ihu =>
    obtain ⟨_, _, rfl, ls, _, rfl, hls, _, _, rfl, ms, _, rfl, hms, _, _, rfl, rfl⟩ := hts
    obtain ⟨t, ht⟩ := iht hls
    obtain ⟨u, hu⟩ := ihu hms
    exact ⟨_, .func ht hu rfl⟩
  case oneType ih =>
    obtain ⟨t, ht⟩ := ih hts
    exact ⟨t, [], .one ht⟩
  case moreTypes iht ihu =>
    obtain ⟨ls, _, rfl, hls, _, ms, rfl, hms⟩ := hts
    obtain ⟨t, ht⟩ := iht hls
    obtain ⟨u, us, hu⟩ := ihu hms
    exact ⟨t, u :: us, .more ht hu⟩
  case atom ih => exact ih hts
  case force ih =>
    obtain ⟨ls, _, rfl, hls, _, _, rfl, _, _, rfl, rfl⟩ := hts
    obtain ⟨e, he⟩ := ih hls
    exact he.suffixed fun f ks hf => ⟨_, .call hf .none rfl⟩
  case call ihf ihe =>
    obtain ⟨ls, _, rfl, hls, _, _, rfl, ms, _, rfl, hms, _, _, rfl, rfl⟩ := hts
    obtain ⟨f, hf⟩ := ihf hls
    obtain ⟨e, es, he⟩ := ihe hms
    exact hf.suffixed fun f ks hf => ⟨_, .call hf he rfl⟩
  case select hi ih =>
    obtain ⟨ls, _, rfl, hls, _, _, rfl, _, _, rfl, _, _, rfl, rfl⟩ := hts
    obtain ⟨e, he⟩ := ih hls
    exact he.suffixed fun f ks hf => ⟨_, .select hf hi rfl⟩
  case int =>
    obtain ⟨_, _, rfl, rfl⟩ := hts
    exact closed .int
  case float =>
    obtain ⟨_, _, rfl, rfl⟩ := hts
    exact closed .float
  case true =>
    obtain ⟨_, _, rfl, rfl⟩ := hts
    exact closed .true
  case false =>
    obtain ⟨_, _, rfl, rfl⟩ := hts
    exact closed .false
  case name =>
    obtain ⟨_, _, rfl, rfl⟩ := hts
    exact closed .name
  case builtin ih =>
    obtain ⟨_, _, rfl, _, _, rfl, ls, _, rfl, hls, _, _, rfl, rfl⟩ := hts
    obtain ⟨t, ht⟩ := ih hls
    exact closed (.builtin ht rfl)
  case unit =>
    obtain ⟨_, _, rfl, _, _, rfl, rfl⟩ := hts
    exact closed (.tuple .none rfl)
  case tuple ih =>
    obtain ⟨_, _, rfl, ls, _, rfl, hls, _, _, rfl, rfl⟩ := hts
    obtain ⟨e, es, he⟩ := ih hls
    exact closed (.tuple he rfl)
  case delay ih =>
    obtain ⟨_, _, rfl, _, _, rfl, ls, _, rfl, hls, _, _, rfl, rfl⟩ := hts
    obtain ⟨e, he⟩ := ih hls
    exact closed (.delay he rfl)
  case lambda iht ihe =>
    obtain ⟨_, _, rfl, _, _, rfl, _, _, rfl, ls, _, rfl, hls, _, _, rfl, ms, _, rfl, hms, _, _,
      rfl, rfl⟩ := hts
    obtain ⟨t, ht⟩ := iht hls
    obtain ⟨e, he⟩ := ihe hms
    exact closed (.lambda ht he rfl)
  case paren ih =>
    obtain ⟨_, _, rfl, ls, _, rfl, hls, _, _, rfl, rfl⟩ := hts
    obtain ⟨e, he⟩ := ih hls
    exact closed (.paren he rfl)
  case letIn ihb ihe =>
    obtain ⟨_, _, rfl, ls, _, rfl, hls, _, ms, rfl, hms⟩ := hts
    obtain ⟨b, bs, hb⟩ := ihb hls
    obtain ⟨e, he⟩ := ihe hms
    exact ⟨_, .letIn hb he rfl⟩
  case intrinsic ih =>
    obtain ⟨_, _, rfl, _, _, rfl, _, ls, rfl, hls⟩ := hts
    obtain ⟨t, ht⟩ := ih hls
    exact closed (.intrinsic ht rfl)
  case oneExpr ih =>
    obtain ⟨e, he⟩ := ih hts
    exact ⟨e, [], .one he⟩
  case moreExprs ihe ihf =>
    obtain ⟨ls, _, rfl, hls, _, ms, rfl, hms⟩ := hts
    obtain ⟨e, he⟩ := ihe hls
    obtain ⟨f, fs, hf⟩ := ihf hms
    exact ⟨e, f :: fs, .more he hf⟩
  case oneBinding ih =>
    obtain ⟨_, _, rfl, _, ls, rfl, hls⟩ := hts
    obtain ⟨e, he⟩ := ih hls
    exact ⟨_, [], .oneBinding he⟩
  case moreBindings ihe ihb =>
    obtain ⟨_, _, rfl, _, _, rfl, ls, _, rfl, hls, _, ms, rfl, hms⟩ := hts
    obtain ⟨e, he⟩ := ihe hls
    obtain ⟨b, bs, hb⟩ := ihb hms
    exact ⟨_, b :: bs, .moreBindings he hb⟩

end TwoTier.Source

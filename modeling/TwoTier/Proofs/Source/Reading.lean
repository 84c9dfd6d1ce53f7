import TwoTier.Proofs.Outcome
import TwoTier.Proofs.Source.Acceptance

/-! # Reading back what is spelled

Whatever lexemes spell a tree, the parser reads that tree off them and stops right behind, unless
what follows would go on with the tree. Together with what the parser accepts this makes it exact.
-/

namespace TwoTier.Source

variable {V : Vocabulary} {ls ms rest : List Lexeme}

theorem cover_concat {l : Lexeme} (ms : List Lexeme) (h : ls ≠ []) :
    cover (ls ++ (ms ++ [l])) = ⟨(cover ls).start, l.span.stop⟩ := by
  cases ls with
  | nil => exact absurd rfl h
  | cons m ls => simp [cover]

theorem cover_stop (h : ls ≠ []) (stop : Nat) :
    ls.foldl (fun _ l => l.span.stop) stop = (cover ls).stop := by
  induction ls generalizing stop with
  | nil => exact absurd rfl h
  | cons l ls ih =>
    cases ls with
    | nil => rfl
    | cons m ls =>
      rw [List.foldl_cons, ih (by simp)]
      simp only [cover, List.getLastD_cons]

/-- A tree has the span of the lexemes that spell it. -/
def TypePhrase.Covers : TypePhrase → List Lexeme → Prop
  | .type t, ls | .sequence t, ls | .base t, ls => ls ≠ [] ∧ t.span = cover ls
  | .types _, _ => True

theorem TypePhrase.Spelled.covers {φ : TypePhrase} (h : φ.Spelled V ls) : φ.Covers ls := by
  induction h with
  | plain _ ih | base _ ih => exact ih
  | named => exact ⟨by simp, rfl⟩
  | none | one | more => trivial
  | each _ _ hwhole | placed _ _ hwhole | star _ hwhole | tuple _ hwhole | thunk _ hwhole
      | func _ _ hwhole =>
    exact ⟨by simp [hwhole], rfl⟩

theorem Tree.span_withSpan (e : Tree) (s : Span) : (e.withSpan s).span = s := by
  cases e <;> rfl

def Phrase.Covers : Phrase → List Lexeme → Prop
  | .expr e, ls | .closed e, ls | .atom e, ls => ls ≠ [] ∧ e.span = cover ls
  | .exprs _, _ | .bindings _, _ => True

theorem Phrase.Spelled.covers {φ : Phrase} (h : φ.Spelled V ls) : φ.Covers ls := by
  induction h with
  | closed _ ih | atom _ ih => exact ih
  | int | float | true | false | name => exact ⟨by simp, rfl⟩
  | none | one | more | oneBinding | moreBindings => trivial
  | paren _ hwhole => exact ⟨by simp [hwhole], Tree.span_withSpan _ _⟩
  | letIn _ _ hwhole | call _ _ hwhole | select _ _ hwhole | builtin _ hwhole | tuple _ hwhole
      | delay _ hwhole
  | lambda _ _ hwhole | intrinsic _ hwhole => exact ⟨by simp [hwhole], rfl⟩

/-- The next lexeme is none of the signs. -/
def Avoids (signs : List Symbol) (ls : List Lexeme) : Prop :=
  ∀ l ∈ ls.head?, ∀ s ∈ signs, l.token ≠ .symbol s

@[simp] theorem avoids_nil {signs : List Symbol} : Avoids signs [] := by
  simp [Avoids]

@[simp] theorem avoids_cons {signs : List Symbol} {l : Lexeme} :
    Avoids signs (l :: ls) ↔ ∀ s ∈ signs, l.token ≠ .symbol s := by
  simp [Avoids]

theorem Avoids.mono {signs signs' : List Symbol} (h : Avoids signs ls) (hs : signs' ⊆ signs) :
    Avoids signs' ls :=
  fun l hl s hs' => h l hl s (hs hs')

theorem avoids_append {signs : List Symbol} (h : Avoids signs ls) (h' : Avoids signs ms) :
    Avoids signs (ls ++ ms) := by
  cases ls with
  | nil => exact h'
  | cons l ls => simpa using h

namespace Parser

variable {α β : Type} {p q : Parser α} {f : α → Parser β} {a : α} {b : β} {as : List α} {n : Nat}

/-- The parser reads `a` off the lexemes `ls` in front of `rest`. -/
def Reads (p : Parser α) (a : α) (ls rest : List Lexeme) : Prop :=
  ∀ stop, (p ⟨ls ++ rest, stop⟩).out = some (a, ⟨rest, ls.foldl (fun _ l => l.span.stop) stop⟩)

def Fails (p : Parser α) (rest : List Lexeme) : Prop :=
  ∀ stop, (p ⟨rest, stop⟩).out = none

theorem reads_pure : Reads (pure a) a [] rest :=
  fun _ => rfl

theorem Reads.bind {r : List Lexeme} (hp : Reads p a ls (r ++ rest)) (hf : Reads (f a) b r rest) :
    Reads (p >>= f) b (ls ++ r) rest := by
  intro stop
  rw [bind_out, List.append_assoc, List.foldl_append]
  exact ⟨a, _, hp stop, hf _⟩

theorem Reads.map (hp : Reads p a ls rest) (hf : f a = pure b) : Reads (p >>= f) b ls rest := by
  have h : Reads (p >>= f) b (ls ++ []) rest := hp.bind (hf ▸ reads_pure)
  rwa [List.append_nil] at h

theorem Fails.bind (hp : Fails p rest) : Fails (p >>= f) rest := by
  intro stop
  rw [Option.eq_none_iff_forall_ne_some]
  rintro ⟨b, c⟩ h
  obtain ⟨a, c₁, ha, -⟩ := bind_out.mp h
  rw [hp stop] at ha
  cases ha

theorem Reads.fails (hp : Reads p a ls rest) (hf : Fails (f a) rest) :
    Fails (p >>= f) (ls ++ rest) := by
  intro stop
  rw [Option.eq_none_iff_forall_ne_some]
  rintro ⟨b, c⟩ h
  obtain ⟨a, c₁, ha, hb⟩ := bind_out.mp h
  rw [hp stop] at ha
  cases ha
  rw [hf] at hb
  cases hb

theorem reads_accept {test : Token → Option α} {t : Token} {s : Span} (h : test t = some a) :
    Reads (accept test) (a, s) [⟨t, s⟩] rest := by
  intro stop
  simp [accept, h]

theorem reads_symbol {t : Symbol} {s : Span} : Reads (symbol t) s [⟨.symbol t, s⟩] rest :=
  (reads_accept (a := ()) (by simp)).map rfl

theorem fails_symbol {t : Symbol} (h : Avoids [t] rest) : Fails (symbol t) rest := by
  refine Fails.bind fun stop => ?_
  cases rest with
  | nil => rfl
  | cons l rest =>
    obtain ⟨token, span⟩ := l
    simp only [avoids_cons, List.mem_singleton, forall_eq] at h
    cases token with
    | symbol s =>
      have hs : s ≠ t := fun hs => h (by rw [hs])
      simp [accept, hs]
    | _ => rfl

theorem reads_ident {x : String} {s : Span} : Reads ident ⟨x, s⟩ [⟨.name x, s⟩] rest :=
  (reads_accept (a := x) rfl).map rfl

theorem Reads.between {o e : Symbol} {s t : Span} (hp : Reads p a ls (⟨.symbol e, t⟩ :: rest)) :
    Reads (Parser.between o e p) a (⟨.symbol o, s⟩ :: (ls ++ [⟨.symbol e, t⟩])) rest := by
  have hp' : Reads p a ls ([⟨.symbol e, t⟩] ++ rest) := hp
  have h : Reads (Parser.between o e p) a ([⟨.symbol o, s⟩] ++ (ls ++ [⟨.symbol e, t⟩])) rest :=
    reads_symbol.bind (hp'.bind (reads_symbol.map rfl))
  exact h

theorem Fails.between {o e : Symbol} {s : Span} (hp : Fails p rest) :
    Fails (Parser.between o e p) (⟨.symbol o, s⟩ :: rest) :=
  reads_symbol.fails hp.bind

theorem Reads.spanned (hp : Reads p a ls rest) (h : ls ≠ []) :
    Reads (spanned p) (a, cover ls) ls rest := by
  intro stop
  cases ls with
  | nil => exact absurd rfl h
  | cons l ls =>
    have hout := hp stop
    rw [cover_stop h stop, List.cons_append] at hout
    rw [cover_stop h stop]
    simp only [Parser.spanned, List.cons_append, hout]
    rfl

theorem Fails.spanned (hp : Fails p rest) : Fails (spanned p) rest := by
  intro stop
  simp [Parser.spanned, hp stop]

theorem Reads.left (hp : Reads p a ls rest) : Reads (either p q) a ls rest := by
  intro stop
  simp [either, hp stop]

theorem Reads.right (hq : Reads q a ls rest) (hp : Fails p (ls ++ rest)) :
    Reads (either p q) a ls rest := by
  intro stop
  simp [either, hp stop, hq stop]

theorem Fails.either (hp : Fails p rest) (hq : Fails q rest) : Fails (either p q) rest := by
  intro stop
  simp [Parser.either, hp stop, hq stop]

theorem Reads.optional (hp : Reads p a ls rest) : Reads (optional p) (some a) ls rest :=
  (hp.map (f := fun a => done (some a)) rfl).left

theorem Fails.optional (hp : Fails p rest) : Reads (optional p) none [] rest :=
  reads_pure.right hp.bind

theorem Fails.many (hp : Fails p rest) : Reads (many p n) [] [] rest := by
  cases n with
  | zero => exact reads_pure
  | succ n => exact hp.optional.bind (r := []) reads_pure

theorem Reads.many_cons {r : List Lexeme} (hp : Reads p a ls (r ++ rest))
    (h : Reads (many p n) as r rest) :
    Reads (many p (n + 1)) (a :: as) (ls ++ r) rest :=
  hp.optional.bind (h.map rfl)

/-- Parts with commas between them. -/
inductive Listed (P : α → List Lexeme → Prop) : List α → List Lexeme → Prop
  | nil : Listed P [] []
  | one {a : α} {ls : List Lexeme} : P a ls → Listed P [a] ls
  | more {a b : α} {as : List α} {ls ms : List Lexeme} {s : Span} : P a ls → Listed P (b :: as) ms →
      Listed P (a :: b :: as) (ls ++ ⟨.symbol .comma, s⟩ :: ms)

section Listed

variable {P : α → List Lexeme → Prop} {signs : List Symbol} {m : Nat}
  (hp : ∀ a ls rest, P a ls → ls.length < m → Avoids signs rest → Reads p a ls rest)
  (hsigns : .comma ∉ signs)
include hp hsigns

theorem Listed.reads_many {s : Span} (h : Listed P as ls) (has : as ≠ []) (hm : ls.length < m)
    (hn : ls.length < n) (hrest : Avoids (.comma :: signs) rest) :
    Reads (many (do let _ ← symbol .comma; p) n) as (⟨.symbol .comma, s⟩ :: ls) rest := by
  have hfails : Fails (do let _ ← symbol .comma; p) rest :=
    (fails_symbol (hrest.mono (by simp))).bind
  induction h generalizing n s with
  | nil => exact absurd rfl has
  | @one a ls ha =>
    obtain ⟨n, rfl⟩ := Nat.exists_eq_add_of_lt hn
    have hread : Reads (do let _ ← symbol .comma; p) a ([⟨.symbol .comma, s⟩] ++ ls) ([] ++ rest) :=
      reads_symbol.bind (hp a ls rest ha hm (hrest.mono (by simp)))
    have h := hread.many_cons (n := ls.length + n) hfails.many
    rwa [List.append_nil] at h
  | @more a b as ls ms t ha _ ih =>
    simp only [List.length_append, List.length_cons] at hm hn
    obtain ⟨n, rfl⟩ : ∃ k, n = k + 1 := ⟨n - 1, by omega⟩
    have hcomma : Avoids signs (⟨.symbol .comma, t⟩ :: ms ++ rest) := by
      simp only [List.cons_append, avoids_cons, ne_eq, Token.symbol.injEq]
      rintro s hs rfl
      exact hsigns hs
    have hread : Reads (do let _ ← symbol .comma; p) a ([⟨.symbol .comma, s⟩] ++ ls)
        (⟨.symbol .comma, t⟩ :: ms ++ rest) :=
      reads_symbol.bind (hp a ls _ ha (by omega) hcomma)
    exact hread.many_cons (ih (by simp) (by omega) (by omega))

theorem Listed.reads (h : Listed P as ls) (has : as ≠ []) (hm : ls.length < m) (hn : ls.length ≤ n)
    (hrest : Avoids (.comma :: signs) rest) : Reads (commaSeparated1 n p) as ls rest := by
  cases h with
  | nil => exact absurd rfl has
  | @one a ls ha =>
    have hfails : Fails (do let _ ← symbol .comma; p) rest :=
      (fails_symbol (hrest.mono (by simp))).bind
    have h : Reads (commaSeparated1 n p) [a] (ls ++ []) rest :=
      (hp a ls rest ha hm (hrest.mono (by simp))).bind (hfails.many.map rfl)
    rwa [List.append_nil] at h
  | @more a b as ls ms t ha hms =>
    simp only [List.length_append, List.length_cons] at hm hn
    have hcomma : Avoids signs (⟨.symbol .comma, t⟩ :: ms ++ rest) := by
      simp only [List.cons_append, avoids_cons, ne_eq, Token.symbol.injEq]
      rintro s hs rfl
      exact hsigns hs
    exact (hp a ls _ ha (by omega) hcomma).bind
      ((hms.reads_many hp hsigns (by simp) (by omega) (by omega) hrest).map rfl)

theorem Listed.reads_all (h : Listed P as ls) (hm : ls.length < m) (hn : ls.length ≤ n)
    (hrest : Avoids (.comma :: signs) rest) (hfails : Fails p rest) :
    Reads (commaSeparated n p) as ls rest := by
  cases as with
  | nil =>
    cases h
    exact hfails.bind.optional.bind (r := []) reads_pure
  | cons a as =>
    have h' : Reads (commaSeparated n p) (a :: as) (ls ++ []) rest :=
      (h.reads hp hsigns (by simp) hm hn hrest).optional.bind reads_pure
    rwa [List.append_nil] at h'

end Listed

theorem Reads.choice {ps : List (Parser α)} (h : Reads p a ls rest) :
    Reads (choice (p :: ps)) a ls rest := by
  cases ps with
  | nil => exact h
  | cons q ps => exact h.left

theorem Reads.choice_cons {ps : List (Parser α)} (h : Reads (Parser.choice (q :: ps)) a ls rest)
    (hp : Fails p (ls ++ rest)) : Reads (Parser.choice (p :: q :: ps)) a ls rest :=
  h.right hp

def ReadsType (t : TypeTree) (ls : List Lexeme) : Prop :=
  ∀ n rest, ls.length < n → Avoids [.star, .atSign] rest → Reads (typeTree n) t ls rest

structure ReadsBase (t : TypeTree) (ls : List Lexeme) : Prop where
  avoids : ∀ rest, Avoids [.braceL] (ls ++ rest)
  reads : ∀ n rest, ls.length ≤ n → Reads (baseType n (typeTree n)) t ls rest

def ReadsTypePhrase : TypePhrase → List Lexeme → Prop
  | .type t, ls => ReadsType t ls
  | .sequence t, ls => ∃ u ks, ∃ stars : List Span, ls = ks ++ stars.map (⟨.symbol .star, ·⟩) ∧
      t = stars.foldl (fun t star => .seq t ⟨t.span.start, star.stop⟩) u ∧ ReadsBase u ks
  | .base t, ls => ReadsBase t ls
  | .types ts, ls => Listed ReadsType ts ls

theorem reads_stars {stars : List Span} (h : stars.length ≤ n) (hrest : Avoids [.star] rest) :
    Reads (many (symbol .star) n) stars (stars.map (⟨.symbol .star, ·⟩)) rest := by
  induction stars generalizing n with
  | nil => exact (fails_symbol hrest).many
  | cons s stars ih =>
    obtain ⟨n, rfl⟩ : ∃ k, n = k + 1 := ⟨n - 1, by simp at h; omega⟩
    exact reads_symbol.many_cons (r := stars.map _) (ih (by simpa using h))

theorem reads_sequence {t : TypeTree} (h : ReadsTypePhrase (.sequence t) ls) (hn : ls.length ≤ n)
    (hrest : Avoids [.star] rest) : Reads (sequenceType n (typeTree n)) t ls rest := by
  obtain ⟨u, ks, stars, rfl, rfl, hu⟩ := h
  simp only [List.length_append, List.length_map] at hn
  exact (hu.reads n _ (by omega)).bind ((reads_stars (by omega) hrest).map rfl)

theorem fails_typeTree {t : Symbol} {s : Span} (h : t ∈ [Symbol.greater, .arrow]) :
    Fails (typeTree n) (⟨.symbol t, s⟩ :: rest) := by
  simp only [List.mem_cons, List.not_mem_nil, or_false] at h
  obtain rfl | rfl := h
  · cases n <;> exact fun _ => rfl
  · cases n <;> exact fun _ => rfl

theorem reads_typePhrase {φ : TypePhrase} (h : φ.Spelled V ls) : ReadsTypePhrase φ ls := by
  have eachFails {n rest} (h : Avoids [.braceL] rest) : Fails (eachType (typeTree n)) rest :=
    (fails_symbol h).bind.bind.spanned.bind
  induction h with
  | @each t ls p s₁ s₂ s₃ s whole _ _ hwhole ih =>
    obtain rfl : whole = (⟨.symbol .braceL, s₁⟩ :: (ls ++ [⟨.symbol .braceR, s₂⟩])) ++
      ([⟨.symbol .atSign, s₃⟩] ++ [⟨.name p, s⟩]) := by simp [hwhole]
    intro n rest hn hrest
    obtain ⟨n, rfl⟩ : ∃ k, n = k + 1 := ⟨n - 1, by omega⟩
    simp at hn
    refine Reads.left (Reads.map (a := ((t, ⟨p, s⟩), cover _)) (Reads.spanned ?_ (by simp)) rfl)
    exact (ih n _ (by omega) (by simp)).between.bind (reads_symbol.bind (reads_ident.map rfl))
  | @plain t ls ht ih =>
    intro n rest hn hrest
    obtain ⟨n, rfl⟩ : ∃ k, n = k + 1 := ⟨n - 1, by omega⟩
    have havoids : Avoids [.braceL] (ls ++ rest) := by
      obtain ⟨u, ks, stars, rfl, -, hu⟩ := ih
      rw [List.append_assoc]
      exact hu.avoids _
    have hplace : Fails (do let _ ← symbol .atSign; ident) rest :=
      (fails_symbol (hrest.mono (by simp))).bind
    refine Reads.right (Reads.map (a := ((t, none), cover _)) (Reads.spanned ?_ ht.covers.1) rfl)
      (eachFails havoids)
    rw [← List.append_nil ls]
    exact (reads_sequence ih (by omega) (hrest.mono (by simp))).bind (hplace.optional.map rfl)
  | @placed t ls p s₁ s whole ht _ hwhole ih =>
    obtain rfl : whole = ls ++ ([⟨.symbol .atSign, s₁⟩] ++ [⟨.name p, s⟩]) := by simp [hwhole]
    intro n rest hn hrest
    obtain ⟨n, rfl⟩ : ∃ k, n = k + 1 := ⟨n - 1, by omega⟩
    simp at hn
    have havoids :
        Avoids [.braceL] (ls ++ ([⟨.symbol .atSign, s₁⟩] ++ [⟨.name p, s⟩]) ++ rest) := by
      obtain ⟨u, ks, stars, rfl, -, hu⟩ := ih
      rw [List.append_assoc, List.append_assoc]
      exact hu.avoids _
    refine Reads.right
      (Reads.map (a := ((t, some ⟨p, s⟩), cover _)) (Reads.spanned ?_ (by simp)) rfl)
      (eachFails havoids)
    exact (reads_sequence ih (by omega) (by simp)).bind
      ((reads_symbol.bind reads_ident).optional.map rfl)
  | base _ ih => exact ⟨_, _, [], by simp, rfl, ih⟩
  | @star t ls s whole ht hwhole ih =>
    have hspan : cover whole = ⟨t.span.start, s.stop⟩ := by
      obtain ⟨hne, hcover⟩ := ht.covers
      rw [hwhole, hcover]
      exact cover_concat [] hne
    obtain ⟨u, ks, stars, rfl, rfl, hu⟩ := ih
    refine ⟨u, ks, stars ++ [s], by simp [hwhole], ?_, hu⟩
    rw [List.foldl_append, hspan]
    rfl
  | @named x s =>
    constructor
    · simp
    · intro n rest hn
      exact Reads.map (a := (TypeTree.named ⟨x, s⟩, s))
        (Reads.spanned (Reads.choice (Reads.map reads_ident rfl)) (by simp)) rfl
  | @tuple ts ls s₁ s₂ whole _ hwhole ih =>
    obtain rfl : whole = ⟨.symbol .less, s₁⟩ :: (ls ++ [⟨.symbol .greater, s₂⟩]) := by simp [hwhole]
    constructor
    · simp
    · intro n rest hn
      simp at hn
      refine Reads.map (a := (TypeTree.tuple ts, cover _)) (Reads.spanned
        (Reads.choice_cons (Reads.choice (Reads.map (Reads.between ?_) rfl)) ?_) (by simp)) rfl
      · exact ih.reads_all (fun t ls rest h hls => h n rest hls) (by decide) (by omega) (by omega)
          (by simp) (fails_typeTree (by decide))
      · exact fun _ => rfl
  | @thunk t ls s₁ s₂ s₃ whole _ hwhole ih =>
    obtain rfl : whole = ⟨.symbol .parenL, s₁⟩ ::
      (([] ++ ([⟨.symbol .arrow, s₂⟩] ++ ls)) ++ [⟨.symbol .parenR, s₃⟩]) := by simp [hwhole]
    constructor
    · simp
    · intro n rest hn
      simp at hn
      refine Reads.map (a := (TypeTree.thunk t, cover _)) (Reads.spanned (Reads.choice_cons
        (Reads.choice_cons (Reads.choice (Reads.between ?_)) ?_) ?_) (by simp)) rfl
      · exact (fails_typeTree (by decide)).optional.bind
          (reads_symbol.bind ((ih n _ (by omega) (by simp)).map rfl))
      · exact fun _ => rfl
      · exact fun _ => rfl
  | @func t u ls ms s₁ s₂ s₃ whole _ _ hwhole iht ihu =>
    obtain rfl : whole = ⟨.symbol .parenL, s₁⟩ ::
        ((ls ++ ([⟨.symbol .arrow, s₂⟩] ++ ms)) ++ [⟨.symbol .parenR, s₃⟩]) := by
      simp [hwhole]
    constructor
    · simp
    · intro n rest hn
      simp at hn
      refine Reads.map (a := (TypeTree.func t u, cover _)) (Reads.spanned (Reads.choice_cons
        (Reads.choice_cons (Reads.choice (Reads.between ?_)) ?_) ?_) (by simp)) rfl
      · exact (iht n _ (by omega) (by simp)).optional.bind
          (reads_symbol.bind ((ihu n _ (by omega) (by simp)).map rfl))
      · exact fun _ => rfl
      · exact fun _ => rfl
  | none => exact .nil
  | one _ ih => exact .one ih
  | more _ _ iht ihu => exact .more iht ihu

/-- An expression starts with no arrow, and not with a name and a colon. -/
def Opens (ls : List Lexeme) : Prop :=
  ∃ l ks, ls = l :: ks ∧ l.token ≠ .symbol .arrow ∧ ((∃ x, l.token = .name x) → Avoids [.colon] ks)

theorem Opens.append {r : List Lexeme} (h : Opens ls) (hr : Avoids [.colon] r) :
    Opens (ls ++ r) := by
  obtain ⟨l, ks, rfl, harrow, hks⟩ := h
  exact ⟨l, ks ++ r, rfl, harrow, fun hname => avoids_append (hks hname) hr⟩

def Opening : Phrase → List Lexeme → Prop
  | .expr _, ls | .closed _, ls | .atom _, ls => Opens ls
  | .exprs _, _ | .bindings _, _ => True

theorem opens_phrase {φ : Phrase} (h : φ.Spelled V ls) : Opening φ ls := by
  induction h with
  | closed _ ih | atom _ ih => exact ih
  | call _ _ hwhole ih | select _ _ hwhole ih =>
    subst hwhole
    exact ih.append (by simp)
  | none | one | more | oneBinding | moreBindings => trivial
  | int | float | true | false | name => exact ⟨_, _, rfl, by simp, by simp⟩
  | letIn _ _ hwhole | builtin _ hwhole | tuple _ hwhole | delay _ hwhole | lambda _ _ hwhole
      | paren _ hwhole
  | intrinsic _ hwhole => exact ⟨_, _, hwhole, by simp, by simp⟩

theorem fails_lambda {ty : Parser TypeTree} {expr : Parser Tree} {s t : Span} (h : Opens ls) :
    Fails (lambda ty expr) (⟨.symbol .parenL, s⟩ :: (ls ++ [⟨.symbol .parenR, t⟩]) ++ rest) := by
  obtain ⟨⟨token, span⟩, ks, hks, harrow, hcolon⟩ :=
    h.append (r := ⟨.symbol .parenR, t⟩ :: rest) (by simp)
  have hparam :
      Fails (do let x ← ident; let _ ← symbol .colon; return (x, ← ty)) (⟨token, span⟩ :: ks) := by
    cases token with
    | name x => exact reads_ident.fails (fails_symbol (hcolon ⟨x, rfl⟩)).bind
    | _ => exact Fails.bind fun _ => rfl
  have hlist : ⟨.symbol .parenL, s⟩ :: (ls ++ [⟨.symbol .parenR, t⟩]) ++ rest =
      ⟨.symbol .parenL, s⟩ :: ([] ++ ⟨token, span⟩ :: ks) := by simp [← hks]
  rw [hlist]
  exact (hparam.optional.fails (fails_symbol (by simpa using harrow)).bind).between

def exprSigns : List Symbol :=
  [.parenL, .bracketL, .less, .star, .atSign]

def ReadsExpr (e : Tree) (ls : List Lexeme) : Prop :=
  ∀ n rest, ls.length < n → Avoids exprSigns rest → Reads (tree n) e ls rest

def ReadsAtom (e : Tree) (ls : List Lexeme) : Prop :=
  ∀ n rest, ls.length ≤ n → Avoids [.less, .star, .atSign] rest →
    Reads (atom n (typeTree n) (tree n)) e ls rest

structure ReadsSuffix (s : Suffix × Span) (ls : List Lexeme) : Prop where
  ne_nil : ls ≠ []
  avoids : ∀ rest, Avoids [.less, .star, .atSign] (ls ++ rest)
  reads : ∀ n rest, ls.length ≤ n → Reads (suffix n (tree n)) s ls rest

def ReadsPhrase : Phrase → List Lexeme → Prop
  | .expr e, ls => ReadsExpr e ls
  | .closed e, ls =>
    ∃ a ks ss segs, ls = ks ++ List.flatten segs ∧ e = ss.foldl withSuffix a ∧ ReadsAtom a ks ∧
      List.Forall₂ ReadsSuffix ss segs
  | .atom e, ls => ReadsAtom e ls
  | .exprs es, ls => Listed ReadsExpr es ls
  | .bindings bs, ls =>
    Listed (fun b ls => ∃ s ks, ls = ⟨.name b.1.name, b.1.span⟩ :: ⟨.symbol .equals, s⟩ :: ks ∧
      ReadsExpr b.2 ks) bs ls

theorem fails_tree {t : Symbol} {s : Span} (h : t ∈ [Symbol.greater, .parenR]) :
    Fails (tree n) (⟨.symbol t, s⟩ :: rest) := by
  simp only [List.mem_cons, List.not_mem_nil, or_false] at h
  obtain rfl | rfl := h
  · cases n <;> exact fun _ => rfl
  · cases n <;> exact fun _ => rfl

theorem fails_suffix (h : Avoids [.parenL, .bracketL] rest) : Fails (suffix n (tree n)) rest :=
  Fails.spanned (Fails.either (fails_symbol (h.mono (by simp))).bind.bind
    (fails_symbol (h.mono (by simp))).bind.bind)

theorem reads_suffixes {m : Nat} {ss : List (Suffix × Span)} {segs : List (List Lexeme)}
    (h : List.Forall₂ ReadsSuffix ss segs) (hm : segs.flatten.length ≤ m)
    (hn : segs.flatten.length ≤ n) (hrest : Avoids [.parenL, .bracketL] rest) :
    Reads (many (suffix m (tree m)) n) ss segs.flatten rest := by
  induction h generalizing n with
  | nil => exact (fails_suffix hrest).many
  | @cons s seg ss segs hs _ ih =>
    simp only [List.flatten_cons, List.length_append] at hm hn
    have hpos : 0 < seg.length := List.length_pos_of_ne_nil hs.ne_nil
    obtain ⟨n, rfl⟩ : ∃ k, n = k + 1 := ⟨n - 1, by omega⟩
    exact (hs.reads m _ (by omega)).many_cons (ih (by omega) (by omega))

theorem reads_exprs {es : List Tree} {t : Symbol} {s : Span} (h : Listed ReadsExpr es ls)
    (hn : ls.length < n) (ht : t ∈ [Symbol.greater, .parenR]) :
    Reads (commaSeparated n (tree n)) es ls (⟨.symbol t, s⟩ :: rest) := by
  have havoids : Avoids (.comma :: exprSigns) (⟨.symbol t, s⟩ :: rest) := by
    simp only [List.mem_cons, List.not_mem_nil, or_false] at ht
    obtain rfl | rfl := ht <;> simp [exprSigns]
  exact h.reads_all (fun e ls rest h hls => h n rest hls) (by decide) hn (by omega) havoids
    (fails_tree ht)

theorem reads_bindings {bs : List (Ident × Tree)} {s : Span} (h : ReadsPhrase (.bindings bs) ls)
    (hbs : bs ≠ []) (hn : ls.length < n) : Reads (commaSeparated1 n do
      let x ← ident
      let _ ← symbol .equals
      return (x, ← tree n)) bs ls (⟨.symbol .kwIn, s⟩ :: rest) := by
  have havoids : Avoids (.comma :: exprSigns) (⟨.symbol .kwIn, s⟩ :: rest) := by simp [exprSigns]
  refine Listed.reads (m := n) ?_ (by decide) h hbs hn (by omega) havoids
  rintro ⟨x, e⟩ _ rest ⟨s, ks, rfl, he⟩ hks hrest
  simp only [List.length_cons] at hks
  exact reads_ident.bind (r := ⟨.symbol .equals, s⟩ :: ks)
    (reads_symbol.bind (r := ks) ((he n rest (by omega) hrest).map rfl))

theorem reads_atom (make : Span → Tree) (h : ls ≠ []) (hread : Reads (Parser.choice
      [literal, letIn n (tree n), intrinsic (typeTree n), lambda (typeTree n) (tree n),
      parenthesized (tree n), tuple n (tree n), named (typeTree n)]) make ls rest) :
    Reads (atom n (typeTree n) (tree n)) (make (cover ls)) ls rest :=
  (hread.spanned h).map rfl

theorem reads_exprRule {e : Tree} (h : Reads (atom n (typeTree n) (tree n)) e ls rest)
    (hrest : Avoids [.parenL, .bracketL] rest) : Reads (tree (n + 1)) e ls rest := by
  have h' : Reads (tree (n + 1)) e (ls ++ []) rest := h.bind ((fails_suffix hrest).many.map rfl)
  rwa [List.append_nil] at h'

theorem reads_phrase {φ : Phrase} (h : φ.Spelled V ls) : ReadsPhrase φ ls := by
  induction h with
  | @closed e ls he ih =>
    obtain ⟨a, ks, ss, segs, rfl, rfl, ha, hss⟩ := ih
    intro n rest hn hrest
    obtain ⟨n, rfl⟩ : ∃ k, n = k + 1 := ⟨n - 1, by omega⟩
    simp only [List.length_append] at hn
    have havoids : Avoids [.less, .star, .atSign] (segs.flatten ++ rest) := by
      cases hss with
      | nil => exact hrest.mono (by simp [exprSigns])
      | cons hs => simpa using hs.avoids _
    have hsuffixes := reads_suffixes (m := n) (n := n) hss (by omega) (by omega)
      (hrest.mono (by simp [exprSigns]))
    exact (ha n _ (by omega) havoids).bind (hsuffixes.map rfl)
  | @letIn bs e ls ms s₁ s₂ whole hbs _ hwhole ihb ihe =>
    obtain rfl : whole = [⟨.symbol .kwLet, s₁⟩] ++ (ls ++ ([⟨.symbol .kwIn, s₂⟩] ++ ms)) := by
      simp [hwhole]
    intro n rest hn hrest
    obtain ⟨n, rfl⟩ : ∃ k, n = k + 1 := ⟨n - 1, by omega⟩
    simp at hn
    have hne : bs ≠ [] := by
      rintro rfl
      cases hbs
    refine reads_exprRule
      (reads_atom (Tree.letIn bs e) (by simp) (Reads.choice_cons (Reads.choice ?_) ?_))
      (hrest.mono (by simp [exprSigns]))
    · exact reads_symbol.bind ((reads_bindings ihb hne (by omega)).bind (reads_symbol.bind
        ((ihe n rest (by omega) hrest).map rfl)))
    · exact fun _ => rfl
  | atom _ ih => exact ⟨_, _, [], [], by simp, rfl, ih, .nil⟩
  | @call f es ls ms s₁ s₂ whole hf _ hwhole ihf ihe =>
    obtain ⟨hne, hcover⟩ := hf.covers
    have hspan : cover whole = ⟨f.span.start, s₂.stop⟩ := by
      rw [hwhole, hcover]
      exact cover_concat (_ :: ms) hne
    obtain ⟨a, ks, ss, segs, rfl, rfl, ha, hss⟩ := ihf
    let seg : List Lexeme := ⟨.symbol .parenL, s₁⟩ :: (ms ++ [⟨.symbol .parenR, s₂⟩])
    have hseg : ReadsSuffix (.call es, cover seg) seg := by
      refine ⟨by simp [seg], by simp [seg], fun n rest hn => ?_⟩
      simp only [seg, List.length_cons, List.length_append] at hn
      refine Reads.spanned (Reads.choice (Reads.map (Reads.between ?_) rfl)) (by simp [seg])
      exact reads_exprs ihe (by omega) (by decide)
    refine ⟨a, ks, ss ++ [(.call es, cover seg)], segs ++ [seg], by simp [hwhole, seg], ?_, ha,
      List.rel_append hss (.cons hseg .nil)⟩
    rw [List.foldl_append, hspan]
    simp [withSuffix, cover, seg]
  | @select e i ls s₁ s₂ s₃ whole he hi hwhole ih =>
    obtain ⟨hne, hcover⟩ := he.covers
    have hspan : cover whole = ⟨e.span.start, s₃.stop⟩ := by
      rw [hwhole, hcover]
      exact cover_concat [_, _] hne
    obtain ⟨a, ks, ss, segs, rfl, rfl, ha, hss⟩ := ih
    let seg : List Lexeme :=
      ⟨.symbol .bracketL, s₁⟩ :: ([⟨.int i, s₂⟩] ++ [⟨.symbol .bracketR, s₃⟩])
    have hseg : ReadsSuffix (.select i.toNat, cover seg) seg := by
      refine ⟨by simp [seg], by simp [seg], fun n rest hn => ?_⟩
      refine Reads.spanned (Reads.choice_cons
        (Reads.choice (Reads.map (a := (i.toNat, s₂)) (Reads.between ?_) rfl)) ?_) (by simp [seg])
      · exact reads_accept (if_pos hi)
      · exact fun _ => rfl
    refine ⟨a, ks, ss ++ [(.select i.toNat, cover seg)], segs ++ [seg], by simp [hwhole, seg], ?_,
      ha, List.rel_append hss (.cons hseg .nil)⟩
    rw [List.foldl_append, hspan]
    rfl
  | int | float | true | false =>
    intro n rest hn hrest
    exact reads_atom _ (by simp) (Reads.choice fun _ => rfl)
  | @name x s =>
    intro n rest hn hrest
    have hnone : Fails (Parser.between .less .greater (typeTree n)) rest :=
      (fails_symbol (hrest.mono (by simp))).bind
    refine reads_atom (Tree.name ⟨x, s⟩) (by simp)
      (Reads.choice_cons (Reads.choice_cons (Reads.choice_cons (Reads.choice_cons
      (Reads.choice_cons (Reads.choice_cons (Reads.choice ?_) ?_) ?_) ?_) ?_) ?_) ?_)
    · exact reads_ident.bind (r := []) (hnone.optional.map rfl)
    all_goals exact fun _ => rfl
  | @builtin x t ls s s₁ s₂ whole ht hwhole =>
    obtain rfl :
        whole = [⟨.name x, s⟩] ++ (⟨.symbol .less, s₁⟩ :: (ls ++ [⟨.symbol .greater, s₂⟩])) := by
      simp [hwhole]
    intro n rest hn hrest
    simp at hn
    refine reads_atom (Tree.builtin ⟨x, s⟩ t) (by simp)
      (Reads.choice_cons (Reads.choice_cons (Reads.choice_cons (Reads.choice_cons
      (Reads.choice_cons (Reads.choice_cons (Reads.choice ?_) ?_) ?_) ?_) ?_) ?_) ?_)
    · exact reads_ident.bind
        ((reads_typePhrase ht n _ (by omega) (by simp)).between.optional.map rfl)
    all_goals exact fun _ => rfl
  | @tuple es ls s₁ s₂ whole _ hwhole ih =>
    obtain rfl : whole = ⟨.symbol .less, s₁⟩ :: (ls ++ [⟨.symbol .greater, s₂⟩]) := by simp [hwhole]
    intro n rest hn hrest
    simp at hn
    refine reads_atom (Tree.tuple es) (by simp) (Reads.choice_cons (Reads.choice_cons
      (Reads.choice_cons (Reads.choice_cons (Reads.choice_cons (Reads.choice ?_) ?_) ?_) ?_) ?_) ?_)
    · exact (reads_exprs ih (by omega) (by decide)).between.map rfl
    all_goals exact fun _ => rfl
  | @delay e ls s₁ s₂ s₃ whole _ hwhole ih =>
    obtain rfl : whole = ⟨.symbol .parenL, s₁⟩ ::
      (([] ++ ([⟨.symbol .arrow, s₂⟩] ++ ls)) ++ [⟨.symbol .parenR, s₃⟩]) := by simp [hwhole]
    intro n rest hn hrest
    simp at hn
    refine reads_atom (Tree.lambda none e) (by simp) (Reads.choice_cons
      (Reads.choice_cons (Reads.choice_cons (Reads.choice (Reads.between ?_)) ?_) ?_) ?_)
    · have hnone {rest} : Fails (do let x ← ident; let _ ← symbol .colon; return (x, ← typeTree n))
          (⟨.symbol .arrow, s₂⟩ :: rest) := Fails.bind fun _ => rfl
      exact hnone.optional.bind
        (reads_symbol.bind ((ih n _ (by omega) (by simp [exprSigns])).map rfl))
    all_goals exact fun _ => rfl
  | @lambda x t e ls ms s s₁ s₂ s₃ s₄ whole ht _ hwhole ih =>
    obtain rfl : whole = ⟨.symbol .parenL, s₁⟩ ::
        ((([⟨.name x, s⟩] ++ ([⟨.symbol .colon, s₂⟩] ++ ls)) ++ ([⟨.symbol .arrow, s₃⟩] ++ ms)) ++
        [⟨.symbol .parenR, s₄⟩]) := by
      simp [hwhole]
    intro n rest hn hrest
    simp at hn
    refine reads_atom (Tree.lambda (some (⟨x, s⟩, t)) e) (by simp) (Reads.choice_cons
      (Reads.choice_cons (Reads.choice_cons (Reads.choice (Reads.between ?_)) ?_) ?_) ?_)
    · refine Reads.bind (Reads.optional (reads_ident.bind (reads_symbol.bind (Reads.map
        (a := t) ?_ rfl)))) (reads_symbol.bind ((ih n _ (by omega) (by simp [exprSigns])).map rfl))
      exact reads_typePhrase ht n _ (by omega) (by simp)
    all_goals exact fun _ => rfl
  | @paren e ls s₁ s₂ whole he hwhole ih =>
    obtain rfl : whole = ⟨.symbol .parenL, s₁⟩ :: (ls ++ [⟨.symbol .parenR, s₂⟩]) := by
      simp [hwhole]
    intro n rest hn hrest
    simp at hn
    refine reads_atom (fun span => e.withSpan span) (by simp)
      (Reads.choice_cons (Reads.choice_cons (Reads.choice_cons
      (Reads.choice_cons (Reads.choice ?_) (fails_lambda (opens_phrase he))) ?_) ?_) ?_)
    · exact (ih n _ (by omega) (by simp [exprSigns])).between.map rfl
    all_goals exact fun _ => rfl
  | @intrinsic uri t ls s₁ s₂ s₃ whole ht hwhole =>
    obtain rfl : whole = [⟨.symbol .kwIntrinsic, s₁⟩] ++
        ([⟨.text uri, s₂⟩] ++ ([⟨.symbol .colon, s₃⟩] ++ ls)) := by
      simp [hwhole]
    intro n rest hn hrest
    simp at hn
    refine reads_atom (Tree.intrinsic uri t) (by simp) (Reads.choice_cons (Reads.choice_cons
      (Reads.choice ?_) ?_) ?_)
    · refine reads_symbol.bind
        ((reads_accept (a := uri) rfl).bind (reads_symbol.bind (Reads.map (a := t) ?_ rfl)))
      exact reads_typePhrase ht n _ (by omega) (hrest.mono (by simp))
    all_goals exact fun _ => rfl
  | none => exact .nil
  | one _ ih => exact .one ih
  | more _ _ ihe ihf => exact .more ihe ihf
  | oneBinding _ ih => exact .one ⟨_, _, rfl, ih⟩
  | moreBindings _ _ ihe ihb => exact .more ⟨_, _, rfl, ihe⟩ ihb

end Parser

theorem treeOf_ok {e : Tree} : treeOf ls = .ok e ↔
    ∃ c, (Parser.tree (ls.length + 1) ⟨ls, 0⟩).out = some (e, c) ∧ c.rest = [] := by
  have hout : treeOf ls = .ok e ↔
      ∃ c, ((do let e ← Parser.tree (ls.length + 1); let _ ← Parser.ending; return e :
        Parser Tree) ⟨ls, 0⟩).out = some (e, c) := by
    simp only [treeOf]
    rcases (Parser.tree (ls.length + 1) >>= fun e =>
        do let _ ← Parser.ending; return e : Parser Tree) ⟨ls, 0⟩ with
      ⟨_ | ⟨f, c⟩, stuck⟩
    · simp
    · simp
  simp only [hout, Parser.bind_out]
  constructor
  · rintro ⟨c, e', ⟨ks, stop⟩, he, _, c₁, hending, ⟨⟩⟩
    cases ks with
    | nil => exact ⟨_, he, rfl⟩
    | cons l ks => cases hending
  · rintro ⟨⟨ks, stop⟩, he, rfl⟩
    exact ⟨_, e, _, he, (), _, rfl, rfl⟩

theorem derives_treeOf {e : Tree} (h : treeOf ls = .ok e) :
    Derives .any .expr (ls.map Lexeme.token) := by
  obtain ⟨c, hc, hrest⟩ := treeOf_ok.mp h
  obtain ⟨ts, hts, htokens⟩ := Parser.takes_tree _ _ _ hc
  rw [hrest, List.map_nil, List.append_nil] at htokens
  rw [htokens]
  exact hts

theorem treeOf_spelled {e : Tree} (h : (Phrase.expr e).Spelled V ls) : treeOf ls = .ok e := by
  have hread := Parser.reads_phrase h (ls.length + 1) [] (by omega) (by simp) 0
  rw [List.append_nil] at hread
  exact treeOf_ok.mpr ⟨_, hread, rfl⟩

theorem spelled_treeOf {e : Tree} (h : treeOf ls = .ok e) : (Phrase.expr e).Spelled .any ls := by
  obtain ⟨f, hf⟩ := (derives_treeOf h).spelled
  cases h.symm.trans (treeOf_spelled hf)
  exact hf

theorem parse_ok {source : String} {e : Tree} :
    parse source = .ok e ↔ (lex source).faults = [] ∧ treeOf (lex source).lexemes = .ok e := by
  delta parse
  cases htree : treeOf (lex source).lexemes with
  | error left => simp [htree]
  | ok f => by_cases hfaults : (lex source).faults = [] <;> simp [htree, hfaults]

/-- The parser accepts the words of the grammar, and the tree that it returns is the one that they
spell. If they are words over some vocabulary, then so is the tree. -/
theorem parse_iff_derives (source : String) :
    ((∃ e, parse source = .ok e) ↔
      (lex source).faults = [] ∧ Derives .any .expr ((lex source).lexemes.map Lexeme.token)) ∧
    (∀ e, parse source = .ok e ↔ (lex source).faults = [] ∧
      (Phrase.expr e).Spelled .any (lex source).lexemes) ∧
    ∀ V, (lex source).faults = [] → Derives V .expr ((lex source).lexemes.map Lexeme.token) →
      ∃ e, parse source = .ok e ∧ (Phrase.expr e).Spelled V (lex source).lexemes := by
  have parses {V : Vocabulary} (hfaults : (lex source).faults = [])
      (h : Derives V .expr ((lex source).lexemes.map Lexeme.token)) :
      ∃ e, parse source = .ok e ∧ (Phrase.expr e).Spelled V (lex source).lexemes := by
    obtain ⟨e, he⟩ := h.spelled
    exact ⟨e, parse_ok.mpr ⟨hfaults, treeOf_spelled he⟩, he⟩
  refine ⟨⟨?_, ?_⟩, fun e => ⟨?_, ?_⟩, fun V => parses⟩
  · rintro ⟨e, he⟩
    obtain ⟨hfaults, htree⟩ := parse_ok.mp he
    exact ⟨hfaults, derives_treeOf htree⟩
  · rintro ⟨hfaults, h⟩
    obtain ⟨e, he, -⟩ := parses hfaults h
    exact ⟨e, he⟩
  · intro he
    obtain ⟨hfaults, htree⟩ := parse_ok.mp he
    exact ⟨hfaults, spelled_treeOf htree⟩
  · rintro ⟨hfaults, h⟩
    exact parse_ok.mpr ⟨hfaults, treeOf_spelled h⟩

def Tree.paramName? : Tree → Option String
  | .lambda (some (_, .named x _)) _ _ => some x.name
  | _ => none

theorem Tree.paramName?_withSpan (e : Tree) (s : Span) :
    (e.withSpan s).paramName? = e.paramName? := by
  cases e with
  | lambda param body =>
    rcases param with _ | ⟨x, t⟩
    · rfl
    · cases t <;> rfl
  | _ => rfl

theorem base_of_spelled {φ : Phrase} {e : Tree} {x : String} (h : φ.Spelled V ls)
    (hφ : φ ∈ [Phrase.expr e, .closed e, .atom e]) (hx : e.paramName? = some x) : V.Base x := by
  induction h generalizing e with
  | closed _ ih | atom _ ih =>
    simp at hφ
    exact ih (by simp [hφ]) hx
  | lambda ht _ _ _ =>
    simp at hφ
    subst hφ
    cases ht with
    | each => cases hx
    | placed => cases hx
    | plain h =>
      cases h with
      | star => cases hx
      | base h =>
        cases h with
        | named hbase =>
          cases hx
          exact hbase
        | _ => cases hx
  | @paren f _ _ _ _ _ _ ih =>
    simp at hφ
    subst hφ
    exact ih (e := f) (by simp) (f.paramName?_withSpan _ ▸ hx)
  | _ =>
    simp at hφ
    try (subst hφ; cases hx)

/-- A text that is accepted though one of its names stands for no type. -/
theorem parse_unknown_type :
    (lex "(x: foo -> x)").faults = [] ∧ (∃ e, parse "(x: foo -> x)" = .ok e) ∧
    ¬ Derives .known .expr ((lex "(x: foo -> x)").lexemes.map Lexeme.token) := by
  obtain ⟨e, he, hx⟩ : ∃ e, parse "(x: foo -> x)" = .ok e ∧ (e.paramName? == some "foo") = true :=
    except_any (by decide +kernel)
  obtain ⟨hfaults, htree⟩ := parse_ok.mp he
  refine ⟨hfaults, ⟨e, he⟩, fun h => ?_⟩
  obtain ⟨f, hf⟩ := h.spelled
  cases htree.symm.trans (treeOf_spelled hf)
  have hbase : (Scalar.ofName? "foo").isSome = true :=
    base_of_spelled hf (by simp) (beq_iff_eq.mp hx)
  exact absurd hbase (by decide)

end TwoTier.Source

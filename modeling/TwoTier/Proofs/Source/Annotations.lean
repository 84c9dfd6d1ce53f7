import TwoTier.Proofs.Source.Printing

/-! # Printed types are read back

A type that a text gives to a parameter, a builtin or an intrinsic is printed as a text that gives
the same type, if nothing that is placed is placed again at the coordinator. The braces around such
a type are lost, and without them no text has a placement behind another one.
-/

namespace TwoTier

namespace Source

namespace Tree

mutual

/-- All types that are written down in the tree. -/
def annotations : Tree → List TypeTree
  | .int .. | .float .. | .bool .. | .name .. => []
  | .builtin _ t _ | .intrinsic _ t _ => [t]
  | .tuple es _ => annotationsEach es
  | .call f as _ => f.annotations ++ annotationsEach as
  | .select e _ _ | .lambda none e _ => e.annotations
  | .lambda (some (_, t)) e _ => t :: e.annotations
  | .letIn bs e _ => annotationsBound bs ++ e.annotations

def annotationsEach : List Tree → List TypeTree
  | [] => []
  | e :: es => e.annotations ++ annotationsEach es

def annotationsBound : List (Ident × Tree) → List TypeTree
  | [] => []
  | (_, e) :: bs => e.annotations ++ annotationsBound bs

end

theorem annotations_withSpan (e : Tree) (s : Span) :
    (e.withSpan s).annotations = e.annotations := by
  cases e with
  | lambda p e => rcases p with _ | ⟨x, t⟩ <;> rfl
  | _ => rfl

end Tree

variable {V : Vocabulary} {ls : List Lexeme}

def Phrase.annotations : Phrase → List TypeTree
  | .expr e | .closed e | .atom e => e.annotations
  | .exprs es => Tree.annotationsEach es
  | .bindings bs => Tree.annotationsBound bs

attribute [local simp] Phrase.annotations Tree.annotations Tree.annotationsEach
  Tree.annotationsBound

theorem Phrase.Spelled.annotations {φ : Phrase} (h : φ.Spelled V ls) :
    ∀ t ∈ φ.annotations, ∃ ms, (TypePhrase.type t).Spelled V ms := by
  induction h with
  | closed _ ih | atom _ ih | one _ ih | select _ _ _ ih | tuple _ _ ih | delay _ _ ih
      | oneBinding _ ih =>
    simpa using ih
  | letIn _ _ _ ih ih' | call _ _ _ ih ih' | more _ _ ih ih' | moreBindings _ _ ih ih' =>
    exact List.forall_mem_append.mpr ⟨ih, ih'⟩
  | int | float | true | false | name | none => simp
  | builtin ht | intrinsic ht => simpa using ⟨_, ht⟩
  | lambda ht _ _ ih => exact List.forall_mem_cons.mpr ⟨⟨_, ht⟩, ih⟩
  | paren _ _ ih => simpa [Tree.annotations_withSpan] using ih

/-- How much of a placement has just been read: nothing, its sign, or all of it. -/
inductive Placing where
  | idle
  | sign
  | place

namespace Placing

def next : Placing → Token → Option Placing
  | .place, .symbol .atSign => none
  | _, .symbol .atSign => some .sign
  | .sign, .name _ => some .place
  | _, _ => some .idle

/-- Read tokens, unless there is a placement right behind another one. -/
def run (q : Placing) : List Token → Option Placing
  | [] => some q
  | t :: ts => (q.next t).bind fun q => q.run ts

@[simp] theorem run_nil (q : Placing) : q.run [] = some q := rfl

@[simp] theorem run_cons (q : Placing) (t : Token) (ts : List Token) :
    q.run (t :: ts) = (q.next t).bind fun q => q.run ts := rfl

@[simp] theorem run_append (q : Placing) (ts us : List Token) :
    q.run (ts ++ us) = (q.run ts).bind fun q => q.run us := by
  induction ts generalizing q with
  | nil => rfl
  | cons t ts ih => simp [ih, Option.bind_assoc]

end Placing

/-- No word of the grammar has a placement right behind another one. -/
theorem Derives.run {n : Nonterminal} {ts : List Token} (h : Derives V n ts) :
    ∃ q, Placing.idle.run ts = some q ∧ (n = .sequence ∨ n = .base → q = .idle) := by
  induction h with
  | plain _ ih | base _ ih | oneType _ ih | atom _ ih | oneExpr _ ih =>
    obtain ⟨q, hq, hidle⟩ := ih
    exact ⟨q, hq, by simp_all⟩
  | placed _ _ ih =>
    obtain ⟨q, hq, hidle⟩ := ih
    obtain rfl := hidle (.inl rfl)
    exact ⟨.place, by simp [hq, Placing.next], by simp⟩
  | each _ _ ih | star _ ih | tupleType _ ih | thunkType _ ih | force _ ih | select _ _ ih
      | builtin _ ih | tuple _ ih
  | delay _ ih | paren _ ih | intrinsic _ ih | oneBinding _ ih =>
    obtain ⟨q, hq, -⟩ := ih
    simp [hq, Placing.next]
  | funcType _ _ ih ih' | moreTypes _ _ ih ih' | call _ _ ih ih' | lambda _ _ ih ih'
      | letIn _ _ ih ih'
  | moreExprs _ _ ih ih' | moreBindings _ _ ih ih' =>
    obtain ⟨q, hq, -⟩ := ih
    obtain ⟨q', hq', -⟩ := ih'
    simp [hq, hq', Placing.next]
  | namedType | unitType | int | float | true | false | name | unit => simp [Placing.next]

/-- How much of a placement has been read behind the text of a type. Types that are not legible are
not read. -/
def placing (t : Ty) : Option Placing :=
  if t.isLegible then some (if t.isBare then .idle else .place) else none

/-- The lexemes of a type, as far as placements go. -/
def placingLexemes (t : Ty) : Language Lexeme :=
  {ls | Placing.idle.run (ls.map Lexeme.token) = placing t}

theorem mem_placingLexemes {t : Ty} :
    ls ∈ placingLexemes t ↔ Placing.idle.run (ls.map Lexeme.token) = placing t := Iff.rfl

theorem next_symbol {q : Placing} {c : Symbol} (hc : c ≠ .atSign) :
    q.next (.symbol c) = some .idle := by
  unfold Placing.next
  split <;> simp_all

theorem run_listLexemes {ts : List Ty} (h : ls ∈ listLexemes placingLexemes ts) :
    ∃ q, Placing.idle.run (ls.map Lexeme.token) = if Ty.allLegible ts then some q else none := by
  induction h with
  | nil => exact ⟨_, rfl⟩
  | @one t ls h =>
    exact ⟨if t.isBare then .idle else .place,
      by simpa [Ty.allLegible, placing] using mem_placingLexemes.mp h⟩
  | @more t u ts ls ms s h _ ih =>
    obtain ⟨q, hq⟩ := ih
    refine ⟨q, ?_⟩
    rw [mem_placingLexemes] at h
    cases hlegible : t.isLegible <;> simp [h, hq, placing, hlegible, next_symbol, Ty.allLegible]

/-- The text of a type has a placement right behind another one exactly if the type is not
legible. -/
theorem lexes_placing (t : Ty) : Lexes t.text (placingLexemes t) := by
  have placed (m : Ty) (p : Placement) (e : Bool) : (Ty.placed m p e).isBare = false := rfl
  apply lexes_text
  · rintro k _ ⟨s, rfl⟩
    rfl
  · rintro ts _ ⟨_, ⟨s₁, rfl⟩, _, ⟨ls, hls, _, ⟨s₂, rfl⟩, rfl⟩, rfl⟩
    obtain ⟨q, hq⟩ := run_listLexemes hls
    refine mem_placingLexemes.mpr ?_
    cases hlegible : Ty.allLegible ts <;>
      simp [hq, placing, Ty.isLegible, Ty.isBare, next_symbol, hlegible]
  · rintro t _ ⟨ls, hls, _, ⟨s, rfl⟩, rfl⟩
    replace hls := mem_placingLexemes.mp hls
    refine mem_placingLexemes.mpr ?_
    cases hlegible : t.isLegible <;>
      simp [hls, placing, Ty.isLegible, Ty.isBare, next_symbol, hlegible]
  · rintro p r _ ⟨_, ⟨s₁, rfl⟩, _,
      ⟨ls, hls, _, ⟨_, ⟨s₂, rfl⟩, _, ⟨ms, hms, _, ⟨s₃, rfl⟩, rfl⟩, rfl⟩, rfl⟩, rfl⟩
    replace hls := mem_placingLexemes.mp hls
    replace hms := mem_placingLexemes.mp hms
    refine mem_placingLexemes.mpr ?_
    cases hp : p.isLegible <;> cases hr : r.isLegible <;>
      simp [hls, hms, placing, Ty.isLegible, Ty.isBare, next_symbol, hp, hr]
  · rintro r _ ⟨_, ⟨s₁, rfl⟩, _, ⟨_, ⟨s₂, rfl⟩, _, ⟨ls, hls, _, ⟨s₃, rfl⟩, rfl⟩, rfl⟩, rfl⟩
    replace hls := mem_placingLexemes.mp hls
    refine mem_placingLexemes.mpr ?_
    cases hlegible : r.isLegible <;>
      simp [hls, placing, Ty.isLegible, Ty.isBare, next_symbol, hlegible]
  · rintro m p _ ⟨ls, hls, _, ⟨_, ⟨s₁, rfl⟩, _, ⟨s₂, rfl⟩, rfl⟩, rfl⟩
    replace hls := mem_placingLexemes.mp hls
    refine mem_placingLexemes.mpr ?_
    -- Whether the member is placed makes the difference: only then is there a placement to the left
    -- of the sign.
    cases hlegible : m.isLegible <;> cases hbare : m.isBare <;>
      simp [hls, placing, Ty.isLegible, placed, Placing.next, hlegible, hbare]
  · rintro m p _ ⟨_, ⟨s₁, rfl⟩, _,
      ⟨ls, hls, _, ⟨_, ⟨s₂, rfl⟩, _, ⟨_, ⟨s₃, rfl⟩, _, ⟨s, rfl⟩, rfl⟩, rfl⟩, rfl⟩, rfl⟩
    replace hls := mem_placingLexemes.mp hls
    refine mem_placingLexemes.mpr ?_
    cases hlegible : m.isLegible <;>
      simp [hls, placing, Ty.isLegible, placed, Placing.next, hlegible]

def identityOn (t : Ty) : String :=
  "(x: " ++ t.text ++ " -> x)"

theorem read_identityOn_of_writable {t : Ty} (h : t.Writable) :
    read (identityOn t) = .ok (.lambda (some "x") (.ref "x" t) (.func t t)) := by
  have hwritten : Written [] (.lambda (some "x") (.ref "x" t) (.func t t)) :=
    .lambda (by decide) h (.ref (by decide) (by simp))
  have htext : identityOn t = (Expr.lambda (some "x") (.ref "x" t) (.func t t)).text := by
    simp [identityOn, Expr.text, Expr.render, Expr.lambdaHead, String.append_assoc]
  rw [htext]
  exact read_of_lexes (lexes_render hwritten).2

theorem parse_identityOn_of_not_legible {t : Ty} (h : t.isLegible = false) :
    ∃ faults, parse (identityOn t) = .error faults := by
  have hopen : Cuts "(" (single (.symbol .parenL)) := cuts_sign rfl
  have hcolon : Cuts ": " (single (.symbol .colon)) := cuts_sign rfl
  have harrow : Cuts " -> " (single (.symbol .arrow)) := cuts_sign rfl
  have hclose : Cuts ")" (single (.symbol .parenR)) := cuts_sign rfl
  have hx : Lexes "x" (single (.name "x")) := lexes_name (by decide)
  have htext : identityOn t = "(" ++ "x" ++ ": " ++ t.text ++ " -> " ++ "x" ++ ")" := by
    simp [identityOn, String.append_assoc]
  obtain ⟨-, hlexemes⟩ :=
    lex_of_lexes ((((((hopen.append_lexes hx).append_cuts rfl hcolon).append_lexes
    (lexes_placing t)).append_cuts rfl harrow).append_lexes hx).append_cuts rfl hclose).lexes
  rw [← htext] at hlexemes
  cases hparse : parse (identityOn t) with
  | error faults => exact ⟨faults, rfl⟩
  | ok tree =>
    obtain ⟨q, hq, -⟩ := (derives_treeOf (parse_ok.mp hparse).2).run
    generalize (lex (identityOn t)).lexemes = ls at hlexemes hq
    simp only [mul_assoc] at hlexemes
    obtain ⟨_, ⟨s₁, rfl⟩, _, ⟨_, ⟨s₂, rfl⟩, _, ⟨_, ⟨s₃, rfl⟩, _, ⟨ls, hls, ms, -, rfl⟩, rfl⟩, rfl⟩,
      rfl⟩ := hlexemes
    simp [mem_placingLexemes.mp hls, placing, h, Placing.next] at hq

/-- Every type that a text writes down is read back from its own text if it is legible, and only
then. -/
theorem read_identityOn {source : String} {tree : Tree} {t : TypeTree} {ty : Ty}
    (hparse : parse source = .ok tree) (ht : t ∈ tree.annotations) (hty : t.toTy = .ok ty) :
    (ty.isLegible = true →
        read (identityOn ty) = .ok (.lambda (some "x") (.ref "x" ty) (.func ty ty))) ∧
      (ty.isLegible = false → ∃ faults, parse (identityOn ty) = .error faults) := by
  refine ⟨fun hlegible => ?_, parse_identityOn_of_not_legible⟩
  obtain ⟨ls, hspelled⟩ := (spelled_treeOf (parse_ok.mp hparse).2).annotations t ht
  exact read_identityOn_of_writable (hspelled.writable ty hty hlegible)

theorem exists_annotation {source : String} {ty : Ty} (h : (parse source).toOption.any (fun tree =>
    tree.annotations.any fun t => t.toTy.toOption.any (decide <| · = ty)) = true) :
    ∃ tree t, parse source = .ok tree ∧ t ∈ tree.annotations ∧ t.toTy = .ok ty := by
  obtain ⟨tree, hparse, h⟩ := except_any h
  obtain ⟨t, ht, h⟩ := List.any_eq_true.mp h
  obtain ⟨_, hty, h⟩ := except_any h
  obtain rfl := of_decide_eq_true h
  exact ⟨tree, t, hparse, ht, hty⟩

/-- A function on sequences and values that are placed at the participants twice. -/
theorem read_identityOn_participants : ∃ tree t ty, parse
    "(f: (<\x7b\x7bint32\x7d@CLIENTS\x7d@CLIENTS, bool*> -> float32@SERVER) -> f)" = .ok tree ∧
      t ∈ tree.annotations ∧ t.toTy = .ok ty ∧
      read (identityOn ty) = .ok (.lambda (some "x") (.ref "x" ty) (.func ty ty)) := by
  have hannotation : ∃ tree t, parse
      "(f: (<\x7b\x7bint32\x7d@CLIENTS\x7d@CLIENTS, bool*> -> float32@SERVER) -> f)" = .ok tree ∧
      t ∈ tree.annotations ∧ t.toTy = .ok (.func
        (.tuple [.placed (.placed .int32 .participants false) .participants false, .seq .boolean])
        (.placed .float32 .coordinator true)) := exists_annotation (by decide +kernel)
  obtain ⟨tree, t, hparse, ht, hty⟩ := hannotation
  exact ⟨tree, t, _, hparse, ht, hty, (read_identityOn hparse ht hty).1 rfl⟩

/-- A value of the coordinator, placed at the coordinator again. -/
theorem read_identityOn_coordinator :
    ∃ tree t ty, parse "(x: \x7bint32@SERVER\x7d@SERVER -> x)" = .ok tree ∧
    t ∈ tree.annotations ∧ t.toTy = .ok ty ∧ ∀ e, read (identityOn ty) ≠ .ok e := by
  obtain ⟨tree, t, hparse, ht, hty⟩ :
      ∃ tree t, parse "(x: \x7bint32@SERVER\x7d@SERVER -> x)" = .ok tree ∧ t ∈ tree.annotations ∧
      t.toTy = .ok (.placed (.placed .int32 .coordinator true) .coordinator true) :=
    exists_annotation (by decide +kernel)
  refine ⟨tree, t, _, hparse, ht, hty, fun e he => ?_⟩
  obtain ⟨faults, hfaults⟩ := parse_identityOn_of_not_legible
    (t := .placed (.placed .int32 .coordinator true) .coordinator true) rfl
  obtain ⟨tree, hparse, -⟩ := read_ok.mp he
  cases hfaults.symm.trans hparse

end Source

end TwoTier

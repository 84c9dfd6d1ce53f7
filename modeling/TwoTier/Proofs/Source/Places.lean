import TwoTier.Proofs.Induction
import TwoTier.Proofs.Source.Lexing
import TwoTier.Proofs.Source.Reading

/-! # Places in a text

Lexemes lie in their text one behind the other, and each begins and ends between characters. A node
of a tree covers lexemes, so the same holds for it, and for whatever is reported about the text:
parts that are no token, lexemes that no tree goes on with, and trees that mean nothing.
-/

namespace TwoTier

namespace Source

variable {text : List Char}

@[simp] theorem byteLength_nil : byteLength [] = 0 := rfl

@[simp] theorem byteLength_cons (c : Char) (cs : List Char) :
    byteLength (c :: cs) = c.utf8Size + byteLength cs :=
  rfl

@[simp] theorem byteLength_append (cs ds : List Char) :
    byteLength (cs ++ ds) = byteLength cs + byteLength ds := by
  induction cs with
  | nil => simp
  | cons c cs ih => simp [ih, Nat.add_assoc]

/-- Byte `n` is not inside a character: the text can be cut there. -/
def Boundary (text : List Char) (n : Nat) : Prop :=
  ∃ before after, text = before ++ after ∧ byteLength before = n

theorem boundary_append (before after : List Char) :
    Boundary (before ++ after) (byteLength before) :=
  ⟨before, after, rfl, rfl⟩

theorem boundary_end : Boundary text (byteLength text) :=
  ⟨text, [], by simp, rfl⟩

theorem Boundary.le {n : Nat} (h : Boundary text n) : n ≤ byteLength text := by
  obtain ⟨before, after, rfl, rfl⟩ := h
  simp

theorem before?_append (before after : List Char) :
    before? (byteLength before) (before ++ after) = some before := by
  induction before with
  | nil => cases after <;> rfl
  | cons c cs ih =>
    obtain ⟨k, hk⟩ := Nat.exists_eq_succ_of_ne_zero c.utf8Size_pos.ne'
    have hsize : byteLength (c :: cs) = k + byteLength cs + 1 := by simp [hk]; omega
    have hle : c.utf8Size ≤ k + byteLength cs + 1 := by omega
    have hrest : k + byteLength cs + 1 - c.utf8Size = byteLength cs := by omega
    rw [hsize, List.cons_append, before?, if_pos hle, hrest, ih, Option.map_some]

end Source

open Source

/-- The span begins and ends between characters of the text. -/
structure Span.Within (text : List Char) (s : Span) : Prop where
  starts : Boundary text s.start
  ordered : s.start ≤ s.stop
  stops : Boundary text s.stop

theorem Diagnostic.render?_within {d : Diagnostic} {s : Span} {text : String} (hs : d.span = some s)
    (h : s.Within text.toList) (file : String) : ∃ before after, text.toList = before ++ after ∧
      byteLength before = s.start ∧
      d.render? file text =
      some (file ++ s!":{lineAfter before}:{columnAfter before}: " ++ d.text) := by
  obtain ⟨before, after, htext, hbefore⟩ := h.starts
  refine ⟨before, after, htext, hbefore, ?_⟩
  have hfound : before? s.start text.toList = some before := by
    rw [← hbefore, htext, before?_append]
  simp only [Diagnostic.render?, hs, hfound, Option.map_some]

namespace Source

variable {text : List Char} {ls ms : List Lexeme}

/-- The lexemes lie in the text one behind the other. -/
structure Arranged (text : List Char) (ls : List Lexeme) : Prop where
  within : ∀ l ∈ ls, l.span.Within text
  ordered : ls.Pairwise fun l m => l.span.stop ≤ m.span.start

namespace Arranged

theorem sublist (h : Arranged text ls) (hms : ms.Sublist ls) : Arranged text ms :=
  ⟨fun l hl => h.within l (hms.subset hl), h.ordered.sublist hms⟩

theorem tail {l : Lexeme} (h : Arranged text (l :: ls)) : Arranged text ls :=
  h.sublist (List.sublist_cons_self l ls)

theorem left (h : Arranged text (ls ++ ms)) : Arranged text ls :=
  h.sublist (List.sublist_append_left ls ms)

theorem right (h : Arranged text (ls ++ ms)) : Arranged text ms :=
  h.sublist (List.sublist_append_right ls ms)

theorem span {s : Span} (h : Arranged text ls) (hs : s ∈ ls.map Lexeme.span) : s.Within text := by
  obtain ⟨l, hl, rfl⟩ := List.mem_map.mp hs
  exact h.within l hl

theorem cover (h : Arranged text ls) (hls : ls ≠ []) : (cover ls).Within text := by
  cases ls with
  | nil => exact absurd rfl hls
  | cons l ls =>
    have hfirst := h.within l List.mem_cons_self
    have hlast := h.within _ (List.getLastD_mem_cons (l := ls) (a := l))
    refine ⟨hfirst.starts, ?_, hlast.stops⟩
    rcases List.mem_cons.mp (List.getLastD_mem_cons (l := ls) (a := l)) with heq | hmem
    · simpa only [Source.cover, heq] using hfirst.ordered
    · exact hfirst.ordered.trans ((List.rel_of_pairwise_cons h.ordered hmem).trans hlast.ordered)

theorem whole (h : Arranged text ls) (heq : ls = ms) (hms : ms ≠ []) :
    Arranged text ms ∧ (Source.cover ls).Within text := by
  subst heq
  exact ⟨h, h.cover hms⟩

end Arranged

theorem flatMap_piecesFrom (n : Nat) (cs : List Char) :
    (piecesFrom n cs).flatMap Prod.snd = cs.drop n := by
  induction n, cs using piecesFrom.induct with
  | case1 n => simp [piecesFrom]
  | case2 n c cs ih => simpa [piecesFrom] using ih
  | case3 c cs piece n hfront ih => simp [piecesFrom, hfront, ih]

/-- Pieces that follow the text `before` lie behind it, and so do the lexemes and the faults among
them. -/
theorem locate_within (before : List Char) (ps : List (Piece × List Char)) :
    Arranged (before ++ ps.flatMap Prod.snd) (locate (byteLength before) ps).lexemes ∧
      (∀ l ∈ (locate (byteLength before) ps).lexemes, byteLength before ≤ l.span.start) ∧
      ∀ f ∈ (locate (byteLength before) ps).faults, f.span.Within
      (before ++ ps.flatMap Prod.snd) := by
  induction ps generalizing before with
  | nil => exact ⟨⟨by simp [locate], by simp [locate]⟩, by simp [locate], by simp [locate]⟩
  | cons p ps ih =>
    obtain ⟨piece, cs⟩ := p
    -- The text stays the same while pieces go over to what is before.
    obtain ⟨⟨hwithin, hordered⟩, hbehind, hfaults⟩ := ih (before ++ cs)
    have hspan : Span.Within (before ++ cs ++ ps.flatMap Prod.snd)
        ⟨byteLength before, byteLength (before ++ cs)⟩ := by
      refine ⟨?_, by simp, boundary_append _ _⟩
      rw [List.append_assoc]
      exact boundary_append _ _
    have hlater : ∀ l ∈ (locate (byteLength (before ++ cs)) ps).lexemes, byteLength before ≤
        l.span.start :=
      fun l hl => le_trans (by simp) (hbehind l hl)
    rw [byteLength_append] at hwithin hordered hbehind hfaults hspan hlater
    simp only [List.flatMap_cons, ← List.append_assoc]
    cases piece with
    | token t =>
      refine ⟨⟨List.forall_mem_cons.mpr ⟨hspan, hwithin⟩,
        List.pairwise_cons.mpr ⟨hbehind, hordered⟩⟩, ?_, hfaults⟩
      exact List.forall_mem_cons.mpr ⟨le_rfl, hlater⟩
    | filler => exact ⟨⟨hwithin, hordered⟩, hlater, hfaults⟩
    | fault => exact ⟨⟨hwithin, hordered⟩, hlater, List.forall_mem_cons.mpr ⟨hspan, hfaults⟩⟩

theorem lex_within (source : String) : Arranged source.toList (lex source).lexemes ∧
    ∀ f ∈ (lex source).faults, f.span.Within source.toList := by
  obtain ⟨hlexemes, -, hfaults⟩ := locate_within [] (pieces source)
  rw [pieces, flatMap_piecesFrom, List.drop_zero, List.nil_append] at hlexemes hfaults
  exact ⟨hlexemes, hfaults⟩

variable {P : Span → Prop} {V : Vocabulary}

/-- All spans in the tree have the property `P`. -/
inductive TypeTree.Located (P : Span → Prop) : TypeTree → Prop
  | named {x s} : P x.span → P s → Located P (.named x s)
  | tuple {ts s} : (∀ t ∈ ts, Located P t) → P s → Located P (.tuple ts s)
  | seq {t s} : Located P t → P s → Located P (.seq t s)
  | func {t u s} : Located P t → Located P u → P s → Located P (.func t u s)
  | thunk {t s} : Located P t → P s → Located P (.thunk t s)
  | placed {t x allEqual s} : Located P t → P x.span → P s → Located P (.placed t x allEqual s)

inductive Tree.Located (P : Span → Prop) : Tree → Prop
  | int {v s} : P s → Located P (.int v s)
  | float {v s} : P s → Located P (.float v s)
  | bool {v s} : P s → Located P (.bool v s)
  | name {x s} : P x.span → P s → Located P (.name x s)
  | builtin {x t s} : P x.span → t.Located P → P s → Located P (.builtin x t s)
  | tuple {es s} : (∀ e ∈ es, Located P e) → P s → Located P (.tuple es s)
  | call {f es s} : Located P f → (∀ e ∈ es, Located P e) → P s → Located P (.call f es s)
  | select {e i s} : Located P e → P s → Located P (.select e i s)
  | delay {e s} : Located P e → P s → Located P (.lambda none e s)
  | lambda {x t e s} :
      P x.span → t.Located P → Located P e → P s → Located P (.lambda (some (x, t)) e s)
  | letIn {bs e s} : (∀ b ∈ bs, P b.1.span) → (∀ b ∈ bs, Located P b.2) → Located P e → P s →
      Located P (.letIn bs e s)
  | intrinsic {uri t s} : t.Located P → P s → Located P (.intrinsic uri t s)

theorem Tree.Located.withSpan {e : Tree} {s : Span} (h : e.Located P) (hs : P s) :
    (e.withSpan s).Located P := by
  cases h with
  | int => exact .int hs
  | float => exact .float hs
  | bool => exact .bool hs
  | name hx => exact .name hx hs
  | builtin hx ht => exact .builtin hx ht hs
  | tuple hes => exact .tuple hes hs
  | call hf hes => exact .call hf hes hs
  | select he => exact .select he hs
  | delay he => exact .delay he hs
  | lambda hx ht he => exact .lambda hx ht he hs
  | letIn hxs hbs he => exact .letIn hxs hbs he hs
  | intrinsic ht => exact .intrinsic ht hs

def TypePhrase.Located (P : Span → Prop) : TypePhrase → Prop
  | .type t | .sequence t | .base t => t.Located P
  | .types ts => ∀ t ∈ ts, t.Located P

def Phrase.Located (P : Span → Prop) : Phrase → Prop
  | .expr e | .closed e | .atom e => e.Located P
  | .exprs es => ∀ e ∈ es, e.Located P
  | .bindings bs => ∀ b ∈ bs, P b.1.span ∧ b.2.Located P

theorem TypePhrase.Spelled.located {φ : TypePhrase} (h : φ.Spelled V ls) (hls : Arranged text ls) :
    φ.Located (Span.Within text) := by
  induction h with
  | plain _ ih | base _ ih => exact ih hls
  | named _ => exact .named (hls.span (by simp)) (hls.span (by simp))
  | none => simp [TypePhrase.Located]
  | one _ ih => simpa [TypePhrase.Located] using ih hls
  | more _ _ iht ihts => exact List.forall_mem_cons.mpr ⟨iht hls.left, ihts hls.right.tail⟩
  | each _ _ hwhole ih =>
    obtain ⟨hms, hcover⟩ := hls.whole hwhole (by simp)
    exact .placed (ih hms.left.tail) (hms.span (by simp)) hcover
  | placed _ _ hwhole ih =>
    obtain ⟨hms, hcover⟩ := hls.whole hwhole (by simp)
    exact .placed (ih hms.left) (hms.span (by simp)) hcover
  | star _ hwhole ih =>
    obtain ⟨hms, hcover⟩ := hls.whole hwhole (by simp)
    exact .seq (ih hms.left) hcover
  | tuple _ hwhole ih =>
    obtain ⟨hms, hcover⟩ := hls.whole hwhole (by simp)
    exact .tuple (ih hms.left.tail) hcover
  | thunk _ hwhole ih =>
    obtain ⟨hms, hcover⟩ := hls.whole hwhole (by simp)
    exact .thunk (ih hms.left.tail.tail) hcover
  | func _ _ hwhole iht ihu =>
    obtain ⟨hms, hcover⟩ := hls.whole hwhole (by simp)
    exact .func (iht hms.left.tail) (ihu hms.right.tail.left) hcover

theorem Phrase.Spelled.located {φ : Phrase} (h : φ.Spelled V ls) (hls : Arranged text ls) :
    φ.Located (Span.Within text) := by
  induction h with
  | closed _ ih | atom _ ih => exact ih hls
  | int => exact .int (hls.span (by simp))
  | float => exact .float (hls.span (by simp))
  | true | false => exact .bool (hls.span (by simp))
  | name => exact .name (hls.span (by simp)) (hls.span (by simp))
  | none => simp [Phrase.Located]
  | one _ ih => simpa [Phrase.Located] using ih hls
  | more _ _ ihe ihes => exact List.forall_mem_cons.mpr ⟨ihe hls.left, ihes hls.right.tail⟩
  | oneBinding _ ih => exact List.forall_mem_singleton.mpr ⟨hls.span (by simp), ih hls.tail.tail⟩
  | moreBindings _ _ ihe ihbs =>
    exact List.forall_mem_cons.mpr ⟨⟨hls.span (by simp), ihe hls.left.tail.tail⟩,
      ihbs hls.right.tail⟩
  | letIn _ _ hwhole ihbs ihe =>
    obtain ⟨hms, hcover⟩ := hls.whole hwhole (by simp)
    have hbs := ihbs hms.left.tail
    exact .letIn (fun b hb => (hbs b hb).1) (fun b hb => (hbs b hb).2) (ihe hms.right.tail) hcover
  | call _ _ hwhole ihf ihes =>
    obtain ⟨hms, hcover⟩ := hls.whole hwhole (by simp)
    exact .call (ihf hms.left) (ihes hms.right.tail.left) hcover
  | select _ _ hwhole ih =>
    obtain ⟨hms, hcover⟩ := hls.whole hwhole (by simp)
    exact .select (ih hms.left) hcover
  | builtin ht hwhole =>
    obtain ⟨hms, hcover⟩ := hls.whole hwhole (by simp)
    exact .builtin (hms.span (by simp)) (ht.located hms.left.tail.tail) hcover
  | tuple _ hwhole ih =>
    obtain ⟨hms, hcover⟩ := hls.whole hwhole (by simp)
    exact .tuple (ih hms.left.tail) hcover
  | delay _ hwhole ih =>
    obtain ⟨hms, hcover⟩ := hls.whole hwhole (by simp)
    exact .delay (ih hms.left.tail.tail) hcover
  | lambda ht _ hwhole ihe =>
    obtain ⟨hms, hcover⟩ := hls.whole hwhole (by simp)
    exact .lambda (hms.span (by simp)) (ht.located hms.left.tail.tail.tail)
      (ihe hms.right.tail.left) hcover
  | paren _ hwhole ih =>
    obtain ⟨hms, hcover⟩ := hls.whole hwhole (by simp)
    exact (ih hms.left.tail).withSpan hcover
  | intrinsic ht hwhole =>
    obtain ⟨hms, hcover⟩ := hls.whole hwhole (by simp)
    exact .intrinsic (ht.located hms.tail.tail.tail) hcover

theorem located_of_parse {source : String} {tree : Tree} (h : parse source = .ok tree) :
    tree.Located (Span.Within source.toList) :=
  (spelled_treeOf (parse_ok.mp h).2).located (lex_within source).1

theorem within_of_parse {source : String} {faults : List SyntaxFault}
    (h : parse source = .error faults) :
    ∀ f ∈ faults, f.span.Within source.toList := by
  obtain ⟨hlexemes, hlexical⟩ := lex_within source
  have hfaults :
      ∀ f ∈ (lex source).faults.map SyntaxFault.lexical, f.span.Within source.toList := by
    simpa [SyntaxFault.span] using hlexical
  have hat : ∀ left, (faultAt (lex source).lexemes (byteLength source.toList) left).span.Within
      source.toList := by
    intro left
    unfold faultAt
    split
    · rename_i l hl
      exact hlexemes.within l (List.mem_of_getElem? hl)
    · exact ⟨boundary_end, le_rfl, boundary_end⟩
  delta parse at h
  cases htree : treeOf (lex source).lexemes with
  | ok e =>
    simp only [htree] at h
    split at h <;> cases h
    exact hfaults
  | error left =>
    simp only [htree] at h
    cases h
    exact List.forall_mem_append.mpr ⟨hfaults, List.forall_mem_singleton.mpr (hat left)⟩

/-- A tree without a meaning is blamed on a span with the property `P`. -/
abbrev Blames {α : Type} (P : Span → Prop) (x : Except Meaningless α) : Prop :=
  FailsAs (fun m => P m.span) x

theorem blames_typed {α : Type} {s : Span} (hs : P s) (r : Except TypeFault α) :
    Blames P (typed s r) :=
  FailsAs.mapError fun _ _ => hs

theorem blames_toTys {ts : List TypeTree} (h : ∀ t ∈ ts, Blames P t.toTy) :
    Blames P (TypeTree.toTys ts) := by
  induction ts with
  | nil => exact failsAs_ok
  | cons t ts ih =>
    unfold TypeTree.toTys
    refine (h t (by simp)).bind fun u => ?_
    exact (ih fun t ht => h t (by simp [ht])).bind fun us => failsAs_ok

theorem TypeTree.Located.blames {t : TypeTree} (h : t.Located P) : Blames P t.toTy := by
  induction t with
  | named x s =>
    cases h with
    | named hx _ =>
      unfold TypeTree.toTy
      split
      · exact failsAs_ok
      · exact failsAs_error hx
  | tuple ts s ih =>
    cases h with
    | tuple hts _ =>
      unfold TypeTree.toTy
      exact (blames_toTys fun t ht => ih t ht (hts t ht)).bind fun us => failsAs_ok
  | seq t s ih =>
    cases h with
    | seq ht _ =>
      unfold TypeTree.toTy
      exact (ih ht).bind fun u => failsAs_ok
  | func t r s iht ihr =>
    cases h with
    | func ht hr _ =>
      unfold TypeTree.toTy
      exact (iht ht).bind fun u => (ihr hr).bind fun v => failsAs_ok
  | thunk t s ih =>
    cases h with
    | thunk ht _ =>
      unfold TypeTree.toTy
      exact (ih ht).bind fun u => failsAs_ok
  | placed t x allEqual s ih =>
    cases h with
    | placed ht hx _ =>
      unfold TypeTree.toTy
      split
      · exact (ih ht).bind fun u => failsAs_ok
      · exact failsAs_error hx

theorem blames_nameExpr {scope : Scope} {x : Ident} (hx : P x.span) :
    Blames P (nameExpr scope x) := by
  unfold nameExpr
  split
  · exact failsAs_ok
  · split
    · exact failsAs_error hx
    · split <;> exact failsAs_error hx

theorem blames_toExprs {scope : Scope} {es : List Tree} (h : ∀ e ∈ es, Blames P (e.toExpr scope)) :
    Blames P (Tree.toExprs scope es) := by
  induction es with
  | nil => exact failsAs_ok
  | cons e es ih =>
    unfold Tree.toExprs
    refine (h e (by simp)).bind fun a => ?_
    exact (ih fun e he => h e (by simp [he])).bind fun as => failsAs_ok

theorem blames_toLocals {scope : Scope} {bs : List (Ident × Tree)}
    (h : ∀ b ∈ bs, ∀ scope, Blames P (b.2.toExpr scope)) : Blames P (Tree.toLocals scope bs) := by
  induction bs generalizing scope with
  | nil => exact failsAs_ok
  | cons b bs ih =>
    unfold Tree.toLocals
    refine (h b (by simp) scope).bind fun a => ?_
    exact (ih fun b hb => h b (by simp [hb])).bind fun r => failsAs_ok

theorem Tree.Located.blames {tree : Tree} {scope : Scope} (h : tree.Located P) :
    Blames P (tree.toExpr scope) := by
  induction tree generalizing scope with
  | int | float | bool => exact failsAs_ok
  | name x s =>
    cases h with
    | name hx _ => exact blames_nameExpr hx
  | builtin x t s =>
    cases h with
    | builtin hx ht hs =>
      unfold Tree.toExpr
      split
      · exact ht.blames.bind fun u => blames_typed hs _
      · exact failsAs_error hx
  | tuple es s ih =>
    cases h with
    | tuple hes _ =>
      unfold Tree.toExpr
      exact (blames_toExprs fun e he => ih e he (hes e he)).bind fun as => failsAs_ok
  | call f es s ihf ihes =>
    cases h with
    | call hf hes hs =>
      unfold Tree.toExpr
      refine (blames_toExprs fun e he => ihes e he (hes e he)).bind fun as => ?_
      split
      · exact blames_typed hs _
      · exact (ihf hf).bind fun g => blames_typed hs _
  | select e i s ih =>
    cases h with
    | select he hs =>
      unfold Tree.toExpr
      exact (ih he).bind fun a => blames_typed hs _
  | lambda p e s ih =>
    cases h with
    | delay he _ =>
      unfold Tree.toExpr
      exact (ih he).bind fun a => failsAs_ok
    | lambda _ ht he _ =>
      unfold Tree.toExpr
      exact ht.blames.bind fun u => (ih he).bind fun a => failsAs_ok
  | letIn bs e s ihbs ihe =>
    cases h with
    | letIn _ hbs he _ =>
      unfold Tree.toExpr
      exact (blames_toLocals fun b hb scope => ihbs b hb (hbs b hb)).bind fun r =>
        (ihe he).bind fun a => failsAs_ok
  | intrinsic uri t s =>
    cases h with
    | intrinsic ht _ =>
      unfold Tree.toExpr
      exact ht.blames.bind fun u => failsAs_ok

theorem within_of_read {source : String} {fault : Fault} (h : read source = .error fault) :
    ∀ d ∈ fault.diagnostics, ∀ s, d.span = some s → s.Within source.toList := by
  unfold read at h
  cases hparse : parse source with
  | error faults =>
    rw [hparse] at h
    cases h
    simpa [Fault.diagnostics] using within_of_parse hparse
  | ok tree =>
    rw [hparse] at h
    have hblames := FailsAs.mapError (R := fun fault => ∀ d ∈ fault.diagnostics, ∀ s, d.span =
      some s → s.Within source.toList) (k := Fault.meaningless) (x := tree.toExpr []) ?_
    · exact hblames fault h
    · simpa [Fault.diagnostics, Meaningless.diagnostic] using (located_of_parse hparse).blames

end Source

end TwoTier

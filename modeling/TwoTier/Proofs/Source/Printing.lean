import TwoTier.Proofs.Elaboration
import TwoTier.Proofs.Source.Lexing
import TwoTier.Proofs.Source.Reading

/-! # Printed expressions are read back

An expression that some text means is printed as a text that means the same expression.
-/

namespace TwoTier

open Source

def Ty.isBare : Ty → Bool
  | .placed .. => false
  | _ => true

mutual

/-- What is placed without braces, as one value for all, is not placed already. -/
def Ty.isLegible : Ty → Bool
  | .scalar _ => true
  | .tuple ts => Ty.allLegible ts
  | .seq t => t.isLegible
  | .func p r => p.isLegible && r.isLegible
  | .thunk r => r.isLegible
  | .placed m _ e => (!e || m.isBare) && m.isLegible

def Ty.allLegible : List Ty → Bool
  | [] => true
  | t :: ts => t.isLegible && Ty.allLegible ts

end

theorem Ty.allLegible_iff {ts : List Ty} :
    Ty.allLegible ts = true ↔ ∀ t ∈ ts, t.isLegible = true := by
  induction ts with
  | nil => simp [Ty.allLegible]
  | cons t ts ih => simp [Ty.allLegible, ih]

/-- Types that have a text: legible ones, without sequences of placed values. -/
inductive Ty.Writable : Ty → Prop where
  | scalar (k : Scalar) : Writable (.scalar k)
  | tuple {ts : List Ty} (h : ∀ t ∈ ts, Writable t) : Writable (.tuple ts)
  | seq {t : Ty} (h : Writable t) (ht : t.isBare = true) : Writable (.seq t)
  | func {p r : Ty} (hp : Writable p) (hr : Writable r) : Writable (.func p r)
  | thunk {r : Ty} (h : Writable r) : Writable (.thunk r)
  | placed {m : Ty} {p : Placement} {e : Bool} (h : Writable m) (hm : e = true → m.isBare = true)
      (he : p = .coordinator → e = true) : Writable (.placed m p e)

theorem Ty.texts_eq_map (ts : List Ty) : Ty.texts ts = ts.map Ty.text := by
  induction ts with
  | nil => rfl
  | cons t ts ih => rw [Ty.texts, ih, List.map_cons]

namespace Source

def TypeTree.isBare : TypeTree → Bool
  | .placed .. => false
  | _ => true

mutual

/-- No part of the type is placed twice. -/
def TypeTree.oncePlaced : TypeTree → Bool
  | .named .. => true
  | .tuple ts _ => TypeTree.allOncePlaced ts
  | .seq t _ => t.oncePlaced
  | .func p r _ => p.oncePlaced && r.oncePlaced
  | .thunk r _ => r.oncePlaced
  | .placed m .. => m.isBare && m.oncePlaced

def TypeTree.allOncePlaced : List TypeTree → Bool
  | [] => true
  | t :: ts => t.oncePlaced && TypeTree.allOncePlaced ts

end

theorem TypeTree.allOncePlaced_iff {ts : List TypeTree} :
    TypeTree.allOncePlaced ts = true ↔ ∀ t ∈ ts, t.oncePlaced = true := by
  induction ts with
  | nil => simp [TypeTree.allOncePlaced]
  | cons t ts ih => simp [TypeTree.allOncePlaced, ih]

theorem isBare_toTy {t : TypeTree} {u : Ty} (h : t.toTy = .ok u) : u.isBare = t.isBare := by
  cases t with
  | named =>
    obtain ⟨k, -, rfl⟩ := toTy_named.mp h
    rfl
  | tuple =>
    obtain ⟨us, -, rfl⟩ := toTy_tuple.mp h
    rfl
  | seq =>
    obtain ⟨u, -, rfl⟩ := toTy_seq.mp h
    rfl
  | func =>
    obtain ⟨u, -, v, -, rfl⟩ := toTy_func.mp h
    rfl
  | thunk =>
    obtain ⟨u, -, rfl⟩ := toTy_thunk.mp h
    rfl
  | placed =>
    obtain ⟨p, -, u, -, rfl⟩ := toTy_placed.mp h
    rfl

theorem isLegible_of_oncePlaced {t : TypeTree} {u : Ty} (h : t.oncePlaced = true)
    (hu : t.toTy = .ok u) :
    u.isLegible = true := by
  induction t generalizing u with
  | named =>
    obtain ⟨k, -, rfl⟩ := toTy_named.mp hu
    rfl
  | tuple ts span ih =>
    obtain ⟨us, hus, rfl⟩ := toTy_tuple.mp hu
    refine Ty.allLegible_iff.mpr fun v hv => ?_
    obtain ⟨t, ht, htv⟩ := forall₂_mem hus.flip hv
    exact ih t ht (TypeTree.allOncePlaced_iff.mp h t ht) htv
  | seq t span ih =>
    obtain ⟨v, hv, rfl⟩ := toTy_seq.mp hu
    rw [Ty.isLegible, ih h hv]
  | func p r span ihp ihr =>
    obtain ⟨v, hv, w, hw, rfl⟩ := toTy_func.mp hu
    simp only [TypeTree.oncePlaced, Bool.and_eq_true] at h
    simp [Ty.isLegible, ihp h.1 hv, ihr h.2 hw]
  | thunk r span ih =>
    obtain ⟨v, hv, rfl⟩ := toTy_thunk.mp hu
    rw [Ty.isLegible, ih h hv]
  | placed m x e span ih =>
    obtain ⟨p, -, v, hv, rfl⟩ := toTy_placed.mp hu
    simp only [TypeTree.oncePlaced, Bool.and_eq_true] at h
    simp [Ty.place, Ty.isLegible, isBare_toTy hv, h.1, ih h.2 hv]

variable {V : Vocabulary} {ls : List Lexeme}

/-- Stars stand behind bare types only. -/
def TypePhrase.MeansWritable : TypePhrase → Prop
  | .type t => ∀ u, t.toTy = .ok u → u.isLegible = true → u.Writable
  | .sequence t | .base t => t.isBare = true ∧ ∀ u, t.toTy = .ok u → u.isLegible = true → u.Writable
  | .types ts => ∀ t ∈ ts, ∀ u, t.toTy = .ok u → u.isLegible = true → u.Writable

theorem TypePhrase.Spelled.writable {φ : TypePhrase} (h : φ.Spelled V ls) : φ.MeansWritable := by
  have place {m : Ty} {p : Placement} {e : Bool} (hm : m.isLegible = true → m.Writable)
      (h : (m.place p e).isLegible = true) : (m.place p e).Writable := by
    simp only [Ty.place, Ty.isLegible, Bool.and_eq_true, Bool.or_eq_true] at h
    exact .placed (hm h.2) (fun he => h.1.resolve_left (by simp [he])) (by rintro rfl; simp)
  induction h with
  | each _ _ _ ih =>
    intro u hu hlegible
    obtain ⟨p, -, m, hm, rfl⟩ := toTy_placed.mp hu
    exact place (ih m hm) hlegible
  | plain _ ih => exact ih.2
  | placed _ _ _ ih =>
    intro u hu hlegible
    obtain ⟨p, -, m, hm, rfl⟩ := toTy_placed.mp hu
    exact place (ih.2 m hm) hlegible
  | base _ ih => exact ih
  | star _ _ ih =>
    refine ⟨rfl, fun u hu hlegible => ?_⟩
    obtain ⟨v, hv, rfl⟩ := toTy_seq.mp hu
    exact .seq (ih.2 v hv hlegible) (isBare_toTy hv ▸ ih.1)
  | named =>
    refine ⟨rfl, fun u hu _ => ?_⟩
    obtain ⟨k, -, rfl⟩ := toTy_named.mp hu
    exact .scalar k
  | tuple _ _ ih =>
    refine ⟨rfl, fun u hu hlegible => ?_⟩
    obtain ⟨us, hus, rfl⟩ := toTy_tuple.mp hu
    refine .tuple fun v hv => ?_
    obtain ⟨t, ht, htv⟩ := forall₂_mem hus.flip hv
    exact ih t ht v htv (Ty.allLegible_iff.mp hlegible v hv)
  | thunk _ _ ih =>
    refine ⟨rfl, fun u hu hlegible => ?_⟩
    obtain ⟨v, hv, rfl⟩ := toTy_thunk.mp hu
    exact .thunk (ih v hv hlegible)
  | func _ _ _ iht ihu =>
    refine ⟨rfl, fun u hu hlegible => ?_⟩
    obtain ⟨v, hv, w, hw, rfl⟩ := toTy_func.mp hu
    simp only [Ty.isLegible, Bool.and_eq_true] at hlegible
    exact .func (iht v hv hlegible.1) (ihu w hw hlegible.2)
  | none => simp [MeansWritable]
  | one _ ih => simpa [MeansWritable] using ih
  | more _ _ iht ihu =>
    intro t ht
    obtain rfl | ht := List.mem_cons.mp ht
    · exact iht
    · exact ihu t ht

def listLexemes {α : Type} (P : α → Language Lexeme) (as : List α) : Language Lexeme :=
  {ls | Parser.Listed (fun a ls => ls ∈ P a) as ls}

theorem listLexemes_mono {α : Type} {P Q : α → Language Lexeme} {as : List α}
    (h : ∀ a ∈ as, P a ≤ Q a) :
    listLexemes P as ≤ listLexemes Q as := by
  intro ls hls
  induction hls with
  | nil => exact .nil
  | one ha => exact .one (h _ (by simp) ha)
  | more ha _ ih => exact .more (h _ (by simp) ha) (ih fun a ha => h a (by simp [ha]))

theorem lexes_commas {α : Type} {f : α → String} {P : α → Language Lexeme} {as : List α}
    {sep : String} (hsep : Cuts sep (single (.symbol .comma))) (hbegins : Begins sep = true)
    (h : ∀ a ∈ as, Lexes (f a) (P a)) :
    Lexes (String.intercalate sep (as.map f)) (listLexemes P as) := by
  induction as with
  | nil =>
    refine (cuts_blank (s := "") rfl).lexes.mono ?_
    rintro _ rfl
    exact .nil
  | cons a as ih =>
    cases as with
    | nil =>
      rw [List.map_singleton, String.intercalate_singleton]
      exact (h a (by simp)).mono fun ls hls => .one hls
    | cons b as =>
      rw [List.map_cons, List.map_cons, String.intercalate_cons_cons, ← List.map_cons]
      have htail := ih fun c hc => h c (by simp [hc])
      refine (((h a (by simp)).append_cuts hbegins hsep).append_lexes htail).mono ?_
      rw [mul_assoc]
      rintro _ ⟨ks, hks, _, ⟨_, ⟨s, rfl⟩, ms, hms, rfl⟩, rfl⟩
      exact .more hks hms

theorem lexes_text {P : Ty → Language Lexeme}
    (scalar : ∀ k : Scalar, single (.name k.name) ≤ P (.scalar k))
    (tuple : ∀ ts,
      single (.symbol .less) * (listLexemes P ts * single (.symbol .greater)) ≤ P (.tuple ts))
    (seq : ∀ t, P t * single (.symbol .star) ≤ P (.seq t))
    (func : ∀ p r, single (.symbol .parenL) *
      (P p * (single (.symbol .arrow) * (P r * single (.symbol .parenR)))) ≤ P (.func p r))
    (thunk : ∀ r, single (.symbol .parenL) *
      (single (.symbol .arrow) * (P r * single (.symbol .parenR))) ≤ P (.thunk r))
    (equal : ∀ m (p : Placement),
      P m * (single (.symbol .atSign) * single (.name p.text)) ≤ P (.placed m p true))
    (each : ∀ m (p : Placement), single (.symbol .braceL) * (P m * (single (.symbol .braceR) *
      (single (.symbol .atSign) * single (.name p.text)))) ≤ P (.placed m p false))
    (t : Ty) : Lexes t.text (P t) := by
  have hclose : Cuts ")" (single (.symbol .parenR)) := cuts_sign rfl
  induction t with
  | scalar k =>
    have hname : isName k.name = true := by cases k <;> decide
    exact (lexes_name hname).mono (scalar k)
  | tuple ts ih =>
    have hless : Cuts "<" (single (.symbol .less)) := cuts_sign rfl
    have hcomma : Cuts "," (single (.symbol .comma)) := cuts_sign rfl
    have hgreater : Cuts ">" (single (.symbol .greater)) := cuts_sign rfl
    rw [Ty.text, Ty.texts_eq_map]
    refine ((hless.append_lexes (lexes_commas hcomma rfl ih)).append_cuts rfl hgreater).lexes.mono
      ?_
    simpa only [mul_assoc] using tuple ts
  | seq t ih =>
    have hstar : Cuts "*" (single (.symbol .star)) := cuts_sign rfl
    exact (ih.append_cuts rfl hstar).lexes.mono (seq t)
  | func p r ihp ihr =>
    have hopen : Cuts "(" (single (.symbol .parenL)) := cuts_sign rfl
    have harrow : Cuts " -> " (single (.symbol .arrow)) := cuts_sign rfl
    refine ((((hopen.append_lexes ihp).append_cuts rfl harrow).append_lexes ihr).append_cuts rfl
      hclose).lexes.mono ?_
    simpa only [mul_assoc] using func p r
  | thunk r ih =>
    have hopen : Cuts "( -> " (single (.symbol .parenL) * single (.symbol .arrow)) := cuts_signs rfl
    refine ((hopen.append_lexes ih).append_cuts rfl hclose).lexes.mono ?_
    simpa only [mul_assoc] using thunk r
  | placed m p e ih =>
    have hname : isName p.text = true := by cases p <;> decide
    cases e with
    | true =>
      have hat : Cuts "@" (single (.symbol .atSign)) := cuts_sign rfl
      refine ((ih.append_cuts rfl hat).append_lexes (lexes_name hname)).mono ?_
      simpa only [mul_assoc] using equal m p
    | false =>
      have hopen : Cuts "\x7b" (single (.symbol .braceL)) := cuts_sign rfl
      have hat : Cuts "\x7d@" (single (.symbol .braceR) * single (.symbol .atSign)) :=
        cuts_signs rfl
      refine (((hopen.append_lexes ih).append_cuts rfl hat).append_lexes (lexes_name hname)).mono ?_
      simpa only [mul_assoc] using each m p

/-- The lexemes that mean a type. -/
def typeLexemes (t : Ty) : Language Lexeme :=
  {ls | ∃ T : TypeTree, T.toTy = .ok t ∧ (TypePhrase.type T).Spelled .any ls ∧
    (t.isBare = true → (TypePhrase.sequence T).Spelled .any ls)}

theorem spelled_types {ts : List Ty} (h : ls ∈ listLexemes typeLexemes ts) :
    ∃ Ts, (TypePhrase.types Ts).Spelled .any ls ∧
    List.Forall₂ (fun T t => T.toTy = .ok t) Ts ts := by
  induction h with
  | nil => exact ⟨[], .none, .nil⟩
  | one h =>
    obtain ⟨T, hT, hspelled, -⟩ := h
    exact ⟨[T], .one hspelled, .cons hT .nil⟩
  | more h _ ih =>
    obtain ⟨T, hT, hspelled, -⟩ := h
    obtain ⟨Us, hUs, hforall⟩ := ih
    cases hforall with
    | cons hU hforall => exact ⟨_, .more hspelled hUs, .cons hT (.cons hU hforall)⟩

theorem lexes_type {t : Ty} (h : t.Writable) : Lexes t.text (typeLexemes t) := by
  have base {t : Ty} {ls : List Lexeme} (T : TypeTree) (hT : T.toTy = .ok t)
      (h : (TypePhrase.base T).Spelled .any ls) :
      ls ∈ typeLexemes t := ⟨T, hT, .plain (.base h), fun _ => .base h⟩
  have named (p : Placement) : Placement.ofName? p.text = some p := by cases p <;> rfl
  refine (lexes_text (P := fun t => {ls | t.Writable →
    ls ∈ typeLexemes t}) ?_ ?_ ?_ ?_ ?_ ?_ ?_ t).mono fun ls hls => hls h
  · rintro k _ ⟨s, rfl⟩ -
    exact base (.named ⟨k.name, s⟩ s) (toTy_named.mpr ⟨k, by cases k <;> rfl, rfl⟩) (.named trivial)
  · rintro ts _ ⟨_, ⟨s₁, rfl⟩, _, ⟨ls, hls, _, ⟨s₂, rfl⟩, rfl⟩, rfl⟩ h
    cases h with
    | tuple hts =>
      have hle : ∀ t ∈ ts, {ls | t.Writable → ls ∈ typeLexemes t} ≤ typeLexemes t :=
        fun t ht ls hls => hls (hts t ht)
      obtain ⟨Ts, hTs, hforall⟩ := spelled_types (listLexemes_mono hle hls)
      exact base _ (toTy_tuple.mpr ⟨_, hforall, rfl⟩) (.tuple hTs rfl)
  · rintro t _ ⟨ls, hls, _, ⟨s, rfl⟩, rfl⟩ h
    cases h with
    | seq h ht =>
      obtain ⟨T, hT, -, hseq⟩ := hls h
      have hstar := TypePhrase.Spelled.star (s := s) (hseq ht) rfl
      exact ⟨_, toTy_seq.mpr ⟨_, hT, rfl⟩, .plain hstar, fun _ => hstar⟩
  · rintro p r _ ⟨_, ⟨s₁, rfl⟩, _,
      ⟨ls, hls, _, ⟨_, ⟨s₂, rfl⟩, _, ⟨ms, hms, _, ⟨s₃, rfl⟩, rfl⟩, rfl⟩, rfl⟩, rfl⟩ h
    cases h with
    | func hp hr =>
      obtain ⟨P, hP, hp, -⟩ := hls hp
      obtain ⟨R, hR, hr, -⟩ := hms hr
      exact base _ (toTy_func.mpr ⟨_, hP, _, hR, rfl⟩) (.func hp hr rfl)
  · rintro r _ ⟨_, ⟨s₁, rfl⟩, _, ⟨_, ⟨s₂, rfl⟩, _, ⟨ls, hls, _, ⟨s₃, rfl⟩, rfl⟩, rfl⟩, rfl⟩ h
    cases h with
    | thunk h =>
      obtain ⟨R, hR, hr, -⟩ := hls h
      exact base _ (toTy_thunk.mpr ⟨_, hR, rfl⟩) (.thunk hr rfl)
  · rintro m p _ ⟨ls, hls, _, ⟨_, ⟨s₁, rfl⟩, _, ⟨s₂, rfl⟩, rfl⟩, rfl⟩ h
    cases h with
    | placed h hm =>
      obtain ⟨M, hM, -, hseq⟩ := hls h
      exact ⟨_, toTy_placed.mpr ⟨p, named p, m, hM, by simp [Ty.place]⟩,
        .placed (hseq (hm rfl)) trivial rfl, by simp [Ty.isBare]⟩
  · rintro m p _ ⟨_, ⟨s₁, rfl⟩, _,
      ⟨ls, hls, _, ⟨_, ⟨s₂, rfl⟩, _, ⟨_, ⟨s₃, rfl⟩, _, ⟨s, rfl⟩, rfl⟩, rfl⟩, rfl⟩, rfl⟩ h
    cases h with
    | placed h _ he =>
      have hp : p ≠ .coordinator := fun hp => absurd (he hp) (by decide)
      obtain ⟨M, hM, hspelled, -⟩ := hls h
      exact ⟨_, toTy_placed.mpr ⟨p, named p, m, hM, by simp [Ty.place, hp]⟩,
        .each hspelled trivial rfl, by simp [Ty.isBare]⟩

mutual

/-- Neither intrinsics with their types nor float literals, and nothing is placed twice. -/
def Tree.isPlain : Tree → Bool
  | .int .. | .bool .. | .name .. => true
  | .float .. | .intrinsic .. => false
  | .builtin _ t _ => t.oncePlaced
  | .tuple es _ => Tree.allPlain es
  | .call f as _ => f.isPlain && Tree.allPlain as
  | .select e _ _ => e.isPlain
  | .lambda (some (_, t)) e _ => t.oncePlaced && e.isPlain
  | .lambda none e _ => e.isPlain
  | .letIn bs e _ => Tree.bindingsPlain bs && e.isPlain

def Tree.allPlain : List Tree → Bool
  | [] => true
  | e :: es => e.isPlain && Tree.allPlain es

def Tree.bindingsPlain : List (Ident × Tree) → Bool
  | [] => true
  | (_, e) :: bs => e.isPlain && Tree.bindingsPlain bs

end

theorem Tree.allPlain_iff {es : List Tree} :
    Tree.allPlain es = true ↔ ∀ e ∈ es, e.isPlain = true := by
  induction es with
  | nil => simp [Tree.allPlain]
  | cons e es ih => simp [Tree.allPlain, ih]

theorem Tree.isPlain_withSpan (e : Tree) (s : Span) : (e.withSpan s).isPlain = e.isPlain := by
  cases e with
  | lambda p e => rcases p with _ | ⟨x, t⟩ <;> rfl
  | _ => rfl

theorem toExpr_withSpan {e : Tree} {s : Span} {scope : Scope} {r : Expr} :
    (e.withSpan s).toExpr scope = .ok r ↔ e.toExpr scope = .ok r := by
  cases e with
  | int | float | bool => rfl
  | name => simp only [Tree.withSpan, toExpr_name]
  | builtin => simp only [Tree.withSpan, toExpr_builtin]
  | tuple => simp only [Tree.withSpan, toExpr_tuple]
  | call => simp only [Tree.withSpan, toExpr_call]
  | select => simp only [Tree.withSpan, toExpr_select]
  | lambda p => rcases p with _ | ⟨x, t⟩ <;> rfl
  | letIn => simp only [Tree.withSpan, toExpr_letIn]
  | intrinsic => simp only [Tree.withSpan, toExpr_intrinsic]

def scopeAfter (scope : Scope) : List (String × Expr) → Scope
  | [] => scope
  | (x, e) :: ls => scopeAfter ((x, e.ty) :: scope) ls

/-- Locals, each with the scope that it is in. -/
def localsIn (scope : Scope) : List (String × Expr) → List (Scope × String × Expr)
  | [] => []
  | (x, e) :: ls => (scope, x, e) :: localsIn ((x, e.ty) :: scope) ls

theorem mem_of_localsIn {scope : Scope} {ks : List (String × Expr)} {l : Scope × String × Expr}
    (h : l ∈ localsIn scope ks) : l.2 ∈ ks := by
  induction ks generalizing scope with
  | nil => cases h
  | cons k ks ih =>
    obtain rfl | h := List.mem_cons.mp h
    · exact List.mem_cons_self
    · exact List.mem_cons_of_mem _ (ih h)

/-- Expressions that have a text in the scope. -/
inductive Written : Scope → Expr → Prop where

  | int {scope : Scope} {v : Int} : Whole.inRange v = true → Written scope (.lit (.int v) .int32)

  | bool {scope : Scope} {v : Bool} : Written scope (.lit (.bool v) .boolean)

  | ref {scope : Scope} {x : String} {t : Ty} :
      isName x = true → scope.lookup x = some t → Written scope (.ref x t)

  | builtin {scope : Scope} {b : Builtin} {t : Ty} : t.Writable → t.isNumeric = true →
      Written scope (.builtin b (.func (b.paramType t) t))

  | tuple {scope : Scope} {es : List Expr} : (∀ e ∈ es, Written scope e) →
      Written scope (.tuple es (.tuple (es.map Expr.ty)))

  | select {scope : Scope} {e : Expr} {i : Nat} {ts : List Ty} {t : Ty} :
      Written scope e → Whole.inRange i = true →
      e.ty = .tuple ts → ts[i]? = some t → Written scope (.select e i t)

  | intrinsic {scope : Scope} {op : Intrinsic} {a : Expr} {r : Ty} :
      scope.lookup op.uri = none → Written scope a →
      op.resultType a.ty = .ok r → Written scope (.call (.intrinsic op.uri (.func a.ty r)) a r)

  | apply {scope : Scope} {f a : Expr} {p r : Ty} :
      Written scope f → Written scope a → f.ty = .func p r →
      p.accepts a.ty = true → Written scope (.call f a r)

  | force {scope : Scope} {f : Expr} {r : Ty} :
      Written scope f → f.ty = .thunk r → Written scope (.force f r)

  | lambda {scope : Scope} {x : String} {t : Ty} {e : Expr} : isName x = true → t.Writable →
      Written ((x, t) :: scope) e → Written scope (.lambda (some x) e (.func t e.ty))

  | delay {scope : Scope} {e : Expr} :
      Written scope e → Written scope (.lambda none e (.thunk e.ty))

  | block {scope : Scope} {ls : List (String × Expr)} {r : Expr} :
      ls ≠ [] → (∀ l ∈ ls, isName l.1 = true) →
      (∀ l ∈ localsIn scope ls, Written l.1 l.2.2) → Written (scopeAfter scope ls) r →
      Written scope (.block ls r r.ty)

def Phrase.MeansWritten : Phrase → Prop
  | .expr e | .closed e | .atom e =>
    e.isPlain = true → ∀ scope r, e.toExpr scope = .ok r → Written scope r
  | .exprs es => ∀ e ∈ es, e.isPlain = true → ∀ scope r, e.toExpr scope = .ok r → Written scope r
  | .bindings bs =>
    bs ≠ [] ∧ (Tree.bindingsPlain bs = true → ∀ scope ks scope', Tree.toLocals scope bs =
      .ok (ks, scope') → scope' = scopeAfter scope ks ∧ ks.length = bs.length ∧
        (∀ l ∈ ks, isName l.1 = true) ∧ ∀ l ∈ localsIn scope ks, Written l.1 l.2.2)

theorem lookup_of_calledIntrinsic? {scope : Scope} {f : Tree} {op : Intrinsic}
    (h : calledIntrinsic? scope f = some op) : scope.lookup op.uri = none := by
  unfold calledIntrinsic? at h
  split at h
  · split at h
    · rename_i x _ hx
      have huri : op.uri = x.name := by simpa using List.find?_some h
      rw [huri]
      simpa using hx
    · cases h
  · cases h

theorem written_packed {scope : Scope} {es : List Expr} {a : Expr} (ha : packed es = some a)
    (h : ∀ e ∈ es, Written scope e) : Written scope a :=
  packed_cases ha h (.tuple h)

theorem written_phrase {φ : Phrase} (h : φ.Spelled V ls) (hvalid : ∀ l ∈ ls, l.token.Valid) :
    φ.MeansWritten := by
  induction h with
  | closed _ ih | atom _ ih | one _ ih => simpa [Phrase.MeansWritten] using ih hvalid
  | letIn hbs he hwhole ihb ihe =>
    subst hwhole
    intro hplain scope r hr
    simp only [Tree.isPlain, Bool.and_eq_true] at hplain
    obtain ⟨ks, scope', hks, e, he, rfl⟩ := toExpr_letIn.mp hr
    obtain ⟨hne, hbindings⟩ := ihb fun l hl => hvalid l (by simp [hl])
    obtain ⟨rfl, hlength, hnames, hlocals⟩ := hbindings hplain.1 scope ks scope' hks
    have hks : ks ≠ [] := by
      rw [← List.length_pos_iff, hlength]
      exact List.length_pos_iff.mpr hne
    have hblock : Expr.mkBlock ks e = .block ks e e.ty := by simp [Expr.mkBlock, hks]
    rw [hblock]
    exact .block hks hnames hlocals (ihe (fun l hl => hvalid l (by simp [hl])) hplain.2 _ _ he)
  | call _ _ hwhole ihf ihe =>
    subst hwhole
    intro hplain scope r hr
    simp only [Tree.isPlain, Bool.and_eq_true, Tree.allPlain_iff] at hplain
    obtain ⟨es, hes, hcalls⟩ := toExpr_call.mp hr
    have hargs : ∀ e ∈ es, Written scope e := by
      intro e he
      obtain ⟨T, hT, hTe⟩ := forall₂_mem hes.flip he
      exact ihe (fun l hl => hvalid l (by simp [hl])) T hT (hplain.2 T hT) scope e hTe
    have hfun := ihf (fun l hl => hvalid l (by simp [hl])) hplain.1 scope
    cases hcalls with
    | intrinsic hop ha hresult =>
      refine .intrinsic (lookup_of_calledIntrinsic? hop) ?_ hresult
      subst ha
      cases hpacked : packed es with
      | none => exact .tuple (by simp)
      | some a => exact written_packed hpacked hargs
    | apply _ hg ha hp hacc => exact .apply (hfun _ hg) (written_packed ha hargs) hp hacc
    | force _ hg ha hresult => exact .force (hfun _ hg) hresult
  | @select e i ls s₁ s₂ s₃ whole _ hi hwhole ih =>
    subst hwhole
    intro hplain scope r hr
    obtain ⟨e', he', ts, u, hts, hu, rfl⟩ := toExpr_select.mp hr
    have hrange : Whole.inRange i = true := hvalid ⟨.int i, s₂⟩ (by simp)
    have hnat : Whole.inRange (i.toNat : Int) = true := by
      simpa [Int.toNat_of_nonneg hi] using hrange
    exact .select (ih (fun l hl => hvalid l (by simp [hl])) hplain scope e' he') hnat hts hu
  | @int v s =>
    rintro - scope r ⟨⟩
    exact .int (hvalid ⟨.int v, s⟩ (by simp))
  | float => exact fun hplain => absurd hplain (by simp [Tree.isPlain])
  | true | false =>
    rintro - scope r ⟨⟩
    exact .bool
  | @name x s =>
    intro _ scope r hr
    obtain ⟨u, hu, rfl⟩ := toExpr_name.mp hr
    exact .ref (hvalid ⟨.name x, s⟩ (by simp)) hu
  | builtin ht _ =>
    intro hplain scope r hr
    obtain ⟨b, u, -, hu, hnumeric, rfl⟩ := toExpr_builtin.mp hr
    exact .builtin (ht.writable u hu (isLegible_of_oncePlaced hplain hu)) hnumeric
  | tuple _ hwhole ih =>
    subst hwhole
    intro hplain scope r hr
    obtain ⟨es, hes, rfl⟩ := toExpr_tuple.mp hr
    refine .tuple fun e he => ?_
    obtain ⟨T, hT, hTe⟩ := forall₂_mem hes.flip he
    exact ih (fun l hl => hvalid l (by simp [hl])) T hT
      (Tree.allPlain_iff.mp hplain T hT) scope e hTe
  | delay _ hwhole ih =>
    subst hwhole
    intro hplain scope r hr
    obtain ⟨e', he', rfl⟩ := toExpr_delay.mp hr
    exact .delay (ih (fun l hl => hvalid l (by simp [hl])) hplain scope e' he')
  | @lambda x t e ls ms s s₁ s₂ s₃ s₄ whole ht _ hwhole ih =>
    subst hwhole
    intro hplain scope r hr
    simp only [Tree.isPlain, Bool.and_eq_true] at hplain
    obtain ⟨u, hu, e', he', rfl⟩ := toExpr_lambda.mp hr
    have hx : isName x = true := hvalid ⟨.name x, s⟩ (by simp)
    have hwritable := ht.writable u hu (isLegible_of_oncePlaced hplain.1 hu)
    exact .lambda hx hwritable (ih (fun l hl => hvalid l (by simp [hl])) hplain.2 _ e' he')
  | paren _ hwhole ih =>
    subst hwhole
    intro hplain scope r hr
    rw [Tree.isPlain_withSpan] at hplain
    exact ih (fun l hl => hvalid l (by simp [hl])) hplain scope r (toExpr_withSpan.mp hr)
  | intrinsic => exact fun hplain => absurd hplain (by simp [Tree.isPlain])
  | none => simp [Phrase.MeansWritten]
  | more _ _ ihe ihf =>
    intro e he
    obtain rfl | he := List.mem_cons.mp he
    · exact ihe fun l hl => hvalid l (by simp [hl])
    · exact ihf (fun l hl => hvalid l (by simp [hl])) e he
  | @oneBinding x e ls s s₁ _ ih =>
    refine ⟨by simp, fun hplain scope ks scope' hks => ?_⟩
    simp only [Tree.bindingsPlain, Bool.and_true] at hplain
    obtain ⟨e', he', ks', hks', rfl⟩ := toLocals_cons.mp hks
    cases hks'
    have hx : isName x = true := hvalid ⟨.name x, s⟩ (by simp)
    have hwritten := ih (fun l hl => hvalid l (by simp [hl])) hplain scope e' he'
    exact ⟨rfl, rfl, by simpa using hx, by simpa [localsIn] using hwritten⟩
  | @moreBindings x e b bs ls ms s s₁ s₂ _ _ ihe ihb =>
    refine ⟨by simp, fun hplain scope ks scope' hks => ?_⟩
    rw [Tree.bindingsPlain, Bool.and_eq_true] at hplain
    obtain ⟨e', he', ks', hks', rfl⟩ := toLocals_cons.mp hks
    have hx : isName x = true := hvalid ⟨.name x, s⟩ (by simp)
    have hwritten := ihe (fun l hl => hvalid l (by simp [hl])) hplain.1 scope e' he'
    obtain ⟨hscope, hlength, hnames, hlocals⟩ :=
      (ihb fun l hl => hvalid l (by simp [hl])).2 hplain.2 _ ks' scope' hks'
    refine ⟨hscope, by simp [hlength], ?_, ?_⟩
    · exact List.forall_mem_cons.mpr ⟨hx, hnames⟩
    · exact List.forall_mem_cons.mpr ⟨hwritten, hlocals⟩

variable {scope : Scope} {e : Expr}

/-- Lexemes that mean an expression in the scope. -/
def exprLexemes (scope : Scope) (e : Expr) : Language Lexeme :=
  {ls | ∃ T : Tree, T.toExpr scope = .ok e ∧ (Phrase.expr T).Spelled .any ls}

def closedLexemes (scope : Scope) (e : Expr) : Language Lexeme :=
  {ls | ∃ T : Tree, T.toExpr scope = .ok e ∧ (Phrase.closed T).Spelled .any ls}

theorem closed_le_expr : closedLexemes scope e ≤ exprLexemes scope e := by
  rintro ls ⟨T, hT, h⟩
  exact ⟨T, hT, .closed h⟩

theorem spelled_exprs {es : List Expr} (h : ls ∈ listLexemes (closedLexemes scope) es) : ∃ Ts,
    (Phrase.exprs Ts).Spelled .any ls ∧ List.Forall₂ (fun T e => T.toExpr scope = .ok e) Ts es := by
  induction h with
  | nil => exact ⟨[], .none, .nil⟩
  | one h =>
    obtain ⟨T, hT, hspelled⟩ := closed_le_expr h
    exact ⟨[T], .one hspelled, .cons hT .nil⟩
  | more h _ ih =>
    obtain ⟨T, hT, hspelled⟩ := closed_le_expr h
    obtain ⟨Us, hUs, hforall⟩ := ih
    cases hforall with
    | cons hU hforall => exact ⟨_, .more hspelled hUs, .cons hT (.cons hU hforall)⟩

def localLexemes (l : Scope × String × Expr) : Language Lexeme :=
  single (.name l.2.1) * (single (.symbol .equals) * exprLexemes l.1 l.2.2)

theorem spelled_bindings {ks : List (String × Expr)} (hks : ks ≠ [])
    (h : ls ∈ listLexemes localLexemes (localsIn scope ks)) :
    ∃ b bs, (Phrase.bindings (b :: bs)).Spelled .any ls ∧
      Tree.toLocals scope (b :: bs) = .ok (ks, scopeAfter scope ks) := by
  induction ks generalizing scope ls with
  | nil => exact absurd rfl hks
  | cons k ks ih =>
    obtain ⟨x, e⟩ := k
    rw [localsIn] at h
    cases ks with
    | nil =>
      cases h with
      | one h =>
        obtain ⟨_, ⟨s, rfl⟩, _, ⟨_, ⟨s₁, rfl⟩, ls, ⟨T, hT, hspelled⟩, rfl⟩, rfl⟩ := h
        exact ⟨_, [], .oneBinding hspelled, toLocals_cons.mpr ⟨e, hT, [], rfl, rfl⟩⟩
    | cons k ks =>
      cases h with
      | more h htail =>
        obtain ⟨_, ⟨s, rfl⟩, _, ⟨_, ⟨s₁, rfl⟩, ls, ⟨T, hT, hspelled⟩, rfl⟩, rfl⟩ := h
        obtain ⟨b, bs, hbs, hlocals⟩ := ih (by simp) htail
        exact ⟨_, b :: bs, .moreBindings hspelled hbs, toLocals_cons.mpr ⟨e, hT, _, hlocals, rfl⟩⟩

theorem renderList_eq_map (es : List Expr) : Expr.renderList es = es.map (Expr.render true) := by
  induction es with
  | nil => rfl
  | cons e es ih => rw [Expr.renderList, ih, List.map_cons]

theorem renderLocals_eq_map (scope : Scope) (ks : List (String × Expr)) : Expr.renderLocals ks =
    (localsIn scope ks).map fun l => l.2.1 ++ " = " ++ l.2.2.render true := by
  induction ks generalizing scope with
  | nil => rfl
  | cons k ks ih => rw [Expr.renderLocals, ih, localsIn, List.map_cons]

theorem calledIntrinsic?_of_ok {T : Tree} (h : T.toExpr scope = .ok e) :
    calledIntrinsic? scope T = none := by
  cases T with
  | name x s =>
    obtain ⟨t, ht, -⟩ := toExpr_name.mp h
    simp [calledIntrinsic?, ht]
  | _ => rfl

theorem lexes_local {l : Scope × String × Expr} {text : String} (hx : isName l.2.1 = true)
    (h : Lexes text (exprLexemes l.1 l.2.2)) : Lexes (l.2.1 ++ " = " ++ text) (localLexemes l) := by
  have heq : Cuts " = " (single (.symbol .equals)) := cuts_sign rfl
  simpa [localLexemes, mul_assoc] using ((lexes_name hx).append_cuts rfl heq).append_lexes h

def headLexemes (x : String) (t : Ty) : Language Lexeme :=
  single (.symbol .parenL) *
    (single (.name x) * (single (.symbol .colon) * (typeLexemes t * single (.symbol .arrow))))

theorem cuts_lambdaHead {x arrow : String} {t r : Ty} (hx : isName x = true) (ht : t.Writable)
    (harrow : Cuts arrow (single (.symbol .arrow))) (h : Begins arrow = true) :
    Cuts (Expr.lambdaHead (some x) (.func t r) arrow) (headLexemes x t) := by
  have hparen : Cuts "(" (single (.symbol .parenL)) := cuts_sign rfl
  have hcolon : Cuts ": " (single (.symbol .colon)) := cuts_sign rfl
  simpa only [Expr.lambdaHead, headLexemes, mul_assoc]
    using (((hparen.append_lexes (lexes_name hx)).append_cuts rfl hcolon).append_lexes
    (lexes_type ht)).append_cuts h harrow

theorem cuts_delayHead {arrow : String} {r : Ty} (harrow : Cuts arrow (single (.symbol .arrow))) :
    Cuts (Expr.lambdaHead none (.thunk r) arrow)
    (single (.symbol .parenL) * single (.symbol .arrow)) := by
  have hparen : Cuts "(" (single (.symbol .parenL)) := cuts_sign rfl
  exact hparen.append harrow

theorem lexes_lambda {x head body : String} {t : Ty} (hhead : Cuts head (headLexemes x t))
    (hbody : Lexes body (exprLexemes ((x, t) :: scope) e)) :
    Lexes (head ++ body ++ ")") (closedLexemes scope (.lambda (some x) e (.func t e.ty))) := by
  have hparen : Cuts ")" (single (.symbol .parenR)) := cuts_sign rfl
  refine ((hhead.append_lexes hbody).append_cuts rfl hparen).lexes.mono ?_
  simp only [headLexemes, mul_assoc]
  rintro _ ⟨_, ⟨s₁, rfl⟩, _, ⟨_, ⟨s, rfl⟩, _, ⟨_, ⟨s₂, rfl⟩, _, ⟨ls, ⟨P, hP, hp, -⟩, _,
    ⟨_, ⟨s₃, rfl⟩, _, ⟨ms, ⟨T, hT, hspelled⟩, _, ⟨s₄, rfl⟩, rfl⟩, rfl⟩, rfl⟩, rfl⟩, rfl⟩, rfl⟩
  exact ⟨_, toExpr_lambda.mpr ⟨t, hP, e, hT, rfl⟩, .atom (.lambda hp hspelled rfl)⟩

theorem lexes_delay {head body : String}
    (hhead : Cuts head (single (.symbol .parenL) * single (.symbol .arrow)))
    (hbody : Lexes body (exprLexemes scope e)) :
    Lexes (head ++ body ++ ")") (closedLexemes scope (.lambda none e (.thunk e.ty))) := by
  have hparen : Cuts ")" (single (.symbol .parenR)) := cuts_sign rfl
  refine ((hhead.append_lexes hbody).append_cuts rfl hparen).lexes.mono ?_
  simp only [mul_assoc]
  rintro _ ⟨_, ⟨s₁, rfl⟩, _, ⟨_, ⟨s₂, rfl⟩, _, ⟨ls, ⟨T, hT, hspelled⟩, _, ⟨s₃, rfl⟩, rfl⟩, rfl⟩,
    rfl⟩
  exact ⟨_, toExpr_delay.mpr ⟨e, hT, rfl⟩, .atom (.delay hspelled rfl)⟩

theorem lexes_let {ks : List (String × Expr)} {opening locals middle result : String}
    (hks : ks ≠ []) (hopening : Cuts opening (single (.symbol .kwLet)))
    (hlocals : Lexes locals (listLexemes localLexemes (localsIn scope ks)))
    (hmiddle : Cuts middle (single (.symbol .kwIn))) (h : Begins middle = true)
    (hresult : Lexes result (exprLexemes (scopeAfter scope ks) e)) :
    Lexes (opening ++ locals ++ middle ++ result) (exprLexemes scope (.block ks e e.ty)) := by
  refine (((hopening.append_lexes hlocals).append_cuts h hmiddle).append_lexes hresult).mono ?_
  simp only [mul_assoc]
  rintro _ ⟨_, ⟨s₁, rfl⟩, _, ⟨ls, hls, _, ⟨_, ⟨s₂, rfl⟩, ms, ⟨T, hT, hspelled⟩, rfl⟩, rfl⟩, rfl⟩
  obtain ⟨b, bs, hbs, hks'⟩ := spelled_bindings hks hls
  have hblock : Expr.mkBlock ks e = .block ks e e.ty := by simp [Expr.mkBlock, hks]
  exact ⟨_, toExpr_letIn.mpr ⟨ks, _, hks', e, hT, hblock.symm⟩, .letIn hbs hspelled rfl⟩

theorem lexes_paren {text : String} (h : Lexes text (exprLexemes scope e)) :
    Lexes ("(" ++ text ++ ")") (closedLexemes scope e) := by
  have hopen : Cuts "(" (single (.symbol .parenL)) := cuts_sign rfl
  have hclose : Cuts ")" (single (.symbol .parenR)) := cuts_sign rfl
  refine ((hopen.append_lexes h).append_cuts rfl hclose).lexes.mono ?_
  simp only [mul_assoc]
  rintro _ ⟨_, ⟨s₁, rfl⟩, _, ⟨ls, ⟨T, hT, hspelled⟩, _, ⟨s₂, rfl⟩, rfl⟩, rfl⟩
  exact ⟨_, toExpr_withSpan.mpr hT, .atom (.paren hspelled rfl)⟩

theorem lexes_call {f a : Expr} {r : Ty} {callee argument : String} {F : Language Lexeme}
    (hcallee : Lexes callee F) (hargument : Lexes argument (closedLexemes scope a))
    (h : ∀ ls ∈ F, ∃ T : Tree, (Phrase.closed T).Spelled .any ls ∧
      Calls scope T [a] (.call f a r)) :
    Lexes (callee ++ "(" ++ argument ++ ")") (closedLexemes scope (.call f a r)) := by
  have hopen : Cuts "(" (single (.symbol .parenL)) := cuts_sign rfl
  have hclose : Cuts ")" (single (.symbol .parenR)) := cuts_sign rfl
  refine (((hcallee.append_cuts rfl hopen).append_lexes hargument).append_cuts rfl
    hclose).lexes.mono ?_
  simp only [mul_assoc]
  rintro _ ⟨ls, hls, _, ⟨_, ⟨s₁, rfl⟩, _, ⟨ms, ⟨A, hA, hspelled⟩, _, ⟨s₂, rfl⟩, rfl⟩, rfl⟩, rfl⟩
  obtain ⟨T, hT, hcalls⟩ := h ls hls
  exact ⟨_, toExpr_call.mpr ⟨[a], .cons hA .nil, hcalls⟩, .call hT (.one (.closed hspelled)) rfl⟩

theorem render_call {f a : Expr} {r : Ty} {nested : Bool} (h : Written scope f) :
    (Expr.call f a r).render nested = f.render true ++ "(" ++ a.render true ++ ")" := by
  cases h <;> rfl

theorem render_intrinsic {op : Intrinsic} {a : Expr} {r : Ty} {nested : Bool}
    (h : op.resultType a.ty = .ok r) :
    (Expr.call (.intrinsic op.uri (.func a.ty r)) a r).render nested = op.uri ++ "(" ++
    a.render true ++ ")" := by
  have himplied : Expr.isImplied op.uri (.func a.ty r) a.ty = true := by
    simp [Expr.isImplied, Intrinsic.ofUri?_uri, Intrinsic.signature, h, Except.map]
  rw [Expr.render, if_pos himplied]

/-- The text of an expression, and the text of an expression in another one. -/
theorem lexes_render (h : Written scope e) : Lexes (e.render true) (closedLexemes scope e) ∧
    Lexes (e.render false) (exprLexemes scope e) := by
  have atom {scope : Scope} {e : Expr} (heq : e.render false = e.render true)
      (h : Lexes (e.render true) (closedLexemes scope e)) :
      Lexes (e.render true) (closedLexemes scope e) ∧
      Lexes (e.render false) (exprLexemes scope e) :=
    ⟨h, heq ▸ h.mono closed_le_expr⟩
  induction h with
  | @int scope v hv =>
    refine atom rfl ((lexes_int hv).mono ?_)
    rintro _ ⟨s, rfl⟩
    exact ⟨.int v s, rfl, .atom .int⟩
  | @bool scope v =>
    refine atom rfl ?_
    cases v with
    | true =>
      refine (lexes_word (x := "true") rfl).mono ?_
      rintro _ ⟨s, rfl⟩
      exact ⟨.bool true s, rfl, .atom .true⟩
    | false =>
      refine (lexes_word (x := "false") rfl).mono ?_
      rintro _ ⟨s, rfl⟩
      exact ⟨.bool false s, rfl, .atom .false⟩
  | @ref scope x t hx ht =>
    refine atom rfl ((lexes_name hx).mono ?_)
    rintro _ ⟨s, rfl⟩
    exact ⟨.name ⟨x, s⟩ s, toExpr_name.mpr ⟨t, ht, rfl⟩, .atom .name⟩
  | @builtin scope b t ht hnumeric =>
    have hname : isName b.name = true ∧ Builtin.ofName? b.name = some b := by cases b <;> decide
    have hless : Cuts "<" (single (.symbol .less)) := cuts_sign rfl
    have hgreater : Cuts ">" (single (.symbol .greater)) := cuts_sign rfl
    refine atom rfl (((((lexes_name hname.1).append_cuts rfl hless).append_lexes
      (lexes_type ht)).append_cuts rfl hgreater).lexes.mono ?_)
    simp only [mul_assoc]
    rintro _ ⟨_, ⟨s, rfl⟩, _, ⟨_, ⟨s₁, rfl⟩, _, ⟨ls, ⟨T, hT, hspelled, -⟩, _, ⟨s₂, rfl⟩, rfl⟩, rfl⟩,
      rfl⟩
    exact ⟨_, toExpr_builtin.mpr ⟨b, t, hname.2, hT, hnumeric, rfl⟩, .atom (.builtin hspelled rfl)⟩
  | @tuple scope es _ ih =>
    have hless : Cuts "<" (single (.symbol .less)) := cuts_sign rfl
    have hgreater : Cuts ">" (single (.symbol .greater)) := cuts_sign rfl
    refine atom rfl ?_
    rw [Expr.render, renderList_eq_map]
    refine ((hless.append_lexes (lexes_commas (cuts_sign rfl) rfl fun e he =>
      (ih e he).1)).append_cuts rfl hgreater).lexes.mono ?_
    rintro _ ⟨_, ⟨_, ⟨s₁, rfl⟩, ls, hls, rfl⟩, _, ⟨s₂, rfl⟩, rfl⟩
    obtain ⟨Ts, hTs, hes⟩ := spelled_exprs hls
    exact ⟨_, toExpr_tuple.mpr ⟨es, hes, rfl⟩, .atom (.tuple hTs rfl)⟩
  | @select scope e i ts t _ hi hts hu ih =>
    have hopen : Cuts "[" (single (.symbol .bracketL)) := cuts_sign rfl
    have hclose : Cuts "]" (single (.symbol .bracketR)) := cuts_sign rfl
    have htext : toString i = toString (i : Int) := rfl
    have hindex : Lexes (toString i) (single (.int i)) := by
      rw [htext]
      exact lexes_int hi
    refine atom rfl
      ((((ih.1.append_cuts rfl hopen).append_lexes hindex).append_cuts rfl hclose).lexes.mono ?_)
    simp only [mul_assoc]
    rintro _ ⟨ls, ⟨T, hT, hspelled⟩, _,
      ⟨_, ⟨s₁, rfl⟩, _, ⟨_, ⟨s₂, rfl⟩, _, ⟨s₃, rfl⟩, rfl⟩, rfl⟩, rfl⟩
    exact ⟨_, toExpr_select.mpr ⟨e, hT, ts, t, hts, hu, rfl⟩,
      .select hspelled (Int.natCast_nonneg i) rfl⟩
  | @intrinsic scope op a r hlookup _ hr ih =>
    have hname : isName op.uri = true := by rcases op with (_ | _) | (_ | _) <;> decide
    refine atom (by rw [render_intrinsic hr, render_intrinsic hr]) ?_
    rw [render_intrinsic hr]
    refine lexes_call (lexes_name hname) ih.1 ?_
    rintro _ ⟨s, rfl⟩
    refine ⟨.name ⟨op.uri, s⟩ s, .atom .name, .intrinsic ?_ rfl hr⟩
    simp [calledIntrinsic?, hlookup, Intrinsic.ofUri?_uri]
  | @apply scope f a p r hf _ hp hacc ihf iha =>
    refine atom (by rw [render_call hf, render_call hf]) ?_
    rw [render_call hf]
    refine lexes_call ihf.1 iha.1 ?_
    rintro ls ⟨T, hT, hspelled⟩
    exact ⟨T, hspelled, .apply (calledIntrinsic?_of_ok hT) hT rfl hp hacc⟩
  | @force scope f r _ hr ih =>
    have hparens : Cuts "()" (single (.symbol .parenL) * single (.symbol .parenR)) := cuts_signs rfl
    refine atom rfl ((ih.1.append_cuts rfl hparens).lexes.mono ?_)
    rintro _ ⟨ls, ⟨T, hT, hspelled⟩, _, ⟨_, ⟨s₁, rfl⟩, _, ⟨s₂, rfl⟩, rfl⟩, rfl⟩
    exact ⟨_, toExpr_call.mpr ⟨[], .nil, .force (calledIntrinsic?_of_ok hT) hT rfl hr⟩,
      .call hspelled .none rfl⟩
  | lambda hx ht _ ih =>
    exact atom rfl (lexes_lambda (cuts_lambdaHead hx ht (cuts_sign rfl) rfl) ih.2)
  | delay _ ih => exact atom rfl (lexes_delay (cuts_delayHead (cuts_sign rfl)) ih.2)
  | @block scope ks r hks hnames _ _ ihls ihr =>
    have hlet : Cuts "let " (single (.symbol .kwLet)) := cuts_word "" "let" " " rfl rfl rfl rfl rfl
    have hin : Cuts " in " (single (.symbol .kwIn)) := cuts_word " " "in" " " rfl rfl rfl rfl rfl
    have hlocals : Lexes (String.intercalate ", " (Expr.renderLocals ks))
        (listLexemes localLexemes (localsIn scope ks)) := by
      rw [renderLocals_eq_map scope]
      refine lexes_commas (cuts_sign rfl) rfl fun l hl => ?_
      exact lexes_local (hnames l.2 (mem_of_localsIn hl)) ((ihls l hl).1.mono closed_le_expr)
    have hbody := lexes_let hks hlet hlocals hin rfl (ihr.1.mono closed_le_expr)
    exact ⟨lexes_paren hbody, hbody⟩

theorem cuts_localLines {ks : List (String × Expr)} (hks : ks ≠ [])
    (hnames : ∀ k ∈ ks, isName k.1 = true) (h : ∀ l ∈ localsIn scope ks, Written l.1 l.2.2) :
    Cuts (Expr.localLines ks) (listLexemes localLexemes (localsIn scope ks)) := by
  have line {scope : Scope} {x : String} {e : Expr} (hx : isName x = true) (h : Written scope e) :
      Lexes ("    " ++ x ++ " = " ++ e.text) (localLexemes (scope, x, e)) := by
    have hindent : Cuts "    " 1 := cuts_blank rfl
    have hlocal := lexes_local (l := (scope, x, e)) hx (lexes_render h).2
    simpa [String.append_assoc, Expr.text] using hindent.append_lexes hlocal
  induction ks generalizing scope with
  | nil => exact absurd rfl hks
  | cons k ks ih =>
    obtain ⟨x, e⟩ := k
    rw [List.forall_mem_cons] at hnames
    rw [localsIn, List.forall_mem_cons] at h
    cases ks with
    | nil =>
      have hbreak : Cuts "\n" 1 := cuts_blank rfl
      have hlist : localLexemes (scope, x, e) * 1 ≤ listLexemes localLexemes [(scope, x, e)] := by
        rw [mul_one]
        exact fun ls hls => .one hls
      exact ((line hnames.1 h.1).append_cuts rfl hbreak).mono hlist
    | cons k ks =>
      have hcomma : Cuts ",\n" (single (.symbol .comma)) := cuts_sign rfl
      have hrest := ih (by simp) hnames.2 h.2
      refine (((line hnames.1 h.1).append_cuts rfl hcomma).append hrest).mono ?_
      rw [mul_assoc]
      rintro _ ⟨ls, hls, _, ⟨_, ⟨s, rfl⟩, ms, hms, rfl⟩, rfl⟩
      exact .more hls hms

theorem lexes_letLines {ks : List (String × Expr)} {t : Ty} (h : Written scope (.block ks e t)) :
    Lexes ("\n  let\n" ++ Expr.localLines ks ++ "  in " ++ e.text)
    (exprLexemes scope (.block ks e t)) := by
  have hlet : Cuts "\n  let\n" (single (.symbol .kwLet)) :=
    cuts_word "\n  " "let" "\n" rfl rfl rfl rfl rfl
  have hin : Cuts "  in " (single (.symbol .kwIn)) := cuts_word "  " "in" " " rfl rfl rfl rfl rfl
  cases h with
  | block hks hnames hlocals hr =>
    exact lexes_let hks hlet (cuts_localLines hks hnames hlocals).lexes hin rfl (lexes_render hr).2

theorem lexes_pretty (h : Written scope e) : Lexes e.pretty (exprLexemes scope e) := by
  have harrow : Cuts " ->" (single (.symbol .arrow)) := cuts_sign rfl
  unfold Expr.pretty
  split
  · rename_i ks r t _
    cases h with
    | lambda hx ht hbody =>
      have hlambda := lexes_lambda (cuts_lambdaHead (r := t) hx ht harrow rfl)
        (lexes_letLines hbody)
      simpa only [Ty.signature?, Option.isSome_some, if_true, Expr.ty_block, String.append_assoc]
        using hlambda.mono closed_le_expr
    | delay hbody =>
      have hdelay := lexes_delay (cuts_delayHead (r := t) harrow) (lexes_letLines hbody)
      simpa only [Ty.signature?, Option.isSome_some, if_true, Expr.ty_block, String.append_assoc]
        using hdelay.mono closed_le_expr
  · exact (lexes_render h).2

theorem read_ok {source : String} :
    read source = .ok e ↔ ∃ tree, parse source = .ok tree ∧ tree.toExpr [] = .ok e := by
  simp only [read, except_bind_ok, except_mapError_ok]

theorem lex_of_lexes {s : String} {P : Language Lexeme} (h : Lexes s P) :
    (lex s).faults = [] ∧ (lex s).lexemes ∈ P := by
  obtain ⟨ts, hts, hmem⟩ := h
  have htokens : tokens? s.toList = some ts := by
    have hends : Ends [] := fun _ hc => by cases hc
    simpa [tokens?, piecesFrom, clean] using hts [] hends
  obtain ⟨hfaults, hlexemes⟩ := lex_clean htokens
  exact ⟨hfaults, hmem _ hlexemes⟩

theorem read_of_lexes {s : String} (h : Lexes s (exprLexemes [] e)) : read s = .ok e := by
  obtain ⟨hfaults, tree, htree, hspelled⟩ := lex_of_lexes h
  exact read_ok.mpr ⟨tree, parse_ok.mpr ⟨hfaults, treeOf_spelled hspelled⟩, htree⟩

/-- What a text means is printed in two ways, and either way it is read back. -/
theorem read_printed {source : String} {tree : Tree} (hparse : parse source = .ok tree)
    (hplain : tree.isPlain = true) (hread : read source = .ok e) :
    read e.text = .ok e ∧ read e.pretty = .ok e := by
  obtain ⟨tree', hparse', hmeaning⟩ := read_ok.mp hread
  cases hparse.symm.trans hparse'
  obtain ⟨hfaults, htree⟩ := parse_ok.mp hparse
  have hwritten : Written [] e :=
    written_phrase (spelled_treeOf htree) (fun l hl => valid_lex hl) hplain [] e hmeaning
  exact ⟨read_of_lexes (lexes_render hwritten).2, read_of_lexes (lexes_pretty hwritten)⟩

/-- A function whose body is a block with a block among its locals. -/
theorem read_printed_block :
    ∃ tree e, parse "(s: int32@SERVER -> let a = let b = s in <b, (-> 1)>, c = a[1]() in c)" =
    .ok tree ∧ tree.isPlain = true ∧
      read "(s: int32@SERVER -> let a = let b = s in <b, (-> 1)>, c = a[1]() in c)" = .ok e ∧
      read e.text = .ok e ∧ read e.pretty = .ok e := by
  obtain ⟨tree, hparse, hplain⟩ : ∃ tree,
      parse "(s: int32@SERVER -> let a = let b = s in <b, (-> 1)>, c = a[1]() in c)" = .ok tree ∧
        tree.isPlain = true := except_any (by decide +kernel)
  obtain ⟨e, hread, -⟩ : ∃ e,
      read "(s: int32@SERVER -> let a = let b = s in <b, (-> 1)>, c = a[1]() in c)" = .ok e ∧
        (e.ty.signature?.isSome) = true := except_any (by decide +kernel)
  exact ⟨tree, e, hparse, hplain, hread, read_printed hparse hplain hread⟩

end Source

end TwoTier

import Mathlib.Computability.Language
import Mathlib.Order.CompletePartialOrder
import TwoTier.Proofs.Source.Grammar

/-! # What the parser accepts

Whatever a parser takes off its input is a word of the language that belongs to the rule. Languages
are put together as the parsers are.
-/

namespace TwoTier.Source.Parser

open Computability

variable {α β : Type} {p q : Parser α} {f : α → Parser β} {n : Nat} {L M : Language Token}

/-- The parser only takes off words of the language. -/
def Takes (p : Parser α) (L : Language Token) : Prop :=
  ∀ c a c', (p c).out = some (a, c') → ∃ ts ∈ L, c.rest.map Lexeme.token =
    ts ++ c'.rest.map Lexeme.token

theorem bind_out {c c' : Cursor} {b : β} : ((p >>= f) c).out = some (b, c') ↔
    ∃ a c₁, (p c).out = some (a, c₁) ∧ (f a c₁).out = some (b, c') := by
  change (andThen p f c).out = _ ↔ _
  unfold andThen
  rcases h : (p c).out with _ | ⟨a, c₁⟩
  · simp [h]
  · simp [h]

theorem Takes.mono (h : Takes p L) (hLM : L ≤ M) : Takes p M := by
  intro c a c' hp
  obtain ⟨ts, hts, heq⟩ := h c a c' hp
  exact ⟨ts, hLM hts, heq⟩

theorem takes_pure {a : α} : Takes (pure a) 1 := by
  rintro c _ _ ⟨⟩
  exact ⟨[], Language.nil_mem_one, rfl⟩

theorem Takes.bind (hp : Takes p L) (hf : ∀ a, Takes (f a) M) : Takes (p >>= f) (L * M) := by
  intro c b c' h
  obtain ⟨a, c₁, ha, hb⟩ := bind_out.mp h
  obtain ⟨ts, hts, hc⟩ := hp c a c₁ ha
  obtain ⟨us, hus, hc₁⟩ := hf a c₁ b c' hb
  exact ⟨ts ++ us, Language.append_mem_mul hts hus, by rw [hc, hc₁, List.append_assoc]⟩

theorem Takes.map (hp : Takes p L) {g : α → β} : Takes (p >>= fun a => pure (g a)) L := by
  simpa using hp.bind fun a => takes_pure (a := g a)

theorem Takes.either (hp : Takes p L) (hq : Takes q L) : Takes (either p q) L := by
  intro c a c' h
  unfold Parser.either at h
  cases hc : (p c).out with
  | none => exact hq c a c' (by simpa [hc] using h)
  | some r => exact hp c a c' (by simpa [hc] using h)

theorem takes_choice {ps : List (Parser α)} (h : ∀ p ∈ ps, Takes p L) : Takes (choice ps) L := by
  induction ps with
  | nil => rintro c a c' ⟨⟩
  | cons p ps ih =>
    have hp : Takes p L := h p (by simp)
    cases ps with
    | nil => exact hp
    | cons q ps => exact hp.either (ih fun r hr => h r (by simp_all))

theorem Takes.optional (hp : Takes p L) : Takes (optional p) (1 + L) :=
  (hp.map.mono le_add_self).either (takes_pure.mono le_self_add)

theorem Takes.many (hp : Takes p L) : Takes (many p n) L∗ := by
  induction n with
  | zero => exact takes_pure.mono one_le_kstar
  | succ n ih =>
    refine (hp.optional.bind (M := L∗) ?_).mono ?_
    · rintro (_ | a)
      · exact takes_pure.mono one_le_kstar
      · exact ih.map
    · rw [add_mul, one_mul]
      exact add_le le_rfl mul_kstar_le_kstar

theorem takes_accept {test : Token → Option α} :
    Takes (accept test) {ts | ∃ t, (test t).isSome ∧ ts = [t]} := by
  rintro ⟨ls, stop⟩ a c' h
  unfold accept at h
  cases ls with
  | nil => cases h
  | cons l ls =>
    cases hl : test l.token with
    | none => simp [hl] at h
    | some b =>
      simp only [hl, Option.some.injEq, Prod.mk.injEq] at h
      obtain ⟨-, rfl⟩ := h
      exact ⟨[l.token], ⟨l.token, by simp [hl], rfl⟩, rfl⟩

theorem takes_symbol {s : Symbol} : Takes (symbol s) {[.symbol s]} := by
  refine takes_accept.map.mono ?_
  rintro _ ⟨t, ht, rfl⟩
  split at ht
  · split at ht
    · subst_vars
      exact Set.mem_singleton _
    · simp at ht
  · simp at ht

theorem takes_ident : Takes ident {ts | ∃ x, ts = [.name x]} := by
  refine takes_accept.map.mono ?_
  rintro _ ⟨t, ht, rfl⟩
  split at ht
  · exact ⟨_, rfl⟩
  · simp at ht

theorem Takes.spanned (hp : Takes p L) : Takes (spanned p) L := by
  rintro c ⟨a, s⟩ c' h
  simp only [Parser.spanned, Option.map_eq_some_iff] at h
  obtain ⟨⟨a', c₁⟩, ha, heq⟩ := h
  cases heq
  exact hp c a' c₁ ha

theorem Takes.between {o e : Symbol} (hp : Takes p L) :
    Takes (between o e p) ({[.symbol o]} * (L * {[.symbol e]})) :=
  takes_symbol.bind fun _ => hp.bind fun _ => takes_symbol.map

theorem Takes.commaSeparated1 (hp : Takes p L) (hone : L ≤ M)
    (hmore : L * ({[.symbol .comma]} * M) ≤ M) :
    Takes (commaSeparated1 n p) M := by
  refine (hp.bind fun _ => (takes_symbol.bind fun _ => hp).many.map).mono ?_
  have htail : ({[.symbol .comma]} * L)∗ ≤ 1 + {[.symbol .comma]} * M := by
    refine kstar_le_of_mul_le_right le_self_add ?_
    calc {[.symbol .comma]} * L * (1 + {[.symbol .comma]} * M)
      _ = {[.symbol .comma]} * (L + L * ({[.symbol .comma]} * M)) := by
        rw [mul_assoc, mul_add, mul_one]
      _ ≤ {[.symbol .comma]} * M := by grw [hmore, hone, add_idem]
      _ ≤ _ := le_add_self
  calc L * ({[.symbol .comma]} * L)∗
    _ ≤ L + L * ({[.symbol .comma]} * M) := by grw [htail, mul_add, mul_one]
    _ ≤ M := add_le hone hmore

theorem Takes.commaSeparated (hp : Takes p L) (hone : L ≤ M)
    (hmore : L * ({[.symbol .comma]} * M) ≤ M) :
    Takes (commaSeparated n p) (1 + M) := by
  refine ((hp.commaSeparated1 hone hmore).optional.bind (M := 1) ?_).mono (mul_one _).le
  rintro (_ | as)
  · exact takes_pure
  · exact takes_pure

def words (n : Nonterminal) : Language Token :=
  {ts | Derives .any n ts}

theorem Takes.words {m : Nonterminal} (h : Takes p L) (hL : ∀ ts ∈ L, Derives .any m ts) :
    Takes p (words m) :=
  h.mono hL

theorem takes_baseType {ty : Parser TypeTree} (hty : Takes ty (words .type)) :
    Takes (baseType n ty) (words .base) := by
  refine (takes_choice ?_).spanned.map
  simp only [List.forall_mem_cons, List.not_mem_nil, false_implies, implies_true, and_true]
  refine ⟨takes_ident.map.words ?_,
    (hty.commaSeparated (M := words .types) ?_ ?_).between.map.words ?_,
    (hty.optional.bind fun _ => takes_symbol.bind fun _ => hty.map).between.words ?_⟩
  · rintro _ ⟨x, rfl⟩
    exact .namedType trivial
  · intro ts hts
    exact .oneType hts
  · rintro _ ⟨ts, hts, _, ⟨_, rfl, us, hus, rfl⟩, rfl⟩
    exact .moreTypes hts hus
  · rintro _ ⟨_, rfl, _, ⟨ts, rfl | hts, _, rfl, rfl⟩, rfl⟩
    · exact .unitType
    · exact .tupleType hts
  · rintro _ ⟨_, rfl, _, ⟨_, ⟨ts, rfl | hts, _, ⟨_, rfl, us, hus, rfl⟩, rfl⟩, _, rfl, rfl⟩, rfl⟩
    · exact .thunkType hus
    · simpa using Derives.funcType hts hus

theorem takes_typeTree : Takes (typeTree n) (words .type) := by
  induction n with
  | zero => exact takes_choice (by simp)
  | succ n ih =>
    have hsequence : Takes (sequenceType n (typeTree n)) (words .sequence) := by
      refine ((takes_baseType ih).bind fun _ => takes_symbol.many.map).mono (mul_kstar_le ?_ ?_)
      · intro ts hts
        exact .base hts
      · rintro _ ⟨ts, hts, _, rfl, rfl⟩
        exact .star hts
    refine Takes.either ?_ ?_
    · refine (ih.between.bind fun _ => takes_symbol.bind fun _ => takes_ident.map).spanned.map.words
        ?_
      rintro _ ⟨_, ⟨_, rfl, _, ⟨ts, hts, _, rfl, rfl⟩, rfl⟩, _, ⟨_, rfl, _, ⟨p, rfl⟩, rfl⟩, rfl⟩
      simpa using Derives.each hts trivial
    · refine (hsequence.bind fun _ =>
        (takes_symbol.bind fun _ => takes_ident).optional.map).spanned.bind (M := 1) ?_ |>.words ?_
      · rintro ⟨⟨member, placement⟩, span⟩
        exact takes_pure
      · rw [mul_one]
        rintro _ ⟨ts, hts, _, rfl | ⟨_, rfl, _, ⟨p, rfl⟩, rfl⟩, rfl⟩
        · simpa using Derives.plain hts
        · exact .placed hts trivial

variable {ty : Parser TypeTree} {expr : Parser Tree}

theorem exprs_more : words .expr * ({[.symbol .comma]} * words .exprs) ≤ words .exprs := by
  rintro _ ⟨ts, hts, _, ⟨_, rfl, us, hus, rfl⟩, rfl⟩
  exact .moreExprs hts hus

theorem takes_literal : Takes literal (words .atom) := by
  refine takes_accept.map.words ?_
  rintro _ ⟨t, ht, rfl⟩
  split at ht
  · exact .int
  · exact .float
  · exact .true
  · exact .false
  · simp at ht

theorem takes_letIn (hexpr : Takes expr (words .expr)) : Takes (letIn n expr) (words .atom) := by
  have hbinding : Takes (do let x ← ident; let _ ← symbol .equals; return (x, ← expr))
      {us | ∃ x, ∃ ts ∈ words .expr, us = .name x :: .symbol .equals :: ts} := by
    refine (takes_ident.bind fun _ => takes_symbol.bind fun _ => hexpr.map).mono ?_
    rintro _ ⟨_, ⟨x, rfl⟩, _, ⟨_, rfl, ts, hts, rfl⟩, rfl⟩
    exact ⟨x, ts, hts, rfl⟩
  have hbindings := hbinding.commaSeparated1 (M := words .bindings) (n := n) ?_ ?_
  · refine (takes_symbol.bind fun _ =>
      hbindings.bind fun _ => takes_symbol.bind fun _ => hexpr.map).words ?_
    rintro _ ⟨_, rfl, _, ⟨ts, hts, _, ⟨_, rfl, us, hus, rfl⟩, rfl⟩, rfl⟩
    exact .letIn hts hus
  · rintro _ ⟨x, ts, hts, rfl⟩
    exact .oneBinding hts
  · rintro _ ⟨_, ⟨x, ts, hts, rfl⟩, _, ⟨_, rfl, us, hus, rfl⟩, rfl⟩
    exact .moreBindings hts hus

theorem takes_intrinsic (hty : Takes ty (words .type)) : Takes (intrinsic ty) (words .atom) := by
  refine (takes_symbol.bind fun _ =>
    takes_accept.bind fun _ => takes_symbol.bind fun _ => hty.map).words ?_
  rintro _ ⟨_, rfl, _, ⟨_, ⟨t, ht, rfl⟩, _, ⟨_, rfl, ts, hts, rfl⟩, rfl⟩, rfl⟩
  split at ht
  · exact .intrinsic hts
  · simp at ht

theorem takes_lambda (hty : Takes ty (words .type)) (hexpr : Takes expr (words .expr)) :
    Takes (lambda ty expr) (words .atom) := by
  have hparam := (takes_ident.bind fun x => takes_symbol (s := .colon).bind fun _ =>
    hty.map (g := (x, ·))).optional
  refine (hparam.bind fun _ => takes_symbol.bind fun _ => hexpr.map).between.words ?_
  rintro _ ⟨_, rfl, _, ⟨_, ⟨_, rfl | ⟨_, ⟨x, rfl⟩, _, ⟨_, rfl, ts, hts, rfl⟩, rfl⟩, _,
    ⟨_, rfl, us, hus, rfl⟩, rfl⟩, _, rfl, rfl⟩, rfl⟩
  · exact .delay hus
  · simpa using Derives.lambda (x := x) hts hus

theorem takes_parenthesized (hexpr : Takes expr (words .expr)) :
    Takes (parenthesized expr) (words .atom) := by
  refine hexpr.between.map.words ?_
  rintro _ ⟨_, rfl, _, ⟨ts, hts, _, rfl, rfl⟩, rfl⟩
  exact .paren hts

theorem takes_tuple (hexpr : Takes expr (words .expr)) : Takes (tuple n expr) (words .atom) := by
  refine (hexpr.commaSeparated (fun _ => .oneExpr) exprs_more).between.map.words ?_
  rintro _ ⟨_, rfl, _, ⟨ts, rfl | hts, _, rfl, rfl⟩, rfl⟩
  · exact .unit
  · exact .tuple hts

theorem takes_named (hty : Takes ty (words .type)) : Takes (named ty) (words .atom) := by
  have hoperand := (hty.between (o := .less) (e := .greater)).optional
  refine (takes_ident.bind fun _ => hoperand.bind (M := 1) fun _ => ?_).words ?_
  · split <;> exact takes_pure
  · rw [mul_one]
    rintro _ ⟨_, ⟨x, rfl⟩, _, rfl | ⟨_, rfl, _, ⟨ts, hts, _, rfl, rfl⟩, rfl⟩, rfl⟩
    · exact .name
    · exact .builtin hts

def suffixWords : Language Token :=
  {us | ∀ ts, Derives .any .expr ts → Derives .any .expr (ts ++ us)}

theorem takes_suffix (hexpr : Takes expr (words .expr)) : Takes (suffix n expr) suffixWords := by
  refine (takes_choice ?_).spanned
  simp only [List.forall_mem_cons, List.not_mem_nil, false_implies, implies_true, and_true]
  refine ⟨(hexpr.commaSeparated (fun _ => .oneExpr) exprs_more).between.map.mono ?_,
    takes_accept.between.map.mono ?_⟩
  · rintro _ ⟨_, rfl, _, ⟨us, rfl | hus, _, rfl, rfl⟩, rfl⟩ ts hts
    · exact .force hts
    · exact .call hts hus
  · rintro _ ⟨_, rfl, _, ⟨_, ⟨t, ht, rfl⟩, _, rfl, rfl⟩, rfl⟩ ts hts
    split at ht
    · split at ht
      · exact .select hts ‹_›
      · simp at ht
    · simp at ht

theorem takes_tree : Takes (tree n) (words .expr) := by
  induction n with
  | zero => exact takes_choice (by simp)
  | succ n ih =>
    have hty : Takes (typeTree n) (words .type) := takes_typeTree
    have hatom : Takes (atom n (typeTree n) (tree n)) (words .atom) := by
      refine (takes_choice ?_).spanned.map
      simp only [List.forall_mem_cons, List.not_mem_nil, false_implies, implies_true, and_true]
      exact ⟨takes_literal, takes_letIn ih, takes_intrinsic hty, takes_lambda hty ih,
        takes_parenthesized ih, takes_tuple ih, takes_named hty⟩
    refine (hatom.bind fun _ => (takes_suffix ih).many.map).mono (mul_kstar_le (fun _ => .atom) ?_)
    rintro _ ⟨ts, hts, us, hus, rfl⟩
    exact hus ts hts

end TwoTier.Source.Parser

import TwoTier.Proofs.Collection
import TwoTier.Proofs.Replacement

/-! # Rounds mean what their steps mean

The steps of a round's view, bound one after the other, and its result come to what the round comes
to. Each local of the round is followed to where its value is kept, a step or a replacement. Every
move to a step or into another expression may change closures inside values into alike ones, so that
values are alike only through others between them.
-/

namespace TwoTier

variable {s : Setting} {σ σ' τ τ' : Env} {m : Subst} {e : Expr} {x : String} {f g a b u v w : Value}

abbrev Alikes (s : Setting) : Value → Value → Prop :=
  Relation.ReflTransGen (Alike s)

theorem Alikes.eq_of_isData (h : Alikes s v w) (hv : v.isData = true) : w = v := by
  induction h with
  | refl => rfl
  | tail _ hw ih =>
    subst ih
    exact hw.eq_of_isData hv

theorem Alikes.elements {vs : List Value} (h : Alikes s (.tuple vs) w) :
    ∃ ws, w = .tuple ws ∧ List.Forall₂ (Alikes s) vs ws := by
  induction h with
  | refl => exact ⟨vs, rfl, List.forall₂_same.mpr fun _ _ => .refl⟩
  | tail _ hw ih =>
    obtain ⟨us, rfl, hus⟩ := ih
    obtain ⟨ws, rfl, hws⟩ := alike_tuple.mp hw
    exact ⟨ws, rfl, forall₂_comp hus hws fun _ _ _ => Relation.ReflTransGen.tail⟩

theorem alikes_tuple {vs ws : List Value} (h : List.Forall₂ (Alikes s) vs ws) :
    Alikes s (.tuple vs) (.tuple ws) := by
  suffices hlists : Relation.ReflTransGen (List.Forall₂ (Alike s)) vs ws from hlists.lift
    Value.tuple fun _ _ => .tuple
  induction h with
  | nil => exact .refl
  | @cons v w vs ws hvw _ ih =>
    have hhead : Relation.ReflTransGen (List.Forall₂ (Alike s)) (v :: vs) (w :: vs) :=
      hvw.lift (· :: vs) fun _ _ h => .cons h (List.forall₂_same.mpr fun _ _ => .same)
    exact hhead.trans (ih.lift (w :: ·) fun _ _ => .cons .same)

theorem Completes.along {α : Type} {R : α → α → Prop} (task : α → Task)
    (step : ∀ p q u, R p q → Completes s (task p) u → ∃ w, Completes s (task q) w ∧ Alike s u w)
    {p q : α} (hpq : Relation.ReflTransGen R p q) (h : Completes s (task p) v) :
    ∃ w, Completes s (task q) w ∧ Alikes s v w := by
  induction hpq with
  | refl => exact ⟨v, h, .refl⟩
  | tail _ hq ih =>
    obtain ⟨u, hu, hvu⟩ := ih
    obtain ⟨w, hw, huw⟩ := step _ _ _ hq hu
    exact ⟨w, hw, hvu.tail huw⟩

theorem Completes.call_alikes (h : Completes s (.call f (some a)) v) (hf : Alike s f g)
    (ha : Alikes s a b) :
    ∃ w, Completes s (.call g (some b)) w ∧ Alikes s v w := by
  obtain ⟨u, hu, hvu⟩ := h.mirrored g (some a) hf (.some .same)
  obtain ⟨w, hw, huw⟩ := Completes.along (fun b => .call g (some b))
    (fun _ q _ hpq hu => hu.mirrored g (some q) .same (.some hpq)) ha hu
  exact ⟨w, hw, huw.head hvu⟩

theorem Env.lookup_cons {z : String} :
    ((x, u) :: σ : Env).lookup z = if z = x then some u else σ.lookup z := by
  by_cases hz : z = x
  · simp [hz]
  · simp [List.lookup_cons, beq_eq_false_iff_ne.mpr hz, hz]

def Env.Covers (τ : Env) (e : Expr) : Prop :=
  ∀ n, e.Refers n → ∃ u, τ.lookup n = some u

def Env.Grows (τ τ' : Env) : Prop :=
  ∀ n u, τ.lookup n = some u → τ'.lookup n = some u

/-- What is bound first is bound to something alike afterwards. -/
def Env.Follows (s : Setting) (σ σ' : Env) : Prop :=
  ∀ z u, σ.lookup z = some u → ∃ u', σ'.lookup z = some u' ∧ Alike s u u'

theorem Env.Covers.mono (h : τ.Covers e) (hτ : τ.Grows τ') : τ'.Covers e := by
  intro n hn
  obtain ⟨u, hu⟩ := h n hn
  exact ⟨u, hτ n u hu⟩

theorem Env.Grows.trans {τ'' : Env} (h : τ.Grows τ') (h' : τ'.Grows τ'') : τ.Grows τ'' :=
  fun n u hu => h' n u (h n u hu)

theorem Env.grows_cons (hx : τ.lookup x = none) : τ.Grows ((x, u) :: τ) := by
  intro n v hv
  have hne : n ≠ x := by
    rintro rfl
    simp [hx] at hv
  rwa [Env.lookup_cons, if_neg hne]

theorem Completes.grow (h : Completes s (.expr τ e) v) (hc : τ.Covers e) (hτ : τ.Grows τ') :
    ∃ w, Completes s (.expr τ' e) w ∧ Alike s v w := by
  apply Presents.completes
  apply h.presents
  intro n hn
  obtain ⟨u, hu⟩ := hc n hn
  rw [hu, hτ n u hu]

theorem Completes.follow (h : Completes s (.expr σ e) v) (hσ : Env.Follows s σ σ') :
    ∃ w, Completes s (.expr σ' e) w ∧ Alike s v w := by
  apply Presents.completes
  apply h.mirrored [] σ' e (Expr.replaced_self rfl)
  intro z u t τ _ hu hτ
  rw [Expr.image_of_isEmpty rfl] at hτ ⊢
  obtain ⟨u', hu', hlike⟩ := hσ z u hu
  exact .other (by simp) (completes_ref ((hτ z (by simp)).trans hu')) hlike

theorem Env.Follows.cons (h : Env.Follows s σ σ') (hu : Alike s u v) :
    Env.Follows s ((x, u) :: σ) ((x, v) :: σ') := by
  intro z w hw
  rw [Env.lookup_cons] at hw ⊢
  split at hw
  case isTrue hz =>
    cases hw
    exact ⟨v, if_pos hz, hu⟩
  case isFalse hz =>
    rw [if_neg hz]
    exact h z w hw

theorem Env.follows_self : Env.Follows s σ σ :=
  fun _ u hu => ⟨u, hu, .same⟩

theorem Completes.rebind (h : Completes s (.expr ((x, u) :: σ) e) v) (hu : Alikes s u w)
    (hσ : Env.Follows s σ σ') :
    ∃ v', Completes s (.expr ((x, w) :: σ') e) v' ∧ Alikes s v v' := by
  obtain ⟨v₁, hv₁, hlike⟩ := Completes.along (fun u => .expr ((x, u) :: σ) e)
    (fun _ _ _ hpq hu => hu.follow (Env.follows_self.cons hpq)) hu h
  obtain ⟨v₂, hv₂, hlike'⟩ := hv₁.follow (hσ.cons .same)
  exact ⟨v₂, hv₂, hlike.tail hlike'⟩

theorem Env.exists_follows {P : String → Value → Prop}
    (h : ∀ z u, σ.lookup z = some u → ∃ u', Alike s u u' ∧ P z u') :
    ∃ σ', Env.Follows s σ σ' ∧ ∀ z u', σ'.lookup z = some u' → P z u' := by
  have hvalue : ∀ z, ∃ u', ∀ u, σ.lookup z = some u → Alike s u u' ∧ P z u' := by
    intro z
    cases hz : σ.lookup z with
    | none => exact ⟨.empty, by simp⟩
    | some u =>
      obtain ⟨u', hu'⟩ := h z u hz
      refine ⟨u', fun v hv => ?_⟩
      cases hv
      exact hu'
  choose value hvalue using hvalue
  have hlookup :
      ∀ z, (σ.map fun p => (p.1, value p.1)).lookup z = (σ.lookup z).map fun _ => value z := by
    intro z
    clear h hvalue
    induction σ with
    | nil => rfl
    | cons p σ ih =>
      obtain ⟨x, u⟩ := p
      rw [List.map_cons, Env.lookup_cons, Env.lookup_cons, ih]
      split
      · simp_all
      · rfl
  refine ⟨σ.map fun p => (p.1, value p.1), fun z u hu => ?_, fun z u' hu' => ?_⟩
  · exact ⟨value z, by rw [hlookup, hu]; rfl, (hvalue z u hu).1⟩
  · rw [hlookup, Option.map_eq_some_iff] at hu'
    obtain ⟨u, hu, rfl⟩ := hu'
    exact (hvalue z u hu).2

theorem Binds.lookup {ls : List (String × Expr)} {n : String} (h : Binds s τ ls τ')
    (hn : τ'.lookup n = some u) :
    n ∈ ls.map Prod.fst ∨ τ.lookup n = some u := by
  induction ls generalizing τ with
  | nil =>
    cases h
    exact .inr hn
  | cons l ls ih =>
    obtain ⟨w, -, h⟩ := h
    rcases ih h with hmem | hl
    · exact .inl (by simp [hmem])
    · rw [Env.lookup_cons] at hl
      split at hl
      · exact .inl (by simp_all)
      · exact .inr hl

namespace Round

open Expr

variable {param : String} {steps steps' : List Step} {e' r : Expr} {m' : Subst}
    {ls : List (String × Expr)} {t : Ty}

/-- With the steps bound behind the parameter, the expression comes to the value. -/
structure Reaches (s : Setting) (param : String) (a : Value) (steps : List Step) (τ : Env)
    (e : Expr) (v : Value) : Prop where
  binds : Binds s [(param, a)] (bindings steps) τ
  covers : τ.Covers e
  completes : Completes s (.expr τ e) v

theorem Reaches.grow (h : Reaches s param a steps τ e v)
    (hb : Binds s [(param, a)] (bindings steps') τ') (hτ : τ.Grows τ') :
    ∃ w, Reaches s param a steps' τ' e w ∧ Alike s v w := by
  obtain ⟨w, hw, hlike⟩ := h.completes.grow h.covers hτ
  exact ⟨w, ⟨hb, h.covers.mono hτ, hw⟩, hlike⟩

theorem Reaches.push {step : Step} (h : Reaches s param a steps τ step.value v)
    (hnew : step.name ∉ param :: steps.map Step.name) :
    Binds s [(param, a)] (bindings (steps ++ [step])) ((step.name, v) :: τ) ∧
    τ.Grows ((step.name, v) :: τ) := by
  constructor
  · rw [bindings_append, binds_append]
    exact ⟨τ, h.binds, v, h.completes.runs, rfl⟩
  · apply Env.grows_cons
    rw [Option.eq_none_iff_forall_ne_some]
    intro u hu
    rcases h.binds.lookup hu with hmem | hparam
    · rw [map_fst_bindings] at hmem
      exact hnew (List.mem_cons_of_mem _ hmem)
    · rw [Env.lookup_cons] at hparam
      split at hparam
      · exact hnew (by simp_all)
      · simp at hparam

/-- By induction on the moves. Every part is followed into the variables that its successors have
bound. -/
theorem Lifts.reaches (h : Lifts param steps e e' steps') (hv : Reaches s param a steps τ e v) :
    ∃ τ' w, Reaches s param a steps' τ' e' w ∧ τ.Grows τ' ∧ Alikes s v w := by
  induction h generalizing τ v with
  | stay => exact ⟨τ, v, hv, fun _ _ hu => hu, .refl⟩
  | @element steps steps₁ steps₂ e e' es es' t _ _ ih ihs =>
    obtain ⟨_, rfl, _ | @⟨_, u, _, us, hu, hus⟩⟩ := hv.completes.elements
    have hcovers : ∀ e₁ ∈ e :: es, τ.Covers e₁ :=
      fun e₁ he₁ n hn => hv.covers n (refers_tuple.mpr ⟨e₁, he₁, hn⟩)
    obtain ⟨τ₁, u₁, hhead, hτ₁, hu₁⟩ := ih ⟨hv.binds, hcovers e (by simp), hu⟩
    have htail : Reaches s param a steps τ (mkTuple es) (.tuple us) := by
      refine ⟨hv.binds, fun n hn => ?_, completes_tuple hus⟩
      obtain ⟨e₁, he₁, hn⟩ := refers_tuple.mp hn
      exact hcovers e₁ (List.mem_cons_of_mem _ he₁) n hn
    obtain ⟨w₁, htail, hw₁⟩ := htail.grow hhead.binds hτ₁
    obtain ⟨τ₂, w₂, htail, hτ₂, hw₂⟩ := ihs htail
    obtain ⟨u₂, hhead, hu₂⟩ := hhead.grow htail.binds hτ₂
    obtain ⟨us₂, rfl, hus₂⟩ := htail.completes.elements
    obtain ⟨_, heq, hlike⟩ := Alikes.elements (hw₂.head hw₁)
    cases heq
    refine ⟨τ₂, _, ⟨htail.binds, fun n hn => ?_, completes_tuple (.cons hhead.completes hus₂)⟩,
      hτ₁.trans hτ₂, alikes_tuple (.cons (hu₁.tail hu₂) hlike)⟩
    obtain ⟨e₁, he₁, hne⟩ := refers_tuple.mp hn
    rcases List.mem_cons.mp he₁ with rfl | he₁
    · exact hhead.covers n hne
    · exact htail.covers n (refers_tuple.mpr ⟨e₁, he₁, hne⟩)
  | select _ ih =>
    obtain ⟨vs, he, hi⟩ := hv.completes.source
    obtain ⟨τ', w, hw, hτ, hlike⟩ :=
      ih ⟨hv.binds, fun n hn => hv.covers n (refers_select.mpr hn), he⟩
    obtain ⟨ws, rfl, hws⟩ := hlike.elements
    obtain ⟨u, hu, hlike⟩ := forall₂_getElem? hws hi
    exact ⟨τ', u, ⟨hw.binds, fun n hn => hw.covers n (refers_select.mp hn),
      completes_select hw.completes hu⟩, hτ, hlike⟩
  | argument _ ih =>
    obtain ⟨g, b, hf, ha, hcall⟩ := hv.completes.operands
    obtain ⟨τ', b', hb', hτ, hb⟩ :=
      ih ⟨hv.binds, fun n hn => hv.covers n (refers_call.mpr (.inr hn)), ha⟩
    have hfunction : Reaches s param a _ τ _ g :=
      ⟨hv.binds, fun n hn => hv.covers n (refers_call.mpr (.inl hn)), hf⟩
    obtain ⟨g', hg', hg⟩ := hfunction.grow hb'.binds hτ
    obtain ⟨w, hw, hlike⟩ := hcall.call_alikes hg hb
    refine ⟨τ', w, ⟨hb'.binds, fun n hn => ?_, completes_call hg'.completes hb'.completes hw⟩, hτ,
      hlike⟩
    rcases refers_call.mp hn with hn | hn
    · exact hg'.covers n hn
    · exact hb'.covers n hn
  | step _ _ hnew ih =>
    obtain ⟨τ', w, hw, hτ, hlike⟩ := ih hv
    obtain ⟨hbinds, hgrows⟩ := hw.push hnew
    refine ⟨_, w, ⟨hbinds, fun n hn => ?_, completes_ref (by simp)⟩, hτ.trans hgrows, hlike⟩
    rw [refers_ref] at hn
    exact ⟨w, by simp [hn]⟩

/-- The values of the round's variables `σ` are found in `τ`, by their replacements or under their
own names. -/
structure Keeps (s : Setting) (σ τ : Env) (m : Subst) : Prop where
  replaced : ∀ z e u, m.lookup z = some e → σ.lookup z = some u → τ.Covers e ∧
    Completes s (.expr τ e) u
  own : ∀ z u, m.lookup z = none → σ.lookup z = some u → τ.lookup z = some u

namespace Keeps

theorem image {z : String} (h : Keeps s σ τ m) (hz : σ.lookup z = some u) :
    Completes s (.expr τ (m.image z t)) u := by
  unfold Subst.image
  cases hm : m.lookup z with
  | none => exact completes_ref (h.own z u hm hz)
  | some e => exact (h.replaced z e u hm hz).2

theorem reaches (h : Keeps s σ τ m) (hb : Binds s [(param, a)] (bindings steps) τ) (hc : σ.Covers e)
    (hv : Completes s (.expr σ e) v) :
    ∃ w, Reaches s param a steps τ (e.subst m) w ∧ Alike s v w := by
  have hprovides : Provides s σ τ m e := fun z u t τ' _ hu hτ => (h.image hu).presents hτ
  obtain ⟨w, hw, hlike⟩ := (hv.mirrored m τ _ replaced_subst hprovides).completes
  refine ⟨w, ⟨hb, fun n hn => ?_, hw⟩, hlike⟩
  rcases refers_subst hn with ⟨hn, hm⟩ | ⟨z, r, hz, hm, hn⟩
  · obtain ⟨u, hu⟩ := hc n hn
    exact ⟨u, h.own n u hm hu⟩
  · obtain ⟨u, hu⟩ := hc z hz
    exact (h.replaced z r u hm hu).1 n hn

theorem lifts (h : Keeps s σ τ m) (hb : Binds s [(param, a)] (bindings steps) τ) (hc : σ.Covers e)
    (hv : Completes s (.expr σ e) v) (hl : Lifts param steps (e.subst m) e' steps') :
    ∃ τ' w, Reaches s param a steps' τ' e' w ∧ τ.Grows τ' ∧ Alikes s v w := by
  obtain ⟨u, hu, hvu⟩ := h.reaches hb hc hv
  obtain ⟨τ', w, hw, hτ, huw⟩ := hl.reaches hu
  exact ⟨τ', w, hw, hτ, huw.head hvu⟩

theorem grow (h : Keeps s σ τ m) (hτ : τ.Grows τ') :
    ∃ σ', Env.Follows s σ σ' ∧ Keeps s σ' τ' m := by
  have hvalues : ∀ z u, σ.lookup z = some u → ∃ u', Alike s u u' ∧
      (∀ e, m.lookup z = some e → τ'.Covers e ∧ Completes s (.expr τ' e) u') ∧
      (m.lookup z = none → τ'.lookup z = some u') := by
    intro z u hu
    cases hm : m.lookup z with
    | none => exact ⟨u, .same, by simp, fun _ => hτ z u (h.own z u hm hu)⟩
    | some e =>
      obtain ⟨hc, he⟩ := h.replaced z e u hm hu
      obtain ⟨u', hu', hlike⟩ := he.grow hc hτ
      refine ⟨u', hlike, fun e' he' => ?_, by simp⟩
      cases he'
      exact ⟨hc.mono hτ, hu'⟩
  obtain ⟨σ', hσ, hvalues⟩ := Env.exists_follows hvalues
  exact ⟨σ', hσ, fun z e u hm hu => (hvalues z u hu).1 e hm, fun z u hm hu => (hvalues z u hu).2 hm⟩

theorem step (h : Keeps s σ τ m) (hm : m.lookup x = none) (hx : τ.lookup x = some u) :
    Keeps s ((x, u) :: σ) τ m where
  replaced z e v hz hv := by
    have hne : z ≠ x := by
      rintro rfl
      simp [hm] at hz
    rw [Env.lookup_cons, if_neg hne] at hv
    exact h.replaced z e v hz hv
  own z v hz hv := by
    rw [Env.lookup_cons] at hv
    split at hv
    · simp_all
    · exact h.own z v hz hv

theorem inline (h : Keeps s σ τ m) (hc : τ.Covers e) (he : Completes s (.expr τ e) u) :
    Keeps s ((x, u) :: σ) τ (m.insert x e) where
  replaced z e' v hz hv := by
    rw [Subst.lookup_insert] at hz
    rw [Env.lookup_cons] at hv
    split at hz
    case isTrue hzx =>
      rw [if_pos hzx] at hv
      cases hz
      cases hv
      exact ⟨hc, he⟩
    case isFalse hzx =>
      rw [if_neg hzx] at hv
      exact h.replaced z e' v hz hv
  own z v hz hv := by
    rw [Subst.lookup_insert] at hz
    rw [Env.lookup_cons] at hv
    split at hz
    case isTrue => cases hz
    case isFalse hzx =>
      rw [if_neg hzx] at hv
      exact h.own z v hz hv

end Keeps

theorem covers_locals (h : σ.Covers (.block ((x, e) :: ls) r t)) (hσ : Env.Follows s σ σ') :
    Env.Covers ((x, u) :: σ') (.block ls r t) := by
  intro n hn
  rw [Env.lookup_cons]
  split
  case isTrue => exact ⟨u, rfl⟩
  case isFalse hne =>
    obtain ⟨v, hv⟩ := h n (refers_block_cons.mpr (.inr ⟨hne, hn⟩))
    obtain ⟨v', hv', -⟩ := hσ n v hv
    exact ⟨v', hv'⟩

/-- By induction on the locals: their values stay where they are found, up to alike ones. -/
theorem Collects.reaches (h : Collects param m steps ls m' steps')
    (hb : Binds s [(param, a)] (bindings steps) τ) (hk : Keeps s σ τ m)
    (hc : σ.Covers (.block ls r t)) (hv : Completes s (.expr σ (.block ls r t)) v) :
    ∃ τ' w, Reaches s param a steps' τ' (r.subst m') w ∧ Alikes s v w := by
  induction h generalizing σ τ v with
  | nil =>
    obtain ⟨w, hw, hlike⟩ := hk.reaches hb (fun n hn => hc n (refers_block_nil.mpr hn)) hv.result
    exact ⟨τ, w, hw, .single hlike⟩
  | step hl _ hnew hm _ ih =>
    obtain ⟨u, hu, hrest⟩ := hv.bound
    obtain ⟨τ₁, u₁, hu₁, hτ, hlike⟩ :=
      hk.lifts hb (fun n hn => hc n (refers_block_cons.mpr (.inl hn))) hu hl
    obtain ⟨hbinds, hgrows⟩ := hu₁.push hnew
    obtain ⟨σ₁, hσ, hk₁⟩ := hk.grow (hτ.trans hgrows)
    obtain ⟨v₁, hv₁, hvv₁⟩ := hrest.rebind hlike hσ
    obtain ⟨τ', w, hw, hv₁w⟩ := ih hbinds (hk₁.step hm (by simp)) (covers_locals hc hσ) hv₁
    exact ⟨τ', w, hw, hvv₁.trans hv₁w⟩
  | inline hl _ ih =>
    obtain ⟨u, hu, hrest⟩ := hv.bound
    obtain ⟨τ₁, u₁, hu₁, hτ, hlike⟩ :=
      hk.lifts hb (fun n hn => hc n (refers_block_cons.mpr (.inl hn))) hu hl
    obtain ⟨σ₁, hσ, hk₁⟩ := hk.grow hτ
    obtain ⟨v₁, hv₁, hvv₁⟩ := hrest.rebind hlike hσ
    obtain ⟨τ', w, hw, hv₁w⟩ := ih hu₁.binds (hk₁.inline hu₁.covers hu₁.completes)
      (covers_locals hc hσ) hv₁
    exact ⟨τ', w, hw, hvv₁.trans hv₁w⟩

theorem completes_bodyParts {env : Env} {body : Expr} (h : Completes s (.expr env body) v) :
    Completes s (.expr env (.block (bodyParts body).1 (bodyParts body).2 body.ty)) v := by
  unfold bodyParts
  split
  · exact h
  · exact completes_block_nil h

theorem covers_bodyParts {env : Env} {body : Expr} (h : env.Covers body) :
    env.Covers (.block (bodyParts body).1 (bodyParts body).2 body.ty) := by
  unfold bodyParts
  split
  · exact h
  · exact fun n hn => h n (refers_block_nil.mp hn)

theorem View.Collected.reaches {view : View} {body : Expr} (h : view.Collected body)
    (hc : Env.Covers [(view.param, a)] body) (hv : Completes s (.expr [(view.param, a)] body) v) :
    ∃ τ w, Reaches s view.param a view.steps τ view.result w ∧ Alikes s v w := by
  obtain ⟨m, steps, hcollects, hlifts⟩ := h.steps
  have hstart : Keeps s [(view.param, a)] [(view.param, a)] [] := ⟨by simp, fun _ _ _ hu => hu⟩
  obtain ⟨τ₁, w₁, hw₁, hlike₁⟩ := hcollects.reaches rfl hstart (covers_bodyParts hc)
    (completes_bodyParts hv)
  obtain ⟨τ₂, w₂, hw₂, -, hlike₂⟩ := hlifts.reaches hw₁
  exact ⟨τ₂, w₂, hw₂, hlike₁.trans hlike₂⟩

/-- The steps of a view are calls with placed results, under different names. Bound one after the
other, they take the view's result to what the round comes to on the same argument, if functions
with a parameter are called on one. -/
theorem view_preserves {round : Expr} {template : Template} {view : View}
    (hclosed : round.isClosed = true) (hview : (View.ofRound round template).result = .ok view) :
    (view.param :: view.steps.map Step.name).Nodup ∧
    (∀ step ∈ view.steps, isStep step.value = true) ∧
      ∀ (s : Setting) (k : Nat) (f a v : Value), (Eval.expr s k [] round).result = .ok f →
        (Eval.call s k f (some a)).result = .ok v → Applied s (.call f (some a)) → v.isData = true →
        ∃ n₀, ∀ n ≥ n₀, (Eval.expr s n [(view.param, a)]
          (.block (bindings view.steps) view.result view.result.ty)).result = .ok v := by
  obtain ⟨body, p, t, rfl, -, hcollected⟩ := View.ofRound_collected hview
  have hdistinct := hcollected.distinct
  refine ⟨hdistinct.nodup, fun step hstep => (hdistinct.valid step hstep).placed,
    fun s k f a v hf hv happ hdata => ?_⟩
  obtain rfl := runs_lambda.mp ((runs_of_eval k).1 hf)
  have hbody : Completes s (.expr [(view.param, a)] body) v :=
    Completes.body ⟨(runs_of_eval k).2 hv, happ⟩
  have hcovers : Env.Covers [(view.param, a)] body := by
    intro n hn
    by_cases hne : n = view.param
    · exact ⟨a, by simp [hne]⟩
    · exact absurd (refers_lambda.mpr ⟨hn, by simpa using Ne.symm hne⟩) (isClosed_iff.mp hclosed n)
  obtain ⟨τ, w, hw, hlike⟩ := hcollected.reaches hcovers hbody
  obtain rfl := hlike.eq_of_isData hdata
  exact Filter.eventually_atTop.mp (runs_block.mpr ⟨τ, hw.binds, hw.completes.runs⟩).eval

/-- A round that sends the state to the participants, who apply a function to it. The round names
both. -/
def echoed : Expr :=
  let inputs := Ty.tuple [.atCoordinator .int32, .atParticipants .int32]
  let call := fun uri a t => Expr.call (.intrinsic uri (.func (Expr.ty a) t)) a t
  let same := Expr.mkLambda "x" .int32 (.ref "x" .int32)
  let state := Expr.ref "n" (.atCoordinator .int32)
  let received := call "federated_broadcast" state (.place .int32 .participants true)
  let copies := call "federated_map" (.mkTuple [.ref "f" same.ty, received])
    (.atParticipants .int32)
  .mkLambda "p" inputs
    (.mkBlock [("n", .select (.ref "p" inputs) 0 state.ty), ("f", same)] (.mkTuple [state, copies]))

/-- The calls become steps, nested as they are, and the names are gone. -/
theorem view_preserves_echoed : ∃ view, (View.ofRound echoed .broadcast).result = .ok view ∧
    view.steps.map Step.name = ["broadcast", "map"] ∧ ∃ n₀, ∀ n ≥ n₀,
    (Eval.expr ⟨2, 2⟩ n [(view.param, .pair (.atServer (.int 5)) (.atClients [.int 1, .int 2]))]
      (.block (bindings view.steps) view.result view.result.ty)).result =
        .ok (.pair (.atServer (.int 5)) (.atClients [.int 5, .int 5])) := by
  have hclosed : echoed.isClosed = true := by decide
  refine ⟨_, rfl, rfl, (view_preserves hclosed rfl).2.2 ⟨2, 2⟩ 20 _ _ _ rfl rfl ?_ rfl⟩
  have hreceived :
      ∀ env : Env, env.lookup "n" = some (.atServer (.int 5)) → ∀ t t', Completes ⟨2, 2⟩
      (.expr env (.call (.intrinsic "federated_broadcast" t) (.ref "n" (.atCoordinator .int32)) t'))
      (.atClients [.int 5, .int 5]) := fun env hn t t' =>
    completes_call ((Runs.intrinsic rfl).completes (.inl rfl)) (completes_ref hn)
      (completes_plain rfl (runs_broadcast.mpr ⟨_, rfl, rfl⟩))
  have hsame : ∀ env, Completes ⟨2, 2⟩
      (.call (.closure (some "x") (.ref "x" .int32) env) (some (.int 5))) (.int 5) :=
    fun env => completes_closure (fun _ => rfl) (completes_ref rfl)
  refine Completes.applied (v := .pair (.atServer (.int 5)) (.atClients [.int 5, .int 5])) ?_
  apply completes_closure fun _ => rfl
  apply completes_block_cons (completes_select (completes_ref rfl) rfl)
  apply completes_block_cons (Runs.lambda.completes (.inr rfl))
  apply completes_block_nil
  apply completes_tuple (.cons (completes_ref rfl) (.cons ?_ .nil))
  apply completes_call ((Runs.intrinsic rfl).completes (.inl rfl))
  · exact completes_tuple (.cons (completes_ref rfl) (.cons (hreceived _ rfl _ _) .nil))
  · exact completes_mapClients (.cons (hsame _) (.cons (hsame _) .nil))

/-- A round that calls a function of `x` without an argument, where the round itself binds `x`. -/
def unapplied : Expr :=
  let inputs := Ty.tuple [.atCoordinator .int32, .atParticipants .int32]
  .mkLambda "p" inputs (.mkBlock [("x", .int 7)] argumentless)

/-- Called without an argument, the function reads the round's local, which is gone from the
view. -/
theorem view_unapplied :
    unapplied.isClosed = true ∧ ∃ view, (View.ofRound unapplied .broadcast).result = .ok view ∧
    ∀ (s : Setting) (a : Value), (∃ f, (Eval.expr s 9 [] unapplied).result = .ok f ∧
        (Eval.call s 9 f (some a)).result = .ok (.int 7)) ∧
      ∀ n v, (Eval.expr s n [(view.param, a)]
        (.block (bindings view.steps) view.result view.result.ty)).result ≠ .ok v := by
  refine ⟨by decide, _, rfl, fun s a => ⟨⟨_, rfl, rfl⟩, fun n v h => ?_⟩⟩
  obtain ⟨_, rfl, hresult⟩ := runs_block.mp ((runs_of_eval n).1 h)
  obtain ⟨g, hg, hcall⟩ := runs_force.mp hresult
  cases hg
  cases hcall with
  | closure hbody => cases runs_ref.mp hbody

end Round

end TwoTier

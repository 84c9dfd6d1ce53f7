import TwoTier.Block
import TwoTier.Proofs.Lowering
import TwoTier.Proofs.Names

/-! # Local blocks

A block without tier leaks nothing if and only if it is closed, has no placed type anywhere, and
names no intrinsic that crosses tiers.
-/

namespace TwoTier

theorem Tier.join_fits {a b r : Tier} :
    (a.join b).fits r = true ↔ a.fits r = true ∧ b.fits r = true := by
  cases a <;> cases b <;> cases r <;> decide

theorem Tier.fits_unplaced {a : Tier} : a.fits .unplaced = true ↔ a = .unplaced := by
  cases a <;> simp [Tier.fits]

theorem Ty.tier_unplaced {t : Ty} : t.tier = .unplaced ↔ t.isPlaced = false := by
  unfold Ty.tier Ty.isPlaced
  cases t.mentions .coordinator <;> cases t.mentions .participants <;> simp [Tier.ofMentions]

theorem Ty.crossesTiers_of_not_isPlaced {t : Ty} (h : t.isPlaced = false) :
    t.crossesTiers = false := by
  simp only [Ty.isPlaced, Bool.or_eq_false_iff] at h
  simp [Ty.crossesTiers, h.1]

namespace Expr

variable {e e' : Expr} {t : Ty} {tier : Tier} {tree : TierTree}

attribute [local simp] subterms classify

theorem tier_label_fits {trees : List TierTree} : (label t trees).tier.fits tier = true ↔
    t.tier.fits tier = true ∧ ∀ part ∈ trees, part.tier.fits tier = true := by
  have hfold : ∀ a : Tier, (trees.foldl (fun tier part => tier.join part.tier) a).fits tier = true ↔
      a.fits tier = true ∧ ∀ part ∈ trees, part.tier.fits tier = true := by
    induction trees with
    | nil => simp
    | cons part trees ih => simp [ih, Tier.join_fits, and_assoc]
  exact hfold t.tier

theorem tier_label {trees : List TierTree} : (label t trees).tier = .unplaced ↔ t.isPlaced = false ∧
    ∀ part ∈ trees, part.tier = .unplaced := by
  simp only [← Tier.fits_unplaced, tier_label_fits, ← Ty.tier_unplaced]

theorem mem_labelsList {trees : List TierTree} {l : Tier} :
    l ∈ TierTree.labelsList trees ↔ ∃ part ∈ trees, l ∈ part.labels := by
  induction trees with
  | nil => simp [TierTree.labelsList]
  | cons part trees ih => simp [TierTree.labelsList, ih]

theorem classifyList_ok {es : List Expr} {trees : List TierTree} :
    classifyList es = .ok trees ↔ List.Forall₂ (fun e tree => e.classify = .ok tree) es trees := by
  induction es generalizing trees with
  | nil => cases trees <;> simp [classifyList]
  | cons e es ih =>
    simp only [classifyList, except_bind_ok, except_pure_ok, ih, List.forall₂_cons_left_iff]
    constructor
    · rintro ⟨tree, htree, trees, htrees, rfl⟩
      exact ⟨tree, trees, htree, htrees, rfl⟩
    · rintro ⟨tree, trees, htree, htrees, rfl⟩
      exact ⟨tree, htree, trees, htrees, rfl⟩

theorem classifyLocals_eq {ls : List (String × Expr)} :
    classifyLocals ls = classifyList (ls.map Prod.snd) := by
  induction ls with
  | nil => rfl
  | cons l ls ih => simp only [classifyLocals, List.map_cons, classifyList, ih]

theorem mem_subterms_self (e : Expr) : e ∈ e.subterms := by
  cases e <;> simp [subterms]

theorem mem_subterms : e' ∈ e.subterms ↔ e' = e ∨ ∃ c ∈ e.children, e' ∈ c.subterms := by
  cases e with
  | block ls r t =>
    simp only [subterms, children, List.mem_cons, List.mem_append, mem_subtermsLocals, List.mem_map]
    grind
  | _ => simp [subterms, children, mem_subtermsList, or_and_right, exists_or]

theorem forall_subterms {P : Expr → Prop} (hparts : ∀ e, P e → ∀ c ∈ e.children, P c) (h : P e) :
    ∀ e' ∈ e.subterms, P e' := by
  induction e using induct_children with
  | h e ih =>
    intro e' he'
    rcases mem_subterms.mp he' with rfl | ⟨c, hc, he'⟩
    · exact h
    · exact ih c hc (hparts e h c hc) e' he'

theorem mem_subterms_of_mem_children {c : Expr} (he' : e' ∈ e.subterms) (hc : c ∈ e'.children) :
    c ∈ e.subterms := by
  induction e using induct_children with
  | h e ih =>
    rcases mem_subterms.mp he' with rfl | ⟨p, hp, he'⟩
    · exact mem_subterms.mpr (.inr ⟨c, hc, c.mem_subterms_self⟩)
    · exact mem_subterms.mpr (.inr ⟨p, hp, ih p hp he'⟩)

theorem mem_subterms_children (h : e' ∈ e.subterms) :
    e' = e ∨ ∃ p ∈ e.subterms, e' ∈ p.children := by
  induction e using induct_children with
  | h e ih =>
    rcases mem_subterms.mp h with rfl | ⟨c, hc, he'⟩
    · exact .inl rfl
    · rcases ih c hc he' with rfl | ⟨p, hp, he'⟩
      · exact .inr ⟨e, e.mem_subterms_self, hc⟩
      · exact .inr ⟨p, mem_subterms.mpr (.inr ⟨c, hc, hp⟩), he'⟩

/-- A node is labelled by its own type and the labels of its parts. -/
theorem classify_ok (h : e.classify = .ok tree) :
    ∃ trees, List.Forall₂ (fun c part => c.classify = .ok part) e.children trees ∧
    tree = label e.ty trees := by
  cases e with
  | ref | lit | intrinsic | builtin =>
    cases h
    exact ⟨[], .nil, rfl⟩
  | tuple es t =>
    simp only [classify, except_bind_ok, except_pure_ok, classifyList_ok] at h
    obtain ⟨trees, htrees, rfl⟩ := h
    exact ⟨trees, htrees, rfl⟩
  | select e i t | force e t | lambda x e t =>
    simp only [classify, except_bind_ok, except_pure_ok] at h
    obtain ⟨part, hpart, rfl⟩ := h
    exact ⟨[part], .cons hpart .nil, rfl⟩
  | call f a t =>
    simp only [classify, except_bind_ok] at h
    obtain ⟨function, hf, argument, ha, h⟩ := h
    split at h
    · cases h
    cases h
    exact ⟨[function, argument], .cons hf (.cons ha .nil), rfl⟩
  | block ls r t =>
    simp only [classify, except_bind_ok, except_pure_ok, classifyLocals_eq, classifyList_ok] at h
    obtain ⟨trees, htrees, result, hresult, rfl⟩ := h
    exact ⟨trees ++ [result], List.rel_append htrees (.cons hresult .nil), rfl⟩

theorem fits_of_classify (h : e.classify = .ok tree) (ht : tree.tier.fits tier = true) :
    ∀ e' ∈ e.subterms, e'.ty.tier.fits tier = true := by
  have hparts : ∀ e' ∈ e.subterms, ∃ tree, e'.classify = .ok tree ∧ tree.tier.fits tier = true := by
    refine forall_subterms ?_ ⟨tree, h, ht⟩
    rintro e ⟨tree, htree, ht⟩ c hc
    obtain ⟨trees, htrees, rfl⟩ := classify_ok htree
    obtain ⟨part, hpart, hc⟩ := forall₂_mem htrees hc
    exact ⟨part, hc, (tier_label_fits.mp ht).2 part hpart⟩
  intro e' he'
  obtain ⟨tree, htree, ht⟩ := hparts e' he'
  obtain ⟨trees, -, rfl⟩ := classify_ok htree
  exact (tier_label_fits.mp ht).1

theorem not_isPlaced_of_classify (h : e.classify = .ok tree) (ht : tree.tier = .unplaced) :
    ∀ e' ∈ e.subterms, e'.ty.isPlaced = false := by
  intro e' he'
  exact Ty.tier_unplaced.mp
    (Tier.fits_unplaced.mp (fits_of_classify h (Tier.fits_unplaced.mpr ht) e' he'))

/-- Every call but an intrinsic's has to be of one tier. -/
theorem exists_classify
    (h : ∀ f a t, call f a t ∈ e.subterms → f.isIntrinsic = true ∨ a.ty.crossesTiers = false) :
    ∃ tree, e.classify = .ok tree := by
  induction e with
  | ref x t | lit a t | intrinsic uri t | builtin b t => exact ⟨label t [], rfl⟩
  | tuple es t ih =>
    obtain ⟨trees, htrees⟩ := exists_forall₂ fun e he => ih e he fun f a t hm =>
      h f a t (mem_subterms.mpr (.inr ⟨e, he, hm⟩))
    refine ⟨label t trees, ?_⟩
    simp only [classify, except_bind_ok, except_pure_ok, classifyList_ok]
    exact ⟨trees, htrees, rfl⟩
  | select e i t ih | force e t ih | lambda x e t ih =>
    obtain ⟨part, hpart⟩ :=
      ih fun f a t hm => h f a t (mem_subterms.mpr (.inr ⟨e, by simp [children], hm⟩))
    refine ⟨label t [part], ?_⟩
    simp only [classify, except_bind_ok, except_pure_ok]
    exact ⟨part, hpart, rfl⟩
  | call f a t ihf iha =>
    obtain ⟨function, hf⟩ :=
      ihf fun f' a' t' hm => h f' a' t' (mem_subterms.mpr (.inr ⟨f, by simp [children], hm⟩))
    obtain ⟨argument, ha⟩ :=
      iha fun f' a' t' hm => h f' a' t' (mem_subterms.mpr (.inr ⟨a, by simp [children], hm⟩))
    refine ⟨label t [function, argument], ?_⟩
    simp only [classify, except_bind_ok]
    refine ⟨function, hf, argument, ha, if_neg ?_⟩
    rcases h f a t (mem_subterms_self _) with hcall | hcall <;> simp [hcall]
  | block ls r t ihl ihr =>
    obtain ⟨trees, htrees⟩ :
        ∃ trees, List.Forall₂ (fun e tree => e.classify = .ok tree) (ls.map Prod.snd) trees := by
      refine exists_forall₂ fun e he => ?_
      obtain ⟨l, hl, rfl⟩ := List.mem_map.mp he
      exact ihl l hl fun f a t hm =>
        h f a t (mem_subterms.mpr (.inr ⟨l.2, by simp [children, he], hm⟩))
    obtain ⟨result, hresult⟩ :=
      ihr fun f a t hm => h f a t (mem_subterms.mpr (.inr ⟨r, by simp [children], hm⟩))
    refine ⟨label t (trees ++ [result]), ?_⟩
    simp only [classify, except_bind_ok, except_pure_ok, classifyLocals_eq, classifyList_ok]
    exact ⟨trees, htrees, result, hresult, rfl⟩

theorem classify_of_not_isPlaced (h : ∀ e' ∈ e.subterms, e'.ty.isPlaced = false) :
    ∃ tree, e.classify = .ok tree ∧ ∀ l ∈ tree.labels, l = .unplaced := by
  obtain ⟨tree, htree⟩ := exists_classify (e := e) fun f a t hm => .inr
    (Ty.crossesTiers_of_not_isPlaced (h a (mem_subterms_of_mem_children hm (by simp [children]))))
  refine ⟨tree, htree, ?_⟩
  induction e using induct_children generalizing tree with
  | h e ih =>
    obtain ⟨trees, htrees, rfl⟩ := classify_ok htree
    have hparts : ∀ part ∈ trees, ∀ l ∈ part.labels, l = .unplaced := by
      intro part hpart
      obtain ⟨c, hc, hclass⟩ := forall₂_mem htrees.flip hpart
      exact ih c hc (fun e' he' => h e' (mem_subterms.mpr (.inr ⟨c, hc, he'⟩))) part hclass
    intro l hl
    simp only [label, TierTree.labels, List.mem_cons, mem_labelsList] at hl
    rcases hl with rfl | ⟨part, hpart, hl⟩
    · refine tier_label.mpr ⟨h e e.mem_subterms_self, fun part hpart => hparts part hpart _ ?_⟩
      cases part
      simp [TierTree.tier, TierTree.labels]
    · exact hparts part hpart l hl

theorem root_mem_labels : (e, tree.tier) ∈ e.subterms.zip tree.labels := by
  cases e <;> cases tree <;> simp [subterms, TierTree.tier, TierTree.labels]

theorem leak?_none : e.leak? tier = none ↔ ∃ tree, e.classify = .ok tree ∧
    (tier = .crossTier ∨ ∀ e' ∈ e.subterms, e'.crossingLeak? = none) ∧ (∀ z, ¬ e.Refers z) ∧
    ∀ p ∈ e.subterms.zip tree.labels, p.2.fits tier = true := by
  have hfree : e.free.head? = none ↔ ∀ z, ¬ e.Refers z := by
    rw [List.head?_eq_none_iff, List.eq_nil_iff_forall_not_mem]
    simp only [mem_free]
  unfold leak?
  split
  · rename_i m hm
    simp [hm]
  · rename_i tree htree
    simp only [htree, Except.ok.injEq, exists_eq_left', Option.orElse_eq_orElse,
      Option.orElse_eq_or, Option.or_eq_none_iff, Option.map_eq_none_iff, hfree, List.find?_eq_none]
    refine and_congr ?_ (and_congr_right fun _ => by simp)
    by_cases hc : tier = .crossTier <;> simp [hc]

theorem closed_of_leak? (h : e.leak? tier = none) : ∀ z, ¬ e.Refers z := by
  obtain ⟨_, -, -, hclosed, -⟩ := leak?_none.mp h
  exact hclosed

/-- No part has a placed type or crosses tiers. -/
def Bare (e : Expr) : Prop :=
  ∀ e' ∈ e.subterms, e'.ty.isPlaced = false ∧ e'.crossingLeak? = none

section Bare

variable {x : String} {i : Nat} {t : Ty} {f a : Expr}

theorem Bare.unplaced (h : e.Bare) : e.ty.isPlaced = false :=
  (h e e.mem_subterms_self).1

theorem bare_ref : (ref x t).Bare ↔ t.isPlaced = false := by
  simp [Bare, subterms, crossingLeak?]

theorem bare_tuple {es : List Expr} :
    (Expr.tuple es t).Bare ↔ t.isPlaced = false ∧ ∀ e ∈ es, e.Bare := by
  simp only [Bare, subterms, List.forall_mem_cons, mem_subtermsList, ty_tuple, crossingLeak?,
    and_true, forall_exists_index, and_imp]
  exact and_congr_right fun _ => ⟨fun h e he e' he' => h e' e he he',
    fun h e' e he he' => h e he e' he'⟩

theorem bare_select : (select e i t).Bare ↔ t.isPlaced = false ∧ e.Bare := by
  simp [Bare, subterms, crossingLeak?]

theorem bare_call : (call f a t).Bare ↔ t.isPlaced = false ∧ f.Bare ∧ a.Bare := by
  simp only [Bare, subterms, List.forall_mem_cons, List.forall_mem_append, ty_call,
    crossingLeak?, and_true]

theorem bare_force : (force f t).Bare ↔ t.isPlaced = false ∧ f.Bare := by
  simp [Bare, subterms, crossingLeak?]

theorem bare_lambda {x : Option String} : (lambda x e t).Bare ↔ t.isPlaced = false ∧ e.Bare := by
  simp [Bare, subterms, crossingLeak?]

theorem bare_mkBlock {ls : List (String × Expr)} :
    (mkBlock ls e).Bare ↔ (∀ l ∈ ls, l.2.Bare) ∧ e.Bare := by
  have hblock : (block ls e e.ty).Bare ↔ (∀ l ∈ ls, l.2.Bare) ∧ e.Bare := by
    simp only [Bare, subterms, List.forall_mem_cons, List.forall_mem_append, mem_subtermsLocals,
      ty_block, crossingLeak?, and_true, forall_exists_index, and_imp]
    exact ⟨fun h => ⟨fun l hl e' he' => h.2.1 e' l hl he', h.2.2⟩,
      fun h => ⟨(h.2 e e.mem_subterms_self).1, fun e' l hl he' => h.1 l hl e' he', h.2⟩⟩
  cases ls with
  | nil => simp [mkBlock]
  | cons l ls => exact hblock

end Bare

theorem leak?_unplaced : e.leak? .unplaced = none ↔ (∀ z, ¬ e.Refers z) ∧ e.Bare := by
  rw [leak?_none]
  constructor
  · rintro ⟨tree, htree, hcross, hclosed, hfits⟩
    have hty := not_isPlaced_of_classify htree (Tier.fits_unplaced.mp (hfits _ root_mem_labels))
    exact ⟨hclosed, fun e' he' => ⟨hty e' he', hcross.resolve_left (by simp) e' he'⟩⟩
  · rintro ⟨hclosed, hbare⟩
    obtain ⟨tree, htree, hlabels⟩ := classify_of_not_isPlaced fun e' he' => (hbare e' he').1
    refine ⟨tree, htree, .inr fun e' he' => (hbare e' he').2, hclosed, fun p hp => ?_⟩
    exact Tier.fits_unplaced.mpr (hlabels _ (List.of_mem_zip hp).2)

end Expr

end TwoTier

import TwoTier.Proofs.Locality

/-! # Tiers of nodes

The label of a node is the tier of all placements in the types of the node and its parts: joining
labels and uniting placements come to the same. A block therefore stays on a tier, node by node, as
soon as its root does.
-/

namespace TwoTier

theorem Tier.join_ofMentions {a b c d : Bool} :
    (ofMentions a b).join (ofMentions c d) = ofMentions (a || c) (b || d) := by
  cases a <;> cases b <;> cases c <;> cases d <;> rfl

theorem Tier.fits_ofMentions {a b c d : Bool} {r : Tier} (h : (ofMentions a b).fits r = true)
    (hc : c = true → a = true) (hd : d = true → b = true) : (ofMentions c d).fits r = true := by
  have hmore : (ofMentions c d).join (ofMentions a b) = ofMentions a b := by
    rw [join_ofMentions, Bool.or_eq_right_iff_imp.mpr hc, Bool.or_eq_right_iff_imp.mpr hd]
  rw [← hmore, join_fits] at h
  exact h.1

namespace Expr

variable {e e' : Expr} {p : Placement}

/-- The type of some node mentions `p`. -/
def touches (p : Placement) (e : Expr) : Bool :=
  e.subterms.any fun part => part.ty.mentions p

/-- The tier of all placements that the types of the nodes mention. -/
def reach (e : Expr) : Tier :=
  Tier.ofMentions (e.touches .coordinator) (e.touches .participants)

theorem subterms_eq : e.subterms = e :: e.children.flatMap subterms := by
  have hlist : ∀ es, subtermsList es = es.flatMap subterms := by
    intro es
    induction es with
    | nil => rfl
    | cons e es ih => rw [subtermsList, ih, List.flatMap_cons]
  have hlocals : ∀ ls, subtermsLocals ls = (ls.map Prod.snd).flatMap subterms := by
    intro ls
    induction ls with
    | nil => rfl
    | cons l ls ih => rw [subtermsLocals, ih, List.map_cons, List.flatMap_cons]
  cases e <;> simp [subterms, children, hlist, hlocals]

theorem mem_subterms_trans (he : e ∈ e'.subterms) : ∀ part ∈ e.subterms, part ∈ e'.subterms := by
  refine forall_subterms (P := fun e => ∀ part ∈ e.subterms, part ∈ e'.subterms) ?_
    (fun _ h => h) e he
  exact fun e h c hc part hpart => h part (mem_subterms.mpr (.inr ⟨c, hc, hpart⟩))

theorem touches_of_mem (he : e ∈ e'.subterms) (h : e.touches p = true) : e'.touches p = true := by
  obtain ⟨part, hpart, hp⟩ := List.any_eq_true.mp h
  exact List.any_eq_true.mpr ⟨part, mem_subterms_trans he part hpart, hp⟩

theorem forall_reach_fits {r : Tier} :
    (∀ part ∈ e.subterms, part.reach.fits r = true) ↔ e.reach.fits r = true :=
  ⟨fun h => h e e.mem_subterms_self,
    fun h _ hpart => Tier.fits_ofMentions h (touches_of_mem hpart) (touches_of_mem hpart)⟩

theorem touches_eq : e.touches p = (e.ty.mentions p || e.children.any (touches p)) := by
  rw [touches, subterms_eq, List.any_cons, List.any_flatMap]
  rfl

theorem reach_eq : e.reach = Tier.ofMentions
    (e.ty.mentions .coordinator || e.children.any (touches .coordinator))
    (e.ty.mentions .participants || e.children.any (touches .participants)) := by
  rw [reach, touches_eq, touches_eq]

end Expr

/-- The tree has a node for every node of the expression, labelled with the tier of all that it and
its parts touch. -/
inductive TierTree.Mirrors : Expr → TierTree → Prop where

  | node {e : Expr} {trees : List TierTree} :
      List.Forall₂ Mirrors e.children trees → Mirrors e (.node e.reach trees)

namespace TierTree

variable {e : Expr} {tree : TierTree}

theorem Mirrors.tier (h : Mirrors e tree) : tree.tier = e.reach := by
  cases h
  rfl

theorem Mirrors.labels (h : Mirrors e tree) : tree.labels = e.subterms.map Expr.reach := by
  have hlist : ∀ trees, labelsList trees = trees.flatMap TierTree.labels := by
    intro trees
    induction trees with
    | nil => rfl
    | cons tree trees ih => rw [labelsList, ih, List.flatMap_cons]
  induction e using Expr.induct_children generalizing tree with
  | h e ih =>
    obtain @⟨_, trees, hparts⟩ := h
    have hflat :
        trees.flatMap TierTree.labels = (e.children.flatMap Expr.subterms).map Expr.reach := by
      generalize e.children = es at hparts ih
      induction hparts with
      | nil => rfl
      | cons hpart _ ihparts =>
        rw [List.flatMap_cons, List.flatMap_cons, List.map_append, ih _ List.mem_cons_self hpart,
          ihparts fun c hc => ih c (List.mem_cons_of_mem _ hc)]
    rw [TierTree.labels, hlist, hflat, Expr.subterms_eq, List.map_cons]

end TierTree

namespace Expr

variable {e : Expr} {tree : TierTree}

/-- Labels that are joined unite the placements. -/
theorem tier_label_reach {t : Ty} {es : List Expr} {trees : List TierTree}
    (h : List.Forall₂ (fun c part => part.tier = c.reach) es trees) :
    (label t trees).tier = Tier.ofMentions
      (t.mentions .coordinator || es.any (touches .coordinator))
      (t.mentions .participants || es.any (touches .participants)) := by
  -- Over the label so far, which is the tier of the node's own type at first.
  have hfold : ∀ a b : Bool, trees.foldl (fun tier part => tier.join part.tier)
      (Tier.ofMentions a b) = Tier.ofMentions (a || es.any (touches .coordinator))
      (b || es.any (touches .participants)) := by
    induction h with
    | nil => simp
    | cons hpart _ ih =>
      intro a b
      rw [List.foldl_cons, hpart, reach, Tier.join_ofMentions, ih, List.any_cons, List.any_cons,
        Bool.or_assoc, Bool.or_assoc]
  exact hfold _ _

theorem mirrors_of_classify (h : e.classify = .ok tree) : TierTree.Mirrors e tree := by
  induction e using induct_children generalizing tree with
  | h e ih =>
    obtain ⟨trees, hparts, rfl⟩ := classify_ok h
    have hmirrors : List.Forall₂ TierTree.Mirrors e.children trees :=
      ((List.forall₂_and_left _ _).mpr ⟨ih, hparts⟩).imp fun _ _ h => h.1 h.2
    have hroot : label e.ty trees = .node e.reach trees := by
      rw [reach_eq, ← tier_label_reach (hmirrors.imp fun _ _ hpart => hpart.tier)]
      rfl
    rw [hroot]
    exact .node hmirrors

/-- Some call, not of an intrinsic, takes values of both tiers. -/
def MixesTiers (e : Expr) : Prop :=
  ∃ f a t, call f a t ∈ e.subterms ∧ f.isIntrinsic = false ∧ a.ty.crossesTiers = true

theorem exists_classify_part (h : e.classify = .ok tree) :
    ∀ part ∈ e.subterms, ∃ tree, part.classify = .ok tree := by
  refine forall_subterms ?_ ⟨tree, h⟩
  rintro e ⟨tree, htree⟩ c hc
  obtain ⟨trees, hparts, -⟩ := classify_ok htree
  obtain ⟨part, -, hpart⟩ := forall₂_mem hparts hc
  exact ⟨part, hpart⟩

theorem not_mixesTiers (h : e.classify = .ok tree) : ¬ e.MixesTiers := by
  rintro ⟨f, a, t, hcall, hf, ha⟩
  obtain ⟨tree', hcall⟩ := exists_classify_part h _ hcall
  simp only [classify, except_bind_ok] at hcall
  obtain ⟨function, -, argument, -, hcall⟩ := hcall
  rw [if_pos (by simp [hf, ha])] at hcall
  cases hcall

theorem classify_error : (∃ mixed, e.classify = .error mixed) ↔ e.MixesTiers := by
  constructor
  · rintro ⟨mixed, herror⟩
    by_contra hmixes
    obtain ⟨tree, htree⟩ : ∃ tree, e.classify = .ok tree := by
      refine exists_classify fun f a t hcall => ?_
      by_contra hcrosses
      simp only [not_or, Bool.not_eq_true, Bool.not_eq_false] at hcrosses
      exact hmixes ⟨f, a, t, hcall, hcrosses⟩
    cases herror.symm.trans htree
  · intro hmixes
    cases hclass : e.classify with
    | error mixed => exact ⟨mixed, rfl⟩
    | ok tree => exact absurd hmixes (not_mixesTiers hclass)

/-- Classification fails if and only if some call, not of an intrinsic, takes values of both tiers.
Otherwise each node is labelled with the tier of all placements in the types of the node and its
parts. Every label fits a tier if and only if the one at the root does, and what fits leaks by a
free reference or a crossing only. -/
theorem classify_reach :
    ((∃ mixed, e.classify = .error mixed) ↔ e.MixesTiers) ∧
    ∀ tree, e.classify = .ok tree → TierTree.Mirrors e tree ∧ ∀ required,
      ((∀ node ∈ e.subterms.zip tree.labels, node.2.fits required = true) ↔
        tree.tier.fits required = true) ∧
      (e.leak? required = none ↔ tree.tier.fits required = true ∧ e.free = [] ∧
        (required = .crossTier ∨ ∀ part ∈ e.subterms, part.crossingLeak? = none)) := by
  refine ⟨classify_error, fun tree htree => ?_⟩
  have hmirrors := mirrors_of_classify htree
  have hnodes : ∀ required, (∀ node ∈ e.subterms.zip tree.labels, node.2.fits required = true) ↔
      tree.tier.fits required = true := by
    intro required
    rw [hmirrors.labels, hmirrors.tier, ← forall_reach_fits, ← List.map_prod_left_eq_zip]
    simp
  refine ⟨hmirrors, fun required => ⟨hnodes required, ?_⟩⟩
  rw [leak?_none, List.eq_nil_iff_forall_not_mem]
  simp only [htree, Except.ok.injEq, exists_eq_left', hnodes, mem_free]
  tauto

def sentOn : Expr :=
  let sent := Ty.place .int32 .participants true
  .mkLambda "s" (.atCoordinator .int32) (.call (.intrinsic "federated_broadcast"
    (.func (.atCoordinator .int32) sent)) (.ref "s" (.atCoordinator .int32)) sent)

def takenTogether : Expr :=
  let both := Ty.tuple [.atCoordinator .int32, .atParticipants .int32]
  .mkTuple [.call (.ref "f" (.func both .int32)) (.ref "p" both) .int32]

theorem classify_reach_sentOn :
    (∃ tree, sentOn.classify = .ok tree ∧ TierTree.Mirrors sentOn tree ∧ sentOn.reach = .crossTier ∧
      ¬ ∀ node ∈ sentOn.subterms.zip tree.labels, node.2.fits .coordinator = true) ∧
    ∃ mixed, takenTogether.classify = .error mixed := by
  refine ⟨⟨_, rfl, (classify_reach.2 _ rfl).1, rfl, ?_⟩, classify_reach.1.mpr ?_⟩
  · rw [((classify_reach.2 _ rfl).2 _).1]
    decide
  · exact ⟨_, _, _, List.mem_cons_of_mem _ List.mem_cons_self, rfl, rfl⟩

end Expr

end TwoTier

import Mathlib.Data.List.Forall2
import Mathlib.Tactic.Common

/-! # Lists compared item by item -/

namespace TwoTier

variable {α β γ : Type} {R : α → β → Prop}

theorem zip_forall {as : List α} {bs : List β} (h : List.Forall₂ R as bs) :
    as.length = bs.length ∧ ∀ p ∈ as.zip bs, R p.1 p.2 :=
  ⟨h.length_eq, fun _ hp => (List.forall₂_iff_zip.mp h).2 hp⟩

theorem forall₂_of_zip {as : List α} {bs : List β} (hl : as.length = bs.length)
    (h : ∀ p ∈ as.zip bs, R p.1 p.2) : List.Forall₂ R as bs :=
  List.forall₂_iff_zip.mpr ⟨hl, fun hp => h _ hp⟩

theorem forall₂_headD {as : List α} {bs : List β} {a : α} {b : β} (h : List.Forall₂ R as bs)
    (hab : R a b) :
    R (as.headD a) (bs.headD b) := by
  cases h with
  | nil => exact hab
  | cons h _ => exact h

theorem forall₂_tail {as : List α} {bs : List β} (h : List.Forall₂ R as bs) :
    List.Forall₂ R as.tail bs.tail := by
  cases h with
  | nil => exact .nil
  | cons _ h => exact h

theorem forall₂_eq_map {f : β → α} {as : List α} {bs : List β} :
    List.Forall₂ (fun a b => a = f b) as bs ↔ as = bs.map f := by
  rw [← List.forall₂_eq_eq_eq, List.forall₂_map_right_iff]

theorem forall₂_self {S : α → α → Prop} {as : List α} {bs : List β} (h : List.Forall₂ R as bs)
    (hR : ∀ a b, R a b → S a a) : List.Forall₂ S as as := by
  induction h with
  | nil => exact .nil
  | cons h _ ih => exact .cons (hR _ _ h) ih

theorem forall₂_comp {S : β → γ → Prop} {T : α → γ → Prop} {as : List α} {bs : List β} {cs : List γ}
    (h : List.Forall₂ R as bs) (h' : List.Forall₂ S bs cs) (hT : ∀ a b c, R a b → S b c → T a c) :
    List.Forall₂ T as cs := by
  induction h generalizing cs with
  | nil =>
    cases h'
    exact .nil
  | cons h _ ih =>
    cases h' with
    | cons hs h' => exact .cons (hT _ _ _ h hs) (ih h')

theorem forall₂_replicate {n : Nat} {a : α} {b : β} (h : R a b) :
    List.Forall₂ R (List.replicate n a) (List.replicate n b) := by
  induction n with
  | zero => exact .nil
  | succ n ih => exact .cons h ih

theorem forall₂_getElem? {as : List α} {bs : List β} (h : List.Forall₂ R as bs) {i : Nat} {a : α}
    (ha : as[i]? = some a) : ∃ b, bs[i]? = some b ∧ R a b := by
  induction h generalizing i with
  | nil => simp at ha
  | cons hab _ ih =>
    cases i with
    | zero =>
      simp only [List.getElem?_cons_zero, Option.some.injEq] at ha ⊢
      exact ⟨_, rfl, ha ▸ hab⟩
    | succ i => exact ih ha

theorem forall₂_of_getElem? {as : List α} {bs : List β} (hl : as.length = bs.length)
    (h : ∀ (i : Nat) a b, as[i]? = some a → bs[i]? = some b → R a b) : List.Forall₂ R as bs :=
  List.forall₂_iff_get.mpr
    ⟨hl, fun i ha hb => h i _ _ (List.getElem?_eq_getElem ha) (List.getElem?_eq_getElem hb)⟩

theorem forall₂_mem {as : List α} {bs : List β} (h : List.Forall₂ R as bs) {a : α} (ha : a ∈ as) :
    ∃ b ∈ bs, R a b := by
  obtain ⟨i, hi⟩ := List.getElem?_of_mem ha
  obtain ⟨b, hb, hab⟩ := forall₂_getElem? h hi
  exact ⟨b, List.mem_of_getElem? hb, hab⟩

theorem forall_of_zip {P : β → Prop} {as : List α} {bs : List β} (hl : as.length = bs.length)
    (h : ∀ p ∈ as.zip bs, P p.2) : ∀ b ∈ bs, P b := by
  intro b hb
  obtain ⟨a, -, hb⟩ := forall₂_mem (forall₂_of_zip (R := fun _ b => P b) hl h).flip hb
  exact hb

theorem forall₂_zipIdx {R : α × Nat → β → Prop} {as : List α} {bs : List β}
    (h : List.Forall₂ R as.zipIdx bs) :
    as.length = bs.length ∧ ∀ (i : Nat) a b, as[i]? = some a → bs[i]? = some b → R (a, i) b := by
  refine ⟨by simpa using h.length_eq, fun i a b ha hb => ?_⟩
  obtain ⟨b', hb', hr⟩ := forall₂_getElem? h (i := i) (a := (a, i)) (by simp [ha])
  cases hb.symm.trans hb'
  exact hr

theorem mapM_eq_some {f : α → Option β} {as : List α} {bs : List β} :
    as.mapM f = some bs ↔ List.Forall₂ (fun a b => f a = some b) as bs := by
  induction as generalizing bs with
  | nil => cases bs <;> simp
  | cons a as ih =>
    simp only [List.mapM_cons, Option.bind_eq_bind, Option.bind_eq_some_iff, Option.pure_def,
      Option.some.injEq, ih, List.forall₂_cons_left_iff, @eq_comm _ _ bs]
    exact ⟨fun ⟨b, hb, bs', h, hbs⟩ => ⟨b, bs', hb, h, hbs⟩,
      fun ⟨b, bs', hb, h, hbs⟩ => ⟨b, hb, bs', h, hbs⟩⟩

theorem exists_forall₂ {as : List α} (h : ∀ a ∈ as, ∃ b, R a b) : ∃ bs, List.Forall₂ R as bs := by
  induction as with
  | nil => exact ⟨[], .nil⟩
  | cons a as ih =>
    obtain ⟨b, hb⟩ := h a (by simp)
    obtain ⟨bs, hbs⟩ := ih fun a ha => h a (by simp [ha])
    exact ⟨b :: bs, .cons hb hbs⟩

theorem forall₂_choose {P : α → β → Prop} {Q : α → γ → Prop} {S : β → γ → Prop} {as : List α}
    {bs : List β} (h : List.Forall₂ P as bs) (hP : ∀ a ∈ as, ∀ b, P a b → ∃ c, Q a c ∧ S b c) :
    ∃ cs, List.Forall₂ Q as cs ∧ List.Forall₂ S bs cs := by
  induction h with
  | nil => exact ⟨[], .nil, .nil⟩
  | cons hab _ ih =>
    obtain ⟨c, hq, hs⟩ := hP _ (by simp) _ hab
    obtain ⟨cs, hqs, hss⟩ := ih fun a ha => hP a (by simp [ha])
    exact ⟨c :: cs, .cons hq hqs, .cons hs hss⟩

theorem forall₂_choose_getElem? {Q : α → γ → Prop} {S : β → γ → Prop} {as : List α} {bs : List β}
    (hl : as.length = bs.length)
    (h : ∀ (i : Nat) a b, as[i]? = some a → bs[i]? = some b → ∃ c, Q a c ∧ S b c) :
    ∃ cs, List.Forall₂ Q as cs ∧ List.Forall₂ S bs cs := by
  exact forall₂_choose (forall₂_of_getElem? hl h) fun a _ b hab => hab

theorem forall₂_somes {os : List (Option α)} {bs : List β}
    (h : List.Forall₂ (fun o b => ∃ a, o = some a ∧ R a b) os bs) :
    List.Forall₂ R (os.filterMap id) bs := by
  induction h with
  | nil => exact .nil
  | cons hab _ ih =>
    obtain ⟨a, rfl, hab⟩ := hab
    exact .cons hab ih

theorem forall₂_carry {P : α → β → Prop} {δ : Type} {P' : γ → δ → Prop} {S : β → δ → Prop}
    {T : α → γ → Prop} {as : List α} {bs : List β} {cs : List γ} (h : List.Forall₂ P as bs)
    (hT : List.Forall₂ T as cs) (hP : ∀ a b c, P a b → T a c → ∃ d, P' c d ∧ S b d) :
    ∃ ds, List.Forall₂ P' cs ds ∧ List.Forall₂ S bs ds := by
  induction h generalizing cs with
  | nil =>
    cases hT
    exact ⟨[], .nil, .nil⟩
  | cons hab _ ih =>
    cases hT with
    | cons hac hT =>
      obtain ⟨d, hd, hs⟩ := hP _ _ _ hab hac
      obtain ⟨ds, hds, hss⟩ := ih hT
      exact ⟨d :: ds, .cons hd hds, .cons hs hss⟩

theorem forall₂_map_inv {R : β → γ → Prop} {S : α → α → Prop} {f : α → β}
    {g : α → γ} {as : List α} {cs : List γ} (h : List.Forall₂ R (as.map f) cs)
    (hf : ∀ a c, R (f a) c → ∃ a', c = g a' ∧ S a a') :
    ∃ as', cs = as'.map g ∧ List.Forall₂ S as as' := by
  rw [List.forall₂_map_left_iff] at h
  induction h with
  | nil => exact ⟨[], rfl, .nil⟩
  | cons hc _ ih =>
    obtain ⟨a', rfl, ha⟩ := hf _ _ hc
    obtain ⟨as', rfl, has⟩ := ih
    exact ⟨a' :: as', rfl, .cons ha has⟩

end TwoTier

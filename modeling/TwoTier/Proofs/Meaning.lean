import TwoTier.Proofs.Substitution

/-! # The meaning of an expression in a round

A round names some of the values that it computes. An expression over these names means a value of
the round part by part: what a part means is stated with the values that the round itself has for
it. A function or a block inside the expression has to behave like its value only if it is closed.
-/

namespace TwoTier

/-- A name of a round with the type and the value that it has there. -/
structure Cell where
  name : String
  ty : Ty
  value : Value

def Expr.isWhole : Expr → Bool
  | .lambda _ _ _ | .block _ _ _ => true
  | _ => false

def Expr.isEmptyZip : Expr → Bool
  | .intrinsic uri (.func (.tuple []) _) => Intrinsic.ofUri? uri == some (.within .zipAtClients)
  | _ => false

/-- The expression zips no participant values somewhere. -/
def Expr.zipsNothing (e : Expr) : Bool :=
  e.subterms.any isEmptyZip

/-- The expression means the value, where the cells give the meaning of names. Under `Z` it may not
zip nothing at the participants. -/
inductive Means (s : Setting) (Z : Prop) (C : List Cell) : Expr → Value → Prop where

  | ref {c : Cell} : c ∈ C → Inhabits s c.ty c.value → Means s Z C (.ref c.name c.ty) c.value

  | lit {a : Literal} : Means s Z C (.lit a a.ty) a.value

  | builtin {b : Builtin} {t : Ty} : t.isNumeric = true →
      Means s Z C (.builtin b (.func (b.paramType t) t)) (.builtin b t)

  | whole {e : Expr} {v : Value} : e.isWhole = true → e.Typed [] → Inhabits s e.ty v →
      ((∀ n, ¬ e.Refers n) → ∀ τ, ∃ w, Runs s (.expr τ e) w ∧ Similar s e.ty v w) → Means s Z C e v

  | tuple {es : List Expr} {vs : List Value} :
      es.length = vs.length → (∀ p ∈ es.zip vs, Means s Z C p.1 p.2) →
      Means s Z C (.tuple es (.tuple (es.map Expr.ty))) (.tuple vs)

  | select {e : Expr} {i : Nat} {t : Ty} {ts : List Ty} {vs : List Value} {v : Value} :
      e.ty = .tuple ts →
      ts[i]? = some t → Means s Z C e (.tuple vs) → vs[i]? = some v → Means s Z C (.select e i t) v

  | intrinsic {uri : String} {op : Intrinsic} {a : Expr} {t : Ty} {b v : Value} :
      Intrinsic.ofUri? uri = some op →
      op.resultType a.ty = .ok t → (Z → op = .within .zipAtClients → a.ty ≠ .tuple []) →
      Means s Z C a b → Runs s (.call (.intrinsic op (.func a.ty t)) (some b)) v →
      Means s Z C (.call (.intrinsic uri (.func a.ty t)) a t) v

  | call {f a : Expr} {p t : Ty} {g b v : Value} :
      f.ty = .func p t → p.accepts a.ty = true → Means s Z C f g →
      Means s Z C a b → Runs s (.call g (some b)) v → Means s Z C (.call f a t) v

  | force {f : Expr} {t : Ty} {g v : Value} :
      f.ty = .thunk t → Means s Z C f g → Runs s (.call g none) v →
      Means s Z C (.force f t) v

namespace Means

open Expr

variable {s : Setting} {Z : Prop} {C C' : List Cell} {e : Expr} {v : Value}

theorem typed (h : Means s Z C e v) : e.Typed [] := by
  induction h with
  | ref _ _ => exact typed_ref.mpr (by simp)
  | lit => exact typed_lit.mpr rfl
  | builtin ht => exact typed_builtin.mpr ⟨_, ht, rfl⟩
  | whole _ ht _ _ => exact ht
  | tuple hl _ ih =>
    refine typed_tuple.mpr ⟨fun e he => ?_, rfl⟩
    obtain ⟨i, hi⟩ := List.getElem?_of_mem he
    have hlt := (List.getElem?_eq_some_iff.mp hi).1
    exact ih (e, _) (List.mem_of_getElem? (i := i) (by
      simp only [List.getElem?_zip_eq_some]
      exact ⟨hi, List.getElem?_eq_getElem (hl ▸ hlt)⟩))
  | select hts ht _ _ ih => exact typed_select.mpr ⟨ih, _, hts, ht⟩
  | intrinsic ho hr _ _ _ ih => exact typed_call.mpr ⟨ih, .intrinsic rfl ho hr⟩
  | call hf hacc _ _ _ ihf iha => exact typed_call.mpr ⟨iha, .function ihf hf hacc⟩
  | force hf _ _ ih => exact typed_force.mpr ⟨ih, hf⟩

theorem mono (h : Means s Z C e v) (hC : ∀ c ∈ C, c ∈ C') : Means s Z C' e v := by
  induction h with
  | ref hc hv => exact .ref (hC _ hc) hv
  | lit => exact .lit
  | builtin ht => exact .builtin ht
  | whole hw ht hv h => exact .whole hw ht hv h
  | tuple hl _ ih => exact .tuple hl ih
  | select hts ht _ hv ih => exact .select hts ht ih hv
  | intrinsic ho hr hz _ hv ih => exact .intrinsic ho hr hz ih hv
  | call hf hacc _ _ hv ihf iha => exact .call hf hacc ihf iha hv
  | force hf _ hv ih => exact .force hf ih hv

theorem cell {x : String} {t : Ty} (h : Means s Z C (.ref x t) v) :
    ∃ c ∈ C, c.name = x ∧ c.ty = t ∧ c.value = v := by
  generalize he : Expr.ref x t = e at h
  cases h with
  | @ref c hc _ =>
    cases he
    exact ⟨c, hc, rfl, rfl, rfl⟩
  | whole hw =>
    subst he
    cases hw
  | lit | builtin _ | tuple _ _ | select _ _ _ _ | intrinsic _ _ _ _ _ | call _ _ _ _ _
      | force _ _ _ =>
    cases he

theorem inhabits (h : Means s Z C e v) : Inhabits s e.ty v := by
  induction h with
  | ref _ hv => exact hv
  | @lit a => cases a <;> exact ⟨rfl, rfl⟩
  | builtin ht => exact similar_builtin ht
  | whole _ _ hv _ => exact hv
  | tuple hl _ ih =>
    have hes := forall₂_of_zip (R := fun e v => Inhabits s e.ty v) hl ih
    obtain ⟨ws, -, hvw⟩ :=
      exists_similarEach (Q := fun _ _ => True) hes fun _ _ v hv => ⟨v, trivial, hv⟩
    exact Similar.left (t := .tuple _) ⟨_, ws, rfl, rfl, hvw⟩
  | select hts ht _ hv ih =>
    rw [hts] at ih
    obtain ⟨_, _, _, _, hvw⟩ := Similar.element ih ht hv
    exact hvw.left
  | intrinsic _ hr _ _ hv ih =>
    obtain ⟨_, -, hvw⟩ := mimics_intrinsic hr ih _ hv
    exact hvw.left
  | call hf hacc _ _ hv ihf iha =>
    rw [hf] at ihf
    rw [Inhabits, ← similar_of_standsFor hacc] at iha
    obtain ⟨_, -, hvw⟩ := (ihf.2.2 _ _ iha).1 _ hv
    exact hvw.left
  | force hf _ hv ih =>
    rw [hf] at ih
    obtain ⟨_, -, hvw⟩ := ih.2.2 _ hv
    exact hvw.left

theorem runs_of_closed (h : Means s Z C e v) (hc : ∀ n, ¬ e.Refers n) (τ : Env) :
    ∃ w, Runs s (.expr τ e) w ∧ Similar s e.ty v w := by
  induction h with
  | ref _ _ => exact absurd (refers_ref.mpr rfl) (hc _)
  | @lit a => exact ⟨_, runs_lit.mpr rfl, by cases a <;> exact ⟨rfl, rfl⟩⟩
  | builtin ht => exact ⟨_, runs_builtin.mpr rfl, similar_builtin ht⟩
  | whole _ _ _ h => exact h hc τ
  | @tuple es vs hl _ ih =>
    have hes : List.Forall₂ (fun e v => ∃ w, Runs s (.expr τ e) w ∧ Similar s e.ty v w) es vs :=
      forall₂_of_zip hl fun p hp =>
        ih p hp fun n hn => hc n (refers_tuple.mpr ⟨p.1, (List.of_mem_zip hp).1, hn⟩)
    obtain ⟨ws, hws, hvw⟩ := exists_similarEach hes fun _ _ _ h => h
    exact ⟨_, runs_tuple.mpr ⟨ws, hws, rfl⟩, vs, ws, rfl, rfl, hvw⟩
  | select hts ht _ hv ih =>
    obtain ⟨w, hw, hvw⟩ := ih fun n hn => hc n (refers_select.mpr hn)
    rw [hts] at hvw
    obtain ⟨ws, w', rfl, hw', hvw'⟩ := hvw.element ht hv
    exact ⟨w', runs_select.mpr ⟨ws, hw, hw'⟩, hvw'⟩
  | intrinsic ho hr _ _ hv ih =>
    obtain ⟨b', hb', hbb⟩ := ih fun n hn => hc n (refers_call.mpr (.inr hn))
    obtain ⟨w, hw, hvw⟩ := mimics_intrinsic hr hbb _ hv
    exact ⟨w, .call (runs_intrinsic.mpr ⟨_, ho, rfl⟩) hb' hw, hvw⟩
  | call hf hacc _ _ hv ihf iha =>
    obtain ⟨g', hg', hgg⟩ := ihf fun n hn => hc n (refers_call.mpr (.inl hn))
    obtain ⟨b', hb', hbb⟩ := iha fun n hn => hc n (refers_call.mpr (.inr hn))
    rw [hf] at hgg
    rw [← similar_of_standsFor hacc] at hbb
    obtain ⟨w, hw, hvw⟩ := (hgg.2.2 _ _ hbb).2 _ hv
    exact ⟨w, .call hg' hb' hw, hvw⟩
  | force hf _ hv ih =>
    obtain ⟨g', hg', hgg⟩ := ih fun n hn => hc n (refers_force.mpr hn)
    rw [hf] at hgg
    obtain ⟨w, hw, hvw⟩ := hgg.2.2 _ hv
    exact ⟨w, .force hg' hw, hvw⟩

theorem selectOf {i : Nat} {t : Ty} {ts : List Ty} {vs : List Value} (h : Means s Z C e (.tuple vs))
    (hts : e.ty = .tuple ts) (ht : ts[i]? = some t) (hv : vs[i]? = some v) :
    Means s Z C (e.selectOf i t) v := by
  unfold Expr.selectOf
  split
  · rename_i es u
    cases h with
    | whole hw => cases hw
    | tuple hl hes =>
      obtain rfl := Ty.tuple.inj hts
      simp only [List.getElem?_map, Option.map_eq_some_iff] at ht
      obtain ⟨e, he, rfl⟩ := ht
      have hp : (e, v) ∈ es.zip vs :=
        List.mem_of_getElem? (i := i) (by simp [List.getElem?_zip_eq_some, he, hv])
      simpa [List.getD_eq_getElem?_getD, he] using hes _ hp
  · exact .select hts ht h hv

theorem reads (h : Means s Z C e v) (τ : Env) : Reads s (fun _ => False) τ e e.ty v := by
  induction h with
  | @tuple es vs hl _ ih =>
    refine .tuple (by simp) hl fun p hp => ?_
    obtain ⟨i, hi⟩ := List.getElem?_of_mem hp
    simp only [List.getElem?_zip_eq_some, List.getElem?_map, Option.map_eq_some_iff] at hi
    obtain ⟨he, ⟨e, he', hty⟩, hv⟩ := hi
    cases he.symm.trans he'
    rw [← hty]
    exact ih (p.1, p.2.2)
      (List.mem_of_getElem? (i := i) (by simp [List.getElem?_zip_eq_some, he, hv]))
  | whole hw _ _ h => exact .other (by rintro es u rfl; cases hw) fun hN => h hN τ
  | ref hc hv => exact .other (by simp) fun hN => (Means.ref (Z := Z) hc hv).runs_of_closed hN τ
  | lit => exact .other (by simp) fun hN => (Means.lit (Z := Z) (C := C)).runs_of_closed hN τ
  | builtin ht =>
    exact .other (by simp) fun hN => (Means.builtin (Z := Z) (C := C) ht).runs_of_closed hN τ
  | select hts ht he hv =>
    exact .other (by simp) fun hN => (Means.select hts ht he hv).runs_of_closed hN τ
  | intrinsic ho hr hz ha hv =>
    exact .other (by simp) fun hN => (Means.intrinsic ho hr hz ha hv).runs_of_closed hN τ
  | call hf hacc hg ha hv =>
    exact .other (by simp) fun hN => (Means.call hf hacc hg ha hv).runs_of_closed hN τ
  | force hf hg hv => exact .other (by simp) fun hN => (Means.force hf hg hv).runs_of_closed hN τ

end Means

namespace Expr

section Subst

variable {m : Subst} {t : Ty}

theorem subst_of_isEmpty {e : Expr} (h : m.isEmpty = true) : e.subst m = e := by
  simp [subst, h]

theorem subst_of_not_isEmpty {e : Expr} (h : ¬ m.isEmpty = true) :
    e.subst m = e.replace m m.names := by
  simp [subst, h]

theorem subst_ref {x : String} : (Expr.ref x t).subst m = m.image x t := by
  by_cases h : m.isEmpty = true
  · simp [subst_of_isEmpty h, Subst.image, Subst.lookup_of_isEmpty h]
  · simp [subst_of_not_isEmpty h, replace, Subst.image]

theorem subst_tuple {es : List Expr} :
    (Expr.tuple es t).subst m = .tuple (es.map fun e => e.subst m) t := by
  by_cases h : m.isEmpty = true
  · simp [subst_of_isEmpty h]
  · simp [subst_of_not_isEmpty h, replace, replaceList_eq]

theorem subst_call {f a : Expr} : (Expr.call f a t).subst m = .call (f.subst m) (a.subst m) t := by
  by_cases h : m.isEmpty = true
  · simp [subst_of_isEmpty h]
  · simp [subst_of_not_isEmpty h, replace]

theorem subst_force {f : Expr} : (Expr.force f t).subst m = .force (f.subst m) t := by
  by_cases h : m.isEmpty = true
  · simp [subst_of_isEmpty h]
  · simp [subst_of_not_isEmpty h, replace]

theorem isWhole_subst_lambda {x : Option String} {e : Expr} :
    ((Expr.lambda x e t).subst m).isWhole = true := by
  by_cases h : m.isEmpty = true
  · simp [subst_of_isEmpty h, isWhole]
  · cases x <;> simp [subst_of_not_isEmpty h, replace, isWhole]

theorem isWhole_subst_block {l : String × Expr} {ls : List (String × Expr)} {r : Expr} :
    ((Expr.block (l :: ls) r t).subst m).isWhole = true := by
  by_cases h : m.isEmpty = true
  · simp [subst_of_isEmpty h, isWhole]
  · simp [subst_of_not_isEmpty h, replace, replaceLocals, mkBlock, isWhole]

end Subst

section Zips

variable {t : Ty}

theorem zipsNothing_tuple {es : List Expr} :
    (Expr.tuple es t).zipsNothing = false ↔ ∀ e ∈ es, e.zipsNothing = false := by
  simp only [zipsNothing, subterms, List.any_cons, isEmptyZip, Bool.false_or, List.any_eq_false,
    mem_subtermsList]
  constructor
  · exact fun h e he e' he' => h e' ⟨e, he, he'⟩
  · rintro h e' ⟨e, he, he'⟩
    exact h e he e' he'

theorem zipsNothing_select {e : Expr} {i : Nat} :
    (Expr.select e i t).zipsNothing = false ↔ e.zipsNothing = false := by
  simp [zipsNothing, subterms, isEmptyZip]

theorem zipsNothing_call {f a : Expr} :
    (Expr.call f a t).zipsNothing = false ↔ f.zipsNothing = false ∧ a.zipsNothing = false := by
  simp [zipsNothing, subterms, isEmptyZip, List.any_append]

theorem zipsNothing_force {f : Expr} :
    (Expr.force f t).zipsNothing = false ↔ f.zipsNothing = false := by
  simp [zipsNothing, subterms, isEmptyZip]

theorem zipsNothing_lambda {x : Option String} {e : Expr} :
    (Expr.lambda x e t).zipsNothing = false ↔ e.zipsNothing = false := by
  simp [zipsNothing, subterms, isEmptyZip]

theorem zipsNothing_block_nil {r : Expr} :
    (Expr.block [] r t).zipsNothing = false ↔ r.zipsNothing = false := by
  simp [zipsNothing, subterms, subtermsLocals, isEmptyZip]

theorem zipsNothing_block_cons {x : String} {e r : Expr} {ls : List (String × Expr)} :
    (Expr.block ((x, e) :: ls) r t).zipsNothing = false ↔
      e.zipsNothing = false ∧ (Expr.block ls r t).zipsNothing = false := by
  simp [zipsNothing, subterms, subtermsLocals, isEmptyZip, List.any_append]

end Zips

end Expr

/-- The cells know the variables in scope, some of them by a replacement. -/
structure Known (s : Setting) (Z : Prop) (C : List Cell) (Γ : List (String × Ty)) (σ : Env)
    (m : Subst) : Prop where
  value : ∀ z u, σ.lookup z = some u → ∃ t, Γ.lookup z = some t ∧ Inhabits s t u ∧
    Means s Z C (m.image z t) u ∧
    (m.image z t).ty = t
  bound : ∀ z r, m.lookup z = some r → ∃ u, σ.lookup z = some u

namespace Known

open Expr

variable {s : Setting} {Z : Prop} {C : List Cell} {Γ : List (String × Ty)} {σ : Env} {m : Subst}
    {e : Expr} {v : Value}

theorem mono {C' : List Cell} (h : Known s Z C Γ σ m) (hC : ∀ c ∈ C, c ∈ C') :
    Known s Z C' Γ σ m := by
  refine ⟨fun z u hu => ?_, h.bound⟩
  obtain ⟨t, ht, hinh, hm, hty⟩ := h.value z u hu
  exact ⟨t, ht, hinh, hm.mono hC, hty⟩

theorem bind {m' : Subst} {x : String} {t : Ty} {u : Value} (h : Known s Z C Γ σ m)
    (hu : Inhabits s t u) (hm : ∀ z, z ≠ x → m'.lookup z = m.lookup z)
    (hx : Means s Z C (m'.image x t) u) (ht : (m'.image x t).ty = t) :
    Known s Z C ((x, t) :: Γ) ((x, u) :: σ) m' := by
  constructor
  · intro z v hz
    by_cases hzx : z = x
    · subst hzx
      simp only [List.lookup_cons_self, Option.some.injEq] at hz
      subst hz
      exact ⟨t, by simp, hu, hx, ht⟩
    · have hne : (z == x) = false := by simpa using hzx
      simp only [List.lookup_cons, hne, Subst.image, hm z hzx] at hz ⊢
      exact h.value z v hz
  · intro z r hr
    by_cases hzx : z = x
    · exact ⟨u, by simp [hzx]⟩
    · have hne : (z == x) = false := by simpa using hzx
      simpa only [List.lookup_cons, hne] using h.bound z r (hm z hzx ▸ hr)

theorem inhabits (h : Known s Z C Γ σ m) (he : e.Typed Γ) (hv : Runs s (.expr σ e) v) :
    Inhabits s e.ty v := by
  have hσ : SimilarFor s Γ e σ σ := fun z u _ hu => by
    obtain ⟨t, ht, hinh, -⟩ := h.value z u hu
    exact ⟨t, u, ht, hu, hinh⟩
  obtain ⟨w, -, hvw⟩ := he.mimics hσ v hv
  exact hvw.left

theorem typed_subst (h : Known s Z C Γ σ m) (he : e.Typed Γ) :
    (e.subst m).Typed [] ∧ (e.subst m).ty = e.ty := by
  by_cases hm : m.isEmpty = true
  · rw [subst_of_isEmpty hm]
    exact ⟨he.narrow (by simp), rfl⟩
  · rw [subst_of_not_isEmpty hm]
    refine he.replace m.avoids_names fun z _ => ⟨fun r hr => ?_, by simp⟩
    obtain ⟨u, hu⟩ := h.bound z r hr
    obtain ⟨t, ht, -, hmeans, hty⟩ := h.value z u hu
    simp only [Subst.image, hr, Option.getD_some] at hmeans hty
    refine ⟨hty ▸ ht, fun Δ hΔ => hmeans.typed.narrow fun n t hn hnt => ?_⟩
    rw [hΔ n hn] at hnt
    cases hnt

theorem runs_subst (h : Known s Z C Γ σ m) (he : e.Typed Γ) (hv : Runs s (.expr σ e) v)
    (hc : ∀ n, ¬ (e.subst m).Refers n) (τ : Env) :
    ∃ w, Runs s (.expr τ (e.subst m)) w ∧ Similar s (e.subst m).ty v w := by
  rw [(h.typed_subst he).2]
  by_cases hm : m.isEmpty = true
  · rw [subst_of_isEmpty hm] at hc ⊢
    exact he.mimics (fun z u hz => absurd hz (hc z)) v hv
  · rw [subst_of_not_isEmpty hm] at hc ⊢
    refine (he.reads_replace m.avoids_names (N := fun _ => False) (fun z u hz hu => ?_) hv).runs hc
    obtain ⟨t, ht, hinh, hmeans, hty⟩ := h.value z u hu
    exact ⟨t, ht, hinh, fun τ' _ => by simpa only [hty] using hmeans.reads τ'⟩

theorem means_whole (h : Known s Z C Γ σ m) (hw : (e.subst m).isWhole = true) (he : e.Typed Γ)
    (hv : Runs s (.expr σ e) v) : Means s Z C (e.subst m) v :=
  .whole hw (h.typed_subst he).1 ((h.typed_subst he).2 ▸ h.inhabits he hv) (h.runs_subst he hv)

/-- After the replacement an expression means its value. By induction on the expression. -/
theorem means_subst (h : Known s Z C Γ σ m) (he : e.Typed Γ) (hz : Z → e.zipsNothing = false)
    (hv : Runs s (.expr σ e) v) : Means s Z C (e.subst m) v := by
  induction e generalizing v with
  | ref x t =>
    obtain ⟨u, hu, -, hmeans, -⟩ := h.value x v (runs_ref.mp hv)
    rw [subst_ref]
    exact typed_ref.mp he u hu ▸ hmeans
  | lit a t =>
    obtain rfl := typed_lit.mp he
    obtain rfl := runs_lit.mp hv
    by_cases hm : m.isEmpty = true
    · exact subst_of_isEmpty hm ▸ .lit
    · exact subst_of_not_isEmpty hm ▸ .lit
  | tuple es t ih =>
    obtain ⟨hes, rfl⟩ := typed_tuple.mp he
    obtain ⟨vs, hvs, rfl⟩ := runs_tuple.mp hv
    have hty : es.map Expr.ty = (es.map fun e => e.subst m).map Expr.ty := by
      simpa using fun e he' => ((h.typed_subst (hes e he')).2).symm
    rw [subst_tuple, hty]
    refine .tuple (by simpa using hvs.length_eq) fun p hp => ?_
    obtain ⟨i, hi⟩ := List.getElem?_of_mem hp
    simp only [List.getElem?_zip_eq_some, List.getElem?_map, Option.map_eq_some_iff] at hi
    obtain ⟨⟨e, he', hep⟩, hv⟩ := hi
    obtain ⟨v, hv', hrun⟩ := forall₂_getElem? hvs he'
    cases hv'.symm.trans hv
    have hmem := List.mem_of_getElem? he'
    exact hep ▸ ih e hmem (hes e hmem) (fun hZ => zipsNothing_tuple.mp (hz hZ) e hmem) hrun
  | select e i t ih =>
    obtain ⟨he, ts, hts, ht⟩ := typed_select.mp he
    obtain ⟨vs, hvs, hi⟩ := runs_select.mp hv
    have hty := (h.typed_subst he).2.trans hts
    have hmeans := ih he (fun hZ => zipsNothing_select.mp (hz hZ)) hvs
    by_cases hm : m.isEmpty = true
    · have := Means.select hty ht hmeans hi
      rwa [subst_of_isEmpty hm] at this ⊢
    · have := hmeans.selectOf hty ht hi
      rwa [subst_of_not_isEmpty hm] at this ⊢
  | call f a t ihf iha =>
    obtain ⟨ha, hcall⟩ := typed_call.mp he
    obtain ⟨g, b, hg, hb, hv⟩ := runs_call.mp hv
    have hta := (h.typed_subst ha).2
    have hzip : Z → f.zipsNothing = false ∧ a.zipsNothing = false :=
      fun hZ => zipsNothing_call.mp (hz hZ)
    have hma := iha ha (fun hZ => (hzip hZ).2) hb
    rw [subst_call]
    rcases hcall with @⟨uri, op, rfl, ho, hr⟩ | @⟨uri, p, rfl, ho, hacc⟩ | @⟨p, hf, hp, hacc⟩
    · obtain ⟨_, ho', rfl⟩ := runs_intrinsic.mp hg
      cases ho.symm.trans ho'
      have hintrinsic :
          (Expr.intrinsic uri (.func a.ty t)).subst m = .intrinsic uri (.func a.ty t) := by
        unfold subst
        split <;> rfl
      rw [hintrinsic, ← hta]
      refine .intrinsic ho (hta ▸ hr) (fun hZ hop hempty => ?_) hma (hta ▸ hv)
      have := (hzip hZ).1
      simp [zipsNothing, subterms, isEmptyZip, ← hta, hempty, ho, hop] at this
    · obtain ⟨_, ho', rfl⟩ := runs_intrinsic.mp hg
      simp [ho] at ho'
    · exact .call ((h.typed_subst hf).2.trans hp) (hta ▸ hacc)
        (ihf hf (fun hZ => (hzip hZ).1) hg) hma hv
  | force f t ih =>
    obtain ⟨hf, ht⟩ := typed_force.mp he
    obtain ⟨g, hg, hv⟩ := runs_force.mp hv
    rw [subst_force]
    exact .force ((h.typed_subst hf).2.trans ht)
      (ih hf (fun hZ => zipsNothing_force.mp (hz hZ)) hg) hv
  | lambda x e t => exact h.means_whole isWhole_subst_lambda he hv
  | block ls r t ihl ihr =>
    cases ls with
    | nil =>
      by_cases hm : m.isEmpty = true
      · exact h.means_whole (by rw [subst_of_isEmpty hm]; rfl) he hv
      · obtain ⟨hr, rfl⟩ := typed_block_nil.mp he
        cases hv with
        | blockNil hv =>
          have := ihr hr (fun hZ => zipsNothing_block_nil.mp (hz hZ)) hv
          rwa [subst_of_not_isEmpty hm] at this ⊢
    | cons l ls => exact h.means_whole isWhole_subst_block he hv
  | intrinsic uri t => exact absurd he typed_intrinsic
  | builtin b t =>
    obtain ⟨u, hu, rfl⟩ := typed_builtin.mp he
    obtain rfl := runs_builtin.mp hv
    by_cases hm : m.isEmpty = true
    · exact subst_of_isEmpty hm ▸ .builtin hu
    · exact subst_of_not_isEmpty hm ▸ .builtin hu

end Known

end TwoTier

import TwoTier.Expr.Subst
import TwoTier.Proofs.Fundamental

/-! # Substitution

Replacing references keeps types, and it keeps the value of an expression up to similarity where the
replacements evaluate to the values of what they replace. No binder captures a name of a
replacement.
-/

namespace TwoTier

variable {s : Setting}

namespace Subst

theorem lookup_erase {m : Subst} {x z : String} :
    (m.erase x).lookup z = if z = x then none else m.lookup z := by
  induction m with
  | nil => simp [erase]
  | cons r m ih =>
    obtain ⟨y, e⟩ := r
    simp only [erase, List.filter_cons] at ih ⊢
    by_cases hy : y = x <;> by_cases hz : z = y <;> grind

theorem lookup_insert {m : Subst} {x z : String} {e : Expr} :
    (m.insert x e).lookup z = if z = x then some e else m.lookup z := by
  by_cases h : z = x
  · simp [insert, h]
  · have hne : (z == x) = false := by simpa using h
    simp [insert, List.lookup_cons, hne, lookup_erase, h]

theorem lookup_of_isEmpty {m : Subst} (h : m.isEmpty = true) (z : String) : m.lookup z = none := by
  simp [List.isEmpty_iff.mp h]

/-- The replacement of a name at type `t`, which is itself if there is none. -/
def image (m : Subst) (z : String) (t : Ty) : Expr :=
  (m.lookup z).getD (.ref z t)

/-- All names of replacements are to be avoided. -/
def Avoids (m : Subst) (avoid : List String) : Prop :=
  ∀ z r n, m.lookup z = some r → r.Refers n → n ∈ avoid

theorem avoids_names (m : Subst) : m.Avoids m.names := by
  intro z r n hz hn
  obtain ⟨l₁, l₂, rfl, -⟩ := List.lookup_eq_some_iff.mp hz
  exact List.mem_flatMap.mpr ⟨(z, r), by simp, hn⟩

end Subst

namespace Expr

theorem refers_mkBlock_cons {x n : String} {e r : Expr} {ls : List (String × Expr)} :
    (mkBlock ((x, e) :: ls) r).Refers n ↔ e.Refers n ∨ n ≠ x ∧ (mkBlock ls r).Refers n := by
  rw [@refers_mkBlock _ r.ty, refers_block_cons, ← refers_mkBlock]

/-- What `underBinder` returns for the binder `x`: the binder `y` clashes with nothing that is
replaced or stays, and replacements other than that of `x` are kept. -/
structure Under (m : Subst) (avoid : List String) (x : String) (t : Ty) (scope : List String)
    (m' : Subst) (avoid' : List String) (y : String) : Prop where
  avoids : m'.Avoids avoid'
  self : m'.image x t = .ref y t
  other : ∀ z, z ≠ x → m'.lookup z = m.lookup z
  fresh : ∀ z r, z ≠ x → m.lookup z = some r → ¬ r.Refers y
  stays : ∀ z, z ≠ x → z ∈ scope → z ≠ y
  empty : m'.isEmpty = true → y = x

theorem Under.image_self {m m' : Subst} {avoid avoid' scope : List String} {x y : String} {t : Ty}
    (h : Under m avoid x t scope m' avoid' y) (u : Ty) : ∃ u', m'.image x u = .ref y u' := by
  have hself := h.self
  unfold Subst.image at hself ⊢
  cases hl : m'.lookup x with
  | none => exact ⟨u, by simp_all⟩
  | some r => exact ⟨t, by simp_all⟩

theorem under_underBinder {m m' : Subst} {avoid avoid' scope : List String} {x y : String} {t : Ty}
    (hm : m.Avoids avoid) (h : underBinder m avoid x t scope = (m', avoid', y)) :
    Under m avoid x t scope m' avoid' y := by
  unfold underBinder at h
  simp only at h
  split at h
  · rename_i hx
    obtain ⟨rfl, rfl, rfl⟩ := h
    have hfresh : freshBinder x scope avoid ∉ scope ++ avoid := fun hy =>
      Names.pick_not_mem _ x (Names.mem_reserveList.mpr (.inl hy))
    simp only [List.mem_append, not_or] at hfresh
    refine ⟨?_, by simp [Subst.image, Subst.lookup_insert], ?_, ?_, ?_, ?_⟩
    · intro z r n hz hn
      rw [Subst.lookup_insert] at hz
      split at hz
      · cases hz
        simp_all
      · rw [Subst.lookup_erase] at hz
        split at hz
        · cases hz
        · exact List.mem_cons_of_mem _ (hm z r n hz hn)
    · intro z hz
      simp [Subst.lookup_insert, Subst.lookup_erase, hz]
    · intro z r _ hr hy
      exact hfresh.2 (hm z r _ hr hy)
    · rintro z - hz rfl
      exact hfresh.1 hz
    · simp [Subst.insert]
  · rename_i hx
    obtain ⟨rfl, rfl, rfl⟩ := h
    refine ⟨?_, by simp [Subst.image, Subst.lookup_erase], ?_, ?_, fun z hz _ => hz, fun _ => rfl⟩
    · intro z r n hz hn
      rw [Subst.lookup_erase] at hz
      split at hz
      · cases hz
      · exact hm z r n hz hn
    · intro z hz
      simp [Subst.lookup_erase, hz]
    · intro z r hz hr hy
      refine hx ⟨hm z r _ hr hy, ?_⟩
      have hz : (m.erase x).lookup z = some r := by simp [Subst.lookup_erase, hz, hr]
      by_contra hne
      simp only [Bool.not_eq_eq_eq_not, Bool.not_true, Bool.not_eq_false] at hne
      simp [Subst.lookup_of_isEmpty hne] at hz

theorem replaceLocals_cons {m m' : Subst} {avoid avoid' scope : List String}
    {x y : String} {e : Expr} {ls : List (String × Expr)}
    (h : underBinder m avoid x (replace m avoid e).ty scope = (m', avoid', y)) :
    replaceLocals m avoid scope ((x, e) :: ls) =
      ((y, replace m avoid e) :: (replaceLocals m' avoid' scope ls).1,
        (replaceLocals m' avoid' scope ls).2) := by
  simp [replaceLocals, h]

theorem replaceList_eq {m : Subst} {avoid : List String} {es : List Expr} :
    replaceList m avoid es = es.map (replace m avoid) := by
  induction es with
  | nil => rfl
  | cons e es ih => simp [replaceList, ih]

/-- Replacing in a function: its body is replaced under the parameter, unless nothing is left to
replace there. -/
theorem exists_replace_lambda {m : Subst} {avoid : List String}
    (hm : m.Avoids avoid) (x : String) (e : Expr) (t : Ty) :
    ∃ p m' avoid' y, (∀ q r, t = .func q r → p = q) ∧ Under m avoid x p e.allNames m' avoid' y ∧
      replace m avoid (.lambda (some x) e t) =
        .lambda (some y) (if m'.isEmpty then e else replace m' avoid' e) t := by
  refine ⟨_, _, _, _, ?_, under_underBinder hm rfl, rfl⟩
  rintro q r rfl
  rfl

/-- The locals and the result of a block with names `scope`, after replacing. -/
def replaceBlock (m : Subst) (avoid scope : List String) (ls : List (String × Expr)) (r : Expr) :
    List (String × Expr) × Expr :=
  let (ls', m', avoid') := replaceLocals m avoid scope ls
  (ls', r.replace m' avoid')

theorem replace_block {m : Subst} {avoid : List String} {ls : List (String × Expr)}
    {r : Expr} {t : Ty} : replace m avoid (.block ls r t) =
    mkBlock (replaceBlock m avoid (Expr.block ls r t).allNames ls r).1
      (replaceBlock m avoid (Expr.block ls r t).allNames ls r).2 := rfl

theorem exists_replaceBlock_cons {m : Subst} {avoid : List String} (hm : m.Avoids avoid)
    (x : String) (e : Expr) (ls : List (String × Expr)) (r : Expr) (scope : List String) :
    ∃ m' avoid' y, Under m avoid x (replace m avoid e).ty scope m' avoid' y ∧
      replaceBlock m avoid scope ((x, e) :: ls) r =
        ((y, replace m avoid e) :: (replaceBlock m' avoid' scope ls r).1,
          (replaceBlock m' avoid' scope ls r).2) :=
  ⟨_, _, _, under_underBinder hm rfl, rfl⟩

theorem refers_selectOf {e : Expr} {i : Nat} {t : Ty} {n : String} (h : (e.selectOf i t).Refers n) :
    e.Refers n := by
  unfold selectOf at h
  split at h
  · rename_i es u
    rw [List.getD_eq_getElem?_getD] at h
    cases hi : es[i]? with
    | none => simpa [hi] using h
    | some e => exact refers_tuple.mpr ⟨e, List.mem_of_getElem? hi, by simpa [hi] using h⟩
  · simpa using h

theorem Under.refers {m m' : Subst} {avoid avoid' scope : List String} {x y z n : String} {p t : Ty}
    (h : Under m avoid x p scope m' avoid' y) (hn : (m'.image z t).Refers n) (hny : n ≠ y) :
    z ≠ x ∧ (m.image z t).Refers n := by
  have hzx : z ≠ x := by
    rintro rfl
    obtain ⟨u, hself⟩ := h.image_self t
    rw [hself, refers_ref] at hn
    exact hny hn
  refine ⟨hzx, ?_⟩
  rwa [Subst.image, h.other z hzx] at hn

/-- What the replacement of an expression refers to is referred to by the replacement of one of its
names. -/
theorem refers_replace {e : Expr} {m : Subst} {avoid : List String}
    {n : String} (hm : m.Avoids avoid) (h : (e.replace m avoid).Refers n) :
    ∃ z t, e.Refers z ∧ (m.image z t).Refers n := by
  induction e generalizing m avoid n with
  | ref x t => exact ⟨x, t, refers_ref.mpr rfl, h⟩
  | lit | intrinsic | builtin => simp [Expr.replace] at h
  | tuple es t ih =>
    simp only [Expr.replace, replaceList_eq, refers_tuple, List.mem_map] at h
    obtain ⟨_, ⟨e, he, rfl⟩, hn⟩ := h
    obtain ⟨z, u, hz, hn⟩ := ih e he hm hn
    exact ⟨z, u, refers_tuple.mpr ⟨e, he, hz⟩, hn⟩
  | select e i t ih =>
    obtain ⟨z, u, hz, hn⟩ := ih hm (refers_selectOf h)
    exact ⟨z, u, refers_select.mpr hz, hn⟩
  | call f a t ihf iha =>
    rcases refers_call.mp h with h | h
    · obtain ⟨z, u, hz, hn⟩ := ihf hm h
      exact ⟨z, u, refers_call.mpr (.inl hz), hn⟩
    · obtain ⟨z, u, hz, hn⟩ := iha hm h
      exact ⟨z, u, refers_call.mpr (.inr hz), hn⟩
  | force f t ih =>
    obtain ⟨z, u, hz, hn⟩ := ih hm (refers_force.mp h)
    exact ⟨z, u, refers_force.mpr hz, hn⟩
  | lambda x e t ih =>
    cases x with
    | none =>
      obtain ⟨z, u, hz, hn⟩ := ih hm (by simpa [Expr.replace] using h)
      exact ⟨z, u, by simpa using hz, hn⟩
    | some x =>
      obtain ⟨p, m', avoid', y, -, under, hreplace⟩ := exists_replace_lambda hm x e t
      rw [hreplace] at h
      obtain ⟨hn, hny⟩ := refers_lambda.mp h
      have hbody : ∃ z u, e.Refers z ∧ (m'.image z u).Refers n := by
        split at hn
        case isTrue hempty =>
          exact ⟨n, t, hn, by simp [Subst.image, Subst.lookup_of_isEmpty hempty]⟩
        case isFalse => exact ih under.avoids hn
      obtain ⟨z, u, hz, hn⟩ := hbody
      obtain ⟨hzx, hn⟩ := under.refers hn fun hny' => hny (by rw [hny'])
      exact ⟨z, u, refers_lambda.mpr ⟨hz, by simpa using Ne.symm hzx⟩, hn⟩
  | block ls r t ihl ihr =>
    have key : ∀ scope,
        (mkBlock (replaceBlock m avoid scope ls r).1 (replaceBlock m avoid scope ls r).2).Refers n →
        ∃ z u, (mkBlock ls r).Refers z ∧ (m.image z u).Refers n := by
      clear h
      intro scope h
      induction ls generalizing m avoid with
      | nil => exact ihr hm h
      | cons l ls ih =>
        obtain ⟨x, e⟩ := l
        obtain ⟨m', avoid', y, under, hblock⟩ := exists_replaceBlock_cons hm x e ls r scope
        rw [hblock, refers_mkBlock_cons] at h
        rcases h with h | ⟨hny, h⟩
        · obtain ⟨z, u, hz, hn⟩ := ihl (x, e) (by simp) hm h
          exact ⟨z, u, refers_mkBlock_cons.mpr (.inl hz), hn⟩
        · obtain ⟨z, u, hz, hn⟩ := ih (fun l hl => ihl l (by simp [hl])) under.avoids h
          obtain ⟨hzx, hn⟩ := under.refers hn hny
          exact ⟨z, u, refers_mkBlock_cons.mpr (.inr ⟨hzx, hz⟩), hn⟩
    obtain ⟨z, u, hz, hn⟩ := key _ h
    exact ⟨z, u, refers_mkBlock.mp hz, hn⟩

section Types

variable {Γ Δ : List (String × Ty)} {e r : Expr} {m m' : Subst} {avoid avoid' scope : List String}
    {x y : String}

/-- An expression stays well-typed where its variables keep their types or have the types recorded
at its references. By induction on the expression; the names in `bound` are those of the binders
passed. -/
theorem Typed.retype (bound : List String) (he : e.Typed Γ)
    (hb : ∀ z ∈ bound, Δ.lookup z = Γ.lookup z)
    (h : ∀ p ∈ e.referencesIn bound, ∀ u, Δ.lookup p.1 = some u → u = p.2 ∨ Γ.lookup p.1 = some u) :
    e.Typed Δ := by
  have bind : ∀ {Γ Δ : List (String × Ty)} {bound : List String} {refs : List (String × Ty)}
      {x : String} {t : Ty}, (∀ z ∈ bound, Δ.lookup z = Γ.lookup z) →
      (∀ p ∈ refs, ∀ u, Δ.lookup p.1 = some u → u = p.2 ∨ Γ.lookup p.1 = some u) →
      (∀ z ∈ x :: bound, ((x, t) :: Δ).lookup z = ((x, t) :: Γ).lookup z) ∧
      ∀ p ∈ refs, ∀ u, ((x, t) :: Δ).lookup p.1 = some u → u = p.2 ∨
      ((x, t) :: Γ).lookup p.1 = some u := by
    intro Γ Δ bound refs x t hb h
    constructor
    · intro z hz
      by_cases hzx : z = x <;> grind
    · intro p hp u hu
      by_cases hpx : p.1 = x <;> grind
  induction e generalizing Γ Δ bound with
  | ref x t =>
    refine typed_ref.mpr fun u hu => ?_
    by_cases hx : x ∈ bound
    · exact typed_ref.mp he u (hb x hx ▸ hu)
    · rcases h (x, t) (by simp [referencesIn, hx]) u hu with h | h
      · exact h
      · exact typed_ref.mp he u h
  | lit a t => exact typed_lit.mpr (typed_lit.mp he)
  | tuple es t ih =>
    obtain ⟨hes, rfl⟩ := typed_tuple.mp he
    exact typed_tuple.mpr ⟨fun e he' => ih e he' bound (hes e he') hb fun p hp =>
      h p (mem_referencesInList.mpr ⟨e, he', hp⟩), rfl⟩
  | select e i t ih =>
    obtain ⟨he, ht⟩ := typed_select.mp he
    exact typed_select.mpr ⟨ih bound he hb h, ht⟩
  | call f a t ihf iha =>
    obtain ⟨ha, hc⟩ := typed_call.mp he
    refine typed_call.mpr ⟨iha bound ha hb fun p hp => h p (List.mem_append_right _ hp), ?_⟩
    rcases hc with ⟨hf, ho, hr⟩ | ⟨hf, ho, hacc⟩ | ⟨hf, hp, hacc⟩
    · exact .intrinsic hf ho hr
    · exact .unknown hf ho hacc
    · exact .function (ihf bound hf hb fun p hp => h p (List.mem_append_left _ hp)) hp hacc
  | force f t ih =>
    obtain ⟨hf, ht⟩ := typed_force.mp he
    exact typed_force.mpr ⟨ih bound hf hb h, ht⟩
  | lambda x e t ih =>
    cases x with
    | none =>
      obtain ⟨hbody, rfl⟩ := typed_delay.mp he
      exact typed_delay.mpr ⟨ih bound hbody hb h, rfl⟩
    | some x =>
      obtain ⟨t, hbody, rfl⟩ := typed_lambda.mp he
      obtain ⟨hb, h⟩ := bind (x := x) (t := t) hb h
      exact typed_lambda.mpr ⟨t, ih (x :: bound) hbody hb h, rfl⟩
  | block ls r t ihl ihr =>
    induction ls generalizing Γ Δ bound with
    | nil =>
      obtain ⟨hr, rfl⟩ := typed_block_nil.mp he
      exact typed_block_nil.mpr ⟨ihr bound hr hb h, rfl⟩
    | cons l ls ih =>
      obtain ⟨x, e⟩ := l
      obtain ⟨he, hr⟩ := typed_block_cons.mp he
      rw [referencesIn_block_cons] at h
      have he' := ihl (x, e) (by simp) bound he hb fun p hp => h p (List.mem_append_left _ hp)
      obtain ⟨hb, h⟩ := bind (x := x) (t := e.ty) hb fun p hp => h p (List.mem_append_right _ hp)
      exact typed_block_cons.mpr ⟨he', ih (fun l hl => ihl l (by simp [hl])) (x :: bound) hr hb h⟩
  | intrinsic uri t => exact absurd he typed_intrinsic
  | builtin b t => exact typed_builtin.mpr (typed_builtin.mp he)

theorem Typed.narrow (he : e.Typed Γ)
    (h : ∀ z u, e.Refers z → Δ.lookup z = some u → Γ.lookup z = some u) : e.Typed Δ :=
  he.retype [] (by simp) fun p hp u hu => .inr (h p.1 u (refers_of_mem_referencesIn hp) hu)

/-- What `e` refers to in `Γ` has its type in `Δ` after the replacement, also where `Δ` is extended
by other names. -/
def TypesKept (Γ Δ : List (String × Ty)) (m : Subst) (e : Expr) : Prop :=
  ∀ z, e.Refers z →
    (∀ r, m.lookup z = some r → Γ.lookup z = some r.ty ∧
      ∀ Δ', (∀ n, r.Refers n → Δ'.lookup n = Δ.lookup n) → r.Typed Δ') ∧
    (m.lookup z = none → ∀ u, Δ.lookup z = some u → Γ.lookup z = some u)

theorem TypesKept.bind {e' : Expr} {p : Ty} (h : TypesKept Γ Δ m e)
    (hu : Under m avoid x p scope m' avoid' y) (he : ∀ z, e'.Refers z → z ≠ x → e.Refers z)
    (hs : ∀ z, e'.Refers z → z ∈ scope) :
    TypesKept ((x, p) :: Γ) ((y, p) :: Δ) m' e' := by
  intro z hz
  by_cases hzx : z = x
  · subst hzx
    have hself := hu.self
    cases hl : m'.lookup z with
    | none =>
      simp only [Subst.image, hl, Option.getD_none, Expr.ref.injEq, and_true] at hself
      subst hself
      simp
    | some r =>
      simp only [Subst.image, hl, Option.getD_some] at hself
      subst hself
      refine ⟨fun r hr => ?_, by simp⟩
      cases hr
      exact ⟨by simp, fun Δ' hΔ => typed_ref.mpr fun u hu => by grind [refers_ref]⟩
  · obtain ⟨hr, hn⟩ := h z (he z hz hzx)
    rw [hu.other z hzx]
    refine ⟨fun r hl => ?_, fun hl u => ?_⟩
    · obtain ⟨hty, htyped⟩ := hr r hl
      refine ⟨by grind, fun Δ' hΔ => htyped Δ' fun n hn => ?_⟩
      have hne : n ≠ y := fun hy => hu.fresh z r hzx hl (hy ▸ hn)
      grind
    · have hne : z ≠ y := hu.stays z hzx (hs z hz)
      grind

theorem ty_selectOf {i : Nat} {t : Ty} {ts : List Ty} (he : e.Typed Γ) (hts : e.ty = .tuple ts)
    (ht : ts[i]? = some t) :
    (e.selectOf i t).Typed Γ ∧ (e.selectOf i t).ty = t := by
  unfold selectOf
  split
  · obtain ⟨hes, hty⟩ := typed_tuple.mp he
    simp only [ty_tuple] at hts
    obtain rfl := Ty.tuple.inj (hty.symm.trans hts)
    simp only [List.getElem?_map, Option.map_eq_some_iff] at ht
    obtain ⟨e, hi, rfl⟩ := ht
    simp only [List.getD_eq_getElem?_getD, hi, Option.getD_some]
    exact ⟨hes e (List.mem_of_getElem? hi), trivial⟩
  · exact ⟨typed_select.mpr ⟨he, ts, hts, ht⟩, rfl⟩

@[simp] theorem ty_mkBlock {ls : List (String × Expr)} : (mkBlock ls r).ty = r.ty := by
  cases ls <;> rfl

theorem typed_mkBlock_cons {ls : List (String × Expr)} :
    (mkBlock ((x, e) :: ls) r).Typed Γ ↔ e.Typed Γ ∧ (mkBlock ls r).Typed ((x, e.ty) :: Γ) := by
  simp only [mkBlock, List.isEmpty_cons, Bool.false_eq_true, ↓reduceIte, typed_block_cons]
  cases ls with
  | nil => simp [typed_block_nil]
  | cons l ls => simp

/-- Replacing keeps types. By induction on the expression, with the variables' types on both sides
following the binders. -/
theorem Typed.replace (he : e.Typed Γ) (hm : m.Avoids avoid) (h : TypesKept Γ Δ m e) :
    (e.replace m avoid).Typed Δ ∧ (e.replace m avoid).ty = e.ty := by
  induction e generalizing Γ Δ m avoid with
  | ref x t =>
    obtain ⟨hr, hn⟩ := h x (by simp)
    simp only [Expr.replace]
    cases hl : m.lookup x with
    | none => exact ⟨typed_ref.mpr fun u hu => typed_ref.mp he u (hn hl u hu), rfl⟩
    | some r =>
      obtain ⟨hty, htyped⟩ := hr r hl
      exact ⟨htyped Δ fun _ _ => rfl, typed_ref.mp he _ hty⟩
  | lit a t => exact ⟨typed_lit.mpr (typed_lit.mp he), rfl⟩
  | tuple es t ih =>
    obtain ⟨hes, rfl⟩ := typed_tuple.mp he
    have hes' : ∀ e ∈ es, (e.replace m avoid).Typed Δ ∧ (e.replace m avoid).ty = e.ty :=
        fun e he' =>
      ih e he' (hes e he') hm fun z hz => h z (refers_tuple.mpr ⟨e, he', hz⟩)
    simp only [Expr.replace, replaceList_eq, ty_tuple, and_true]
    refine typed_tuple.mpr ⟨by simpa using fun e he' => (hes' e he').1, ?_⟩
    simpa using fun e he' => (hes' e he').2.symm
  | select e i t ih =>
    obtain ⟨he, ts, hts, ht⟩ := typed_select.mp he
    obtain ⟨he', hty⟩ := ih he hm fun z hz => h z (by simpa using hz)
    exact ty_selectOf he' (hty.trans hts) ht
  | call f a t ihf iha =>
    obtain ⟨ha, hc⟩ := typed_call.mp he
    obtain ⟨ha', hta⟩ := iha ha hm fun z hz => h z (by simp [hz])
    refine ⟨typed_call.mpr ⟨ha', ?_⟩, rfl⟩
    rw [hta]
    rcases hc with ⟨rfl, ho, hr⟩ | ⟨rfl, ho, hacc⟩ | ⟨hf, hp, hacc⟩
    · exact .intrinsic rfl ho hr
    · exact .unknown rfl ho hacc
    · obtain ⟨hf', htf⟩ := ihf hf hm fun z hz => h z (by simp [hz])
      exact .function hf' (htf.trans hp) hacc
  | force f t ih =>
    obtain ⟨hf, ht⟩ := typed_force.mp he
    obtain ⟨hf', htf⟩ := ih hf hm fun z hz => h z (by simpa using hz)
    exact ⟨typed_force.mpr ⟨hf', htf.trans ht⟩, rfl⟩
  | lambda x e t ih =>
    cases x with
    | none =>
      obtain ⟨hb, rfl⟩ := typed_delay.mp he
      obtain ⟨hb', htb⟩ := ih hb hm fun z hz => h z (by simpa using hz)
      exact ⟨typed_delay.mpr ⟨hb', by rw [htb]⟩, rfl⟩
    | some x =>
      obtain ⟨p, hb, rfl⟩ := typed_lambda.mp he
      obtain ⟨p, m', avoid', y, hp, under, hreplace⟩ := exists_replace_lambda hm x e (.func p e.ty)
      obtain rfl := hp _ _ rfl
      have hkept : TypesKept ((x, p) :: Γ) ((y, p) :: Δ) m' e :=
        h.bind under (fun z hz hne => by simp [hz, hne.symm]) fun z hz => hz.mem_allNames
      rw [hreplace]
      refine ⟨typed_lambda.mpr ?_, rfl⟩
      split
      · rename_i hempty
        obtain rfl := under.empty hempty
        exact ⟨p, hb.narrow fun z u hz => (hkept z hz).2 (Subst.lookup_of_isEmpty hempty z) u, rfl⟩
      · obtain ⟨hb', htb⟩ := ih hb under.avoids hkept
        exact ⟨p, hb', by rw [htb]⟩
  | block ls r t ihl ihr =>
    have key : ∀ scope, (∀ z ∈ (Expr.block ls r t).allNames, z ∈ scope) →
        (mkBlock (replaceBlock m avoid scope ls r).1 (replaceBlock m avoid scope ls r).2).Typed Δ ∧
        (replaceBlock m avoid scope ls r).2.ty = t := by
      intro scope hscope
      induction ls generalizing Γ Δ m avoid with
      | nil =>
        obtain ⟨hr, rfl⟩ := typed_block_nil.mp he
        exact ihr hr hm fun z hz => h z (by simpa using hz)
      | cons l ls ih =>
        obtain ⟨x, e⟩ := l
        obtain ⟨he, hr⟩ := typed_block_cons.mp he
        obtain ⟨he', hte⟩ := ihl (x, e) (by simp) he hm fun z hz => h z (by simp [hz])
        obtain ⟨m', avoid', y, under, hblock⟩ := exists_replaceBlock_cons hm x e ls r scope
        rw [hblock, typed_mkBlock_cons, and_assoc]
        rw [hte] at under
        refine ⟨he',
          hte ▸ ih (fun l hl => ihl l (by simp [hl])) hr under.avoids (h.bind under ?_ ?_) ?_⟩
        · intro z hz hne
          simp [hz, hne]
        · intro z hz
          exact hscope z (mem_allNames_block_cons hz.mem_allNames)
        · intro z hz
          exact hscope z (mem_allNames_block_cons hz)
    rw [replace_block, ty_mkBlock]
    exact key _ fun _ hz => hz
  | intrinsic uri t => exact absurd he typed_intrinsic
  | builtin b t => exact ⟨typed_builtin.mpr (typed_builtin.mp he), rfl⟩

end Types

/-- `e` evaluates under `τ` to a value like `v`, if it refers only to names in `N`. Of a tuple
literal this is asked of each element by itself, since a selection may keep just one of them. -/
inductive Reads (s : Setting) (N : String → Prop) (τ : Env) : Expr → Ty → Value → Prop where

  | tuple {es : List Expr} {t : Ty} {ts : List Ty} {vs : List Value} : es.length = ts.length →
      es.length = vs.length → (∀ p ∈ es.zip (ts.zip vs), Reads s N τ p.1 p.2.1 p.2.2) →
      Reads s N τ (.tuple es t) (.tuple ts) (.tuple vs)

  | other {e : Expr} {t : Ty} {v : Value} : (∀ es u, e ≠ .tuple es u) →
      ((∀ n, e.Refers n → N n) → ∃ w, Runs s (.expr τ e) w ∧ Similar s t v w) → Reads s N τ e t v

section Values

variable {N N' : String → Prop} {Γ : List (String × Ty)} {σ τ : Env} {e : Expr} {t : Ty} {v : Value}
  {m m' : Subst} {avoid avoid' scope : List String} {x y : String}

theorem exists_similarEach_of_zip {Q : Expr → Value → Prop} {es : List Expr} {ts : List Ty}
    {vs : List Value} (hts : es.length = ts.length) (hvs : es.length = vs.length)
    (h : ∀ p ∈ es.zip (ts.zip vs), ∃ w, Q p.1 w ∧ Similar s p.2.1 p.2.2 w) :
    ∃ ws, List.Forall₂ Q es ws ∧ SimilarEach s ts vs ws := by
  induction es generalizing ts vs with
  | nil =>
    obtain rfl := List.eq_nil_of_length_eq_zero hts.symm
    obtain rfl := List.eq_nil_of_length_eq_zero hvs.symm
    exact ⟨[], .nil, rfl, rfl⟩
  | cons e es ih =>
    obtain ⟨t, ts, rfl⟩ := List.exists_cons_of_length_eq_add_one hts.symm
    obtain ⟨v, vs, rfl⟩ := List.exists_cons_of_length_eq_add_one hvs.symm
    obtain ⟨w, hw, hvw⟩ := h (e, t, v) (by simp)
    obtain ⟨ws, hws, hvs'⟩ :=
      ih (by simpa using hts) (by simpa using hvs) fun p hp => h p (by simp [hp])
    exact ⟨w :: ws, .cons hw hws, _, _, _, _, rfl, rfl, hvw, hvs'⟩

theorem Reads.runs (h : Reads s N τ e t v) (hN : ∀ n, e.Refers n → N n) :
    ∃ w, Runs s (.expr τ e) w ∧ Similar s t v w := by
  induction h with
  | @tuple es t ts vs hts hvs _ ih =>
    obtain ⟨ws, hws, hvw⟩ :=
        exists_similarEach_of_zip (Q := fun e w => Runs s (.expr τ e) w) hts hvs fun p hp =>
      ih p hp fun n hn => hN n (refers_tuple.mpr ⟨p.1, (List.of_mem_zip hp).1, hn⟩)
    exact ⟨_, runs_tuple.mpr ⟨ws, hws, rfl⟩, vs, ws, rfl, rfl, hvw⟩
  | other _ hrun => exact hrun hN

theorem Reads.mono (h : Reads s N τ e t v) (hN : ∀ n, e.Refers n → N' n → N n) :
    Reads s N' τ e t v := by
  induction h with
  | tuple hts hvs _ ih =>
    exact .tuple hts hvs fun p hp =>
      ih p hp fun n hn => hN n (refers_tuple.mpr ⟨p.1, (List.of_mem_zip hp).1, hn⟩)
  | other he hrun => exact .other he fun hN' => hrun fun n hn => hN n hn (hN' n hn)

theorem Reads.selectOf {ts : List Ty} {vs : List Value} {i : Nat} {u : Ty}
    (h : Reads s N τ e (.tuple ts) (.tuple vs)) (ht : ts[i]? = some t) (hv : vs[i]? = some v) :
    Reads s N τ (e.selectOf i u) t v := by
  cases h with
  | @tuple es _ _ _ hts hvs hes =>
    obtain ⟨e, he⟩ : ∃ e, es[i]? = some e :=
      ⟨_, List.getElem?_eq_getElem (by have := (List.getElem?_eq_some_iff.mp ht).1; omega)⟩
    have hp : (e, t, v) ∈ es.zip (ts.zip vs) :=
      List.mem_of_getElem? (i := i) (by simp [List.getElem?_zip_eq_some, he, ht, hv])
    simpa [Expr.selectOf, List.getD_eq_getElem?_getD, he] using hes _ hp
  | other he hrun =>
    have hsel : e.selectOf i u = .select e i u := by
      unfold Expr.selectOf
      split
      · exact absurd rfl (he _ _)
      · rfl
    rw [hsel]
    refine .other (by simp) fun hN => ?_
    obtain ⟨w, hw, hvw⟩ := hrun fun n hn => hN n (refers_select.mpr hn)
    obtain ⟨ws, w', rfl, hw', hvw'⟩ := hvw.element ht hv
    exact ⟨w', runs_select.mpr ⟨ws, hw, hw'⟩, hvw'⟩

/-- What `e` refers to in `σ` is replaced by expressions that read its value in `τ`, also where `τ`
is extended by other names. -/
def Covers (s : Setting) (N : String → Prop) (Γ : List (String × Ty)) (σ τ : Env) (m : Subst)
    (e : Expr) : Prop :=
  ∀ z v, e.Refers z → σ.lookup z = some v → ∃ t, Γ.lookup z = some t ∧ Inhabits s t v ∧
    ∀ τ', (∀ n, (m.image z t).Refers n → τ'.lookup n = τ.lookup n) → Reads s N τ' (m.image z t) t v

theorem Covers.bind {e' : Expr} {p q : Ty} {a b : Value} (h : Covers s N Γ σ τ m e)
    (hu : Under m avoid x q scope m' avoid' y) (he : ∀ z, e'.Refers z → z ≠ x → e.Refers z)
    (hs : ∀ z, e'.Refers z → z ∈ scope) (hab : Similar s p a b) :
    Covers s (fun n => n = y ∨ N n) ((x, p) :: Γ) ((x, a) :: σ) ((y, b) :: τ) m' e' := by
  intro z v hz hv
  by_cases hzx : z = x
  · subst hzx
    simp only [List.lookup_cons_self, Option.some.injEq] at hv
    subst hv
    refine ⟨p, by simp, hab.left, fun τ' hτ => ?_⟩
    obtain ⟨u, hself⟩ := hu.image_self p
    rw [hself] at hτ ⊢
    exact .other (by simp) fun _ => ⟨b, by simpa using hτ y (by simp), hab⟩
  · have hne : (z == x) = false := by simpa using hzx
    simp only [List.lookup_cons, hne] at hv ⊢
    obtain ⟨t, ht, hinh, hcover⟩ := h z v (he z hz hzx) hv
    have himage : m'.image z t = m.image z t := by rw [Subst.image, hu.other z hzx]; rfl
    have hy : ∀ n, (m.image z t).Refers n → n ≠ y := by
      rintro n hn rfl
      cases hl : m.lookup z with
      | none =>
        simp only [Subst.image, hl, Option.getD_none, refers_ref] at hn
        exact hu.stays z hzx (hs z hz) hn.symm
      | some r =>
        simp only [Subst.image, hl, Option.getD_some] at hn
        exact hu.fresh z r hzx hl hn
    refine ⟨t, ht, hinh, fun τ' hτ => ?_⟩
    rw [himage] at hτ ⊢
    refine (hcover τ' fun n hn => ?_).mono fun n hn hN => hN.resolve_left (hy n hn)
    have hny : (n == y) = false := by simpa using hy n hn
    simpa [List.lookup_cons, hny] using hτ n hn

theorem Covers.left (h : Covers s N Γ σ τ m e) : SimilarFor s Γ e σ σ := by
  intro z v hz hv
  obtain ⟨t, ht, hinh, -⟩ := h z v hz hv
  exact ⟨t, v, ht, hv, hinh⟩

theorem Covers.of_isEmpty (h : Covers s N Γ σ τ m e) (hm : m.isEmpty = true)
    (hN : ∀ n, e.Refers n → N n) :
    SimilarFor s Γ e σ τ := by
  intro z v hz hv
  obtain ⟨t, ht, -, hcover⟩ := h z v hz hv
  have himage : m.image z t = .ref z t := by simp [Subst.image, Subst.lookup_of_isEmpty hm]
  obtain ⟨w, hw, hvw⟩ := (hcover τ fun _ _ => rfl).runs fun n hn => by
    rw [himage, refers_ref] at hn
    exact hn ▸ hN z hz
  rw [himage] at hw
  exact ⟨t, w, ht, runs_ref.mp hw, hvw⟩

/-- The replacement of an expression reads the value of the expression. By induction on the
expression, with the variables on both sides following the binders. -/
theorem Typed.reads_replace (he : e.Typed Γ) (hm : m.Avoids avoid) (h : Covers s N Γ σ τ m e)
    (hv : Runs s (.expr σ e) v) : Reads s N τ (e.replace m avoid) e.ty v := by
  induction e generalizing Γ N σ τ m avoid v with
  | ref x t =>
    obtain ⟨u, hu, -, hcover⟩ := h x v (by simp) (runs_ref.mp hv)
    obtain rfl := typed_ref.mp he u hu
    exact hcover τ fun _ _ => rfl
  | lit a t =>
    exact .other (by simp [Expr.replace]) fun _ =>
      he.mimics (fun z v hz => absurd hz refers_lit) v hv
  | tuple es t ih =>
    obtain ⟨hes, rfl⟩ := typed_tuple.mp he
    obtain ⟨vs, hvs, rfl⟩ := runs_tuple.mp hv
    rw [Expr.replace, replaceList_eq]
    refine .tuple (by simp) (by simpa using hvs.length_eq) fun p hp => ?_
    obtain ⟨i, hi⟩ := List.getElem?_of_mem hp
    simp only [List.getElem?_zip_eq_some, List.getElem?_map, Option.map_eq_some_iff] at hi
    obtain ⟨⟨e, he', hep⟩, ⟨e', he'', hty⟩, hpv⟩ := hi
    cases he'.symm.trans he''
    obtain ⟨v, hv', hrun⟩ := forall₂_getElem? hvs he'
    cases hv'.symm.trans hpv
    have hmem := List.mem_of_getElem? he'
    rw [← hep, ← hty]
    exact ih e hmem (hes e hmem) hm (fun z v hz => h z v (refers_tuple.mpr ⟨e, hmem, hz⟩)) hrun
  | select e i t ih =>
    obtain ⟨he, ts, hts, ht⟩ := typed_select.mp he
    obtain ⟨vs, hvs, hi⟩ := runs_select.mp hv
    have hr := ih he hm (fun z v hz => h z v (refers_select.mpr hz)) hvs
    rw [hts] at hr
    exact hr.selectOf ht hi
  | call f a t ihf iha =>
    obtain ⟨ha, hcall⟩ := typed_call.mp he
    obtain ⟨g, b, hg, hb, hv⟩ := runs_call.mp hv
    refine .other (by simp [Expr.replace]) fun hN => ?_
    obtain ⟨b', hb', hbb⟩ :=
        (iha ha hm (fun z v hz => h z v (refers_call.mpr (.inr hz))) hb).runs fun n hn =>
      hN n (refers_call.mpr (.inr hn))
    rcases hcall with @⟨uri, op, rfl, ho, hr⟩ | @⟨uri, p, rfl, ho, hacc⟩ | @⟨p, hf, hp, hacc⟩
    · obtain ⟨_, ho', rfl⟩ := runs_intrinsic.mp hg
      cases ho.symm.trans ho'
      obtain ⟨w, hw, hvw⟩ := mimics_intrinsic hr hbb v hv
      exact ⟨w, .call (runs_intrinsic.mpr ⟨op, ho, rfl⟩) hb' hw, hvw⟩
    · obtain ⟨_, ho', rfl⟩ := runs_intrinsic.mp hg
      simp [ho] at ho'
    · obtain ⟨g', hg', hgg⟩ :=
          (ihf hf hm (fun z v hz => h z v (refers_call.mpr (.inl hz))) hg).runs fun n hn =>
        hN n (refers_call.mpr (.inl hn))
      rw [hp] at hgg
      rw [← similar_of_standsFor hacc] at hbb
      obtain ⟨w, hw, hvw⟩ := (hgg.2.2 b b' hbb).2 v hv
      exact ⟨w, .call hg' hb' hw, hvw⟩
  | force f t ih =>
    obtain ⟨hf, ht⟩ := typed_force.mp he
    obtain ⟨g, hg, hv⟩ := runs_force.mp hv
    refine .other (by simp [Expr.replace]) fun hN => ?_
    obtain ⟨g', hg', hgg⟩ :=
        (ih hf hm (fun z v hz => h z v (refers_force.mpr hz)) hg).runs fun n hn =>
      hN n (refers_force.mpr hn)
    rw [ht] at hgg
    obtain ⟨w, hw, hvw⟩ := hgg.2.2 v hv
    exact ⟨w, .force hg' hw, hvw⟩
  | lambda x e t ih =>
    -- calls of the closure itself are those of the fundamental lemma
    obtain ⟨_, hv', hself⟩ := he.mimics h.left v hv
    obtain rfl := hv.unique hv'
    obtain rfl := runs_lambda.mp hv
    cases x with
    | none =>
      obtain ⟨hb, rfl⟩ := typed_delay.mp he
      refine .other (by simp [Expr.replace]) fun hN => ⟨_, runs_lambda.mpr rfl, rfl, rfl,
        fun v hv => ?_⟩
      obtain ⟨w, hw, hvw⟩ :=
        (ih hb hm (fun z v hz => h z v (by simpa using hz)) (runs_closure.mp hv)).runs fun n hn =>
        hN n (by simpa [Expr.replace] using hn)
      exact ⟨w, runs_closure.mpr hw, hvw⟩
    | some x =>
      obtain ⟨p, hb, rfl⟩ := typed_lambda.mp he
      obtain ⟨p, m', avoid', y, hp, under, hreplace⟩ := exists_replace_lambda hm x e (.func p e.ty)
      obtain rfl := hp _ _ rfl
      rw [hreplace]
      refine .other (by simp) fun hN =>
        ⟨_, runs_lambda.mpr rfl, rfl, rfl, fun a b hab => ⟨(hself.2.2 a b hab).1, fun v hv => ?_⟩⟩
      have hcover :
          Covers s (fun n => n = y ∨ N n) ((x, p) :: Γ) ((x, a) :: σ) ((y, b) :: τ) m' e :=
        h.bind under (fun z hz hne => by simp [hz, hne.symm]) (fun z hz => hz.mem_allNames) hab
      have hbody :
          ∃ w, Runs s (.expr ((y, b) :: τ) (if m'.isEmpty then e else e.replace m' avoid')) w ∧
          Similar s e.ty v w := by
        have hN' : ∀ n, (if m'.isEmpty then e else e.replace m' avoid').Refers n → n = y ∨ N n :=
            fun n hn => by
          by_cases hny : n = y
          · exact .inl hny
          · exact .inr (hN n (refers_lambda.mpr ⟨hn, by simpa using Ne.symm hny⟩))
        by_cases hempty : m'.isEmpty = true
        · simp only [hempty, ↓reduceIte] at hN' ⊢
          exact hb.mimics (hcover.of_isEmpty hempty hN') v (runs_closure.mp hv)
        · simp only [hempty, Bool.false_eq_true, ↓reduceIte] at hN' ⊢
          exact (ih hb under.avoids hcover (runs_closure.mp hv)).runs hN'
      obtain ⟨w, hw, hvw⟩ := hbody
      exact ⟨w, runs_closure.mpr hw, hvw⟩
  | block ls r t ihl ihr =>
    have key : ∀ scope, (∀ z ∈ (Expr.block ls r t).allNames, z ∈ scope) →
        (∀ n, (mkBlock (replaceBlock m avoid scope ls r).1
        (replaceBlock m avoid scope ls r).2).Refers n → N n) → ∃ w, Runs s (.expr τ
        (mkBlock (replaceBlock m avoid scope ls r).1 (replaceBlock m avoid scope ls r).2)) w ∧
          Similar s t v w := by
      intro scope hscope hN
      induction ls generalizing Γ N σ τ m avoid with
      | nil =>
        obtain ⟨hr, rfl⟩ := typed_block_nil.mp he
        cases hv with
        | blockNil hv => exact (ihr hr hm (fun z v hz => h z v (by simpa using hz)) hv).runs hN
      | cons l ls ih =>
        obtain ⟨x, e⟩ := l
        obtain ⟨he, hr⟩ := typed_block_cons.mp he
        obtain ⟨m', avoid', y, under, hblock⟩ := exists_replaceBlock_cons hm x e ls r scope
        rw [hblock] at hN ⊢
        simp only [refers_mkBlock_cons] at hN
        cases hv with
        | blockCons hu hv =>
          obtain ⟨u', hu', huu⟩ :=
            (ihl (x, e) (by simp) he hm (fun z v hz => h z v (by simp [hz])) hu).runs fun n hn =>
            hN n (.inl hn)
          obtain ⟨w, hw, hvw⟩ := ih (fun l hl => ihl l (by simp [hl])) hr under.avoids
            (h.bind under (fun z hz hne => by simp [hz, hne])
              (fun z hz => hscope z (mem_allNames_block_cons hz.mem_allNames)) huu) hv
            (fun z hz => hscope z (mem_allNames_block_cons hz)) fun n hn => by
              by_cases hny : n = y
              · exact .inl hny
              · exact .inr (hN n (.inr ⟨hny, hn⟩))
          obtain ⟨τ', hb, hw⟩ := runs_mkBlock.mp hw
          exact ⟨w, runs_mkBlock.mpr ⟨τ', ⟨u', hu', hb⟩, hw⟩, hvw⟩
    cases ls with
    | nil =>
      obtain ⟨hr, rfl⟩ := typed_block_nil.mp he
      cases hv with
      | blockNil hv => exact ihr hr hm (fun z v hz => h z v (by simpa using hz)) hv
    | cons l ls =>
      refine .other ?_ (key _ fun _ hz => hz)
      simp [Expr.replace, replaceLocals, mkBlock]
  | intrinsic uri t => exact absurd he typed_intrinsic
  | builtin b t =>
    exact .other (by simp [Expr.replace]) fun _ =>
      he.mimics (fun z v hz => absurd hz refers_builtin) v hv

end Values

end Expr

end TwoTier

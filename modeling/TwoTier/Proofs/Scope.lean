import TwoTier.Proofs.Substitution

/-! # Locals in scope

An expression is in scope of some variables if it is well-typed wherever these have their types. In
a chain of locals each is in scope of the ones before it and has a name of its own: what is in scope
stays in scope behind further locals, and a block over a chain is in scope as soon as its result is.
-/

namespace TwoTier.Expr

variable {Γ Δ : List (String × Ty)} {e r : Expr} {t : Ty} {x z : String} {ls : List (String × Expr)}

def Within (Γ Δ : List (String × Ty)) : Prop :=
  ∀ z u, Γ.lookup z = some u → Δ.lookup z = some u

def Scoped (Γ : List (String × Ty)) (e : Expr) : Prop :=
  ∀ Δ, Within Γ Δ → e.Typed Δ

theorem lookup_cons_of_ne {α : Type} {a : α} {l : List (String × α)} (h : z ≠ x) :
    ((x, a) :: l).lookup z = l.lookup z := by
  have hne : (z == x) = false := by simpa using h
  rw [List.lookup_cons, hne]

theorem lookup_eq_none {α : Type} {l : List (String × α)} :
    l.lookup z = none ↔ z ∉ l.map Prod.fst := by
  simp only [List.lookup_eq_none_iff, List.mem_map, not_exists, not_and, bne_iff_ne, ne_eq]
  exact forall₂_congr fun _ _ => not_congr eq_comm

theorem Within.cons (h : Within Γ Δ) (x : String) (t : Ty) :
    Within ((x, t) :: Γ) ((x, t) :: Δ) := by
  intro z u hz
  by_cases hzx : z = x
  · simpa [hzx] using hz
  · rw [lookup_cons_of_ne hzx] at hz ⊢
    exact h z u hz

theorem within_cons (hx : x ∉ Γ.map Prod.fst) (t : Ty) : Within Γ ((x, t) :: Γ) := by
  intro z u hz
  have hne : z ≠ x := by
    rintro rfl
    obtain ⟨Γ₁, Γ₂, rfl, -⟩ := List.lookup_eq_some_iff.mp hz
    simp at hx
  rwa [lookup_cons_of_ne hne]

theorem Scoped.typed (h : e.Scoped Γ) : e.Typed Γ :=
  h Γ fun _ _ hz => hz

theorem Scoped.mono (h : e.Scoped Γ) (hΔ : Within Γ Δ) : e.Scoped Δ :=
  fun Δ' hΔ' => h Δ' fun z u hz => hΔ' z u (hΔ z u hz)

theorem Scoped.of_closed (h : e.Typed []) (hc : ∀ z, ¬ e.Refers z) : e.Scoped Γ :=
  fun _ _ => h.narrow fun z _ hz => absurd hz (hc z)

/-- A variable that an expression refers to has but one type wherever the expression is
well-typed. -/
theorem Refers.type_unique (h : e.Refers z) :
    ∃ t, ∀ Γ u, e.Typed Γ → Γ.lookup z = some u → u = t := by
  induction e with
  | ref x t =>
    obtain rfl := refers_ref.mp h
    exact ⟨t, fun Γ u he hu => typed_ref.mp he u hu⟩
  | lit a t => exact absurd h refers_lit
  | tuple es t ih =>
    obtain ⟨e, he, hz⟩ := refers_tuple.mp h
    obtain ⟨t, ht⟩ := ih e he hz
    exact ⟨t, fun Γ u htyped => ht Γ u ((typed_tuple.mp htyped).1 e he)⟩
  | select e i t ih =>
    obtain ⟨t, ht⟩ := ih (refers_select.mp h)
    exact ⟨t, fun Γ u htyped => ht Γ u (typed_select.mp htyped).1⟩
  | call f a t ihf iha =>
    rcases refers_call.mp h with hf | ha
    · obtain ⟨t, ht⟩ := ihf hf
      refine ⟨t, fun Γ u htyped => ?_⟩
      obtain ⟨-, hcall⟩ := typed_call.mp htyped
      cases hcall with
      | intrinsic hf' | unknown hf' => exact absurd (hf' ▸ hf) refers_intrinsic
      | function hf' => exact ht Γ u hf'
    · obtain ⟨t, ht⟩ := iha ha
      exact ⟨t, fun Γ u htyped => ht Γ u (typed_call.mp htyped).1⟩
  | force f t ih =>
    obtain ⟨t, ht⟩ := ih (refers_force.mp h)
    exact ⟨t, fun Γ u htyped => ht Γ u (typed_force.mp htyped).1⟩
  | lambda x e t ih =>
    obtain ⟨hz, hne⟩ := refers_lambda.mp h
    obtain ⟨t, ht⟩ := ih hz
    cases x with
    | none => exact ⟨t, fun Γ u htyped => ht Γ u (typed_delay.mp htyped).1⟩
    | some x =>
      refine ⟨t, fun Γ u htyped hu => ?_⟩
      obtain ⟨p, hbody, -⟩ := typed_lambda.mp htyped
      exact ht _ u hbody (by rwa [lookup_cons_of_ne fun heq => hne (congrArg some heq.symm)])
  | block ls r t ihl ihr =>
    induction ls with
    | nil =>
      obtain ⟨t, ht⟩ := ihr (refers_block_nil.mp h)
      exact ⟨t, fun Γ u htyped => ht Γ u (typed_block_nil.mp htyped).1⟩
    | cons l ls ih =>
      obtain ⟨x, e⟩ := l
      rcases refers_block_cons.mp h with hz | ⟨hne, hz⟩
      · obtain ⟨t, ht⟩ := ihl (x, e) (by simp) hz
        exact ⟨t, fun Γ u htyped => ht Γ u (typed_block_cons.mp htyped).1⟩
      · obtain ⟨t, ht⟩ := ih (fun l hl => ihl l (by simp [hl])) hz
        exact ⟨t, fun Γ u htyped hu =>
          ht _ u (typed_block_cons.mp htyped).2 (by rwa [lookup_cons_of_ne hne])⟩
  | intrinsic uri t => exact absurd h refers_intrinsic
  | builtin b t => exact absurd h refers_builtin

/-- What an expression in scope refers to is in scope: with a variable of another type added, it
would be ill-typed. -/
theorem Scoped.bound (h : e.Scoped Γ) (hz : e.Refers z) : ∃ u, Γ.lookup z = some u := by
  obtain ⟨t, ht⟩ := hz.type_unique
  rw [← Option.isSome_iff_exists, ← Option.ne_none_iff_isSome]
  intro hn
  have := ht _ (.seq t) (h _ (within_cons (lookup_eq_none.mp hn) (.seq t))) (by simp)
  exact absurd (congrArg sizeOf this) (by simp)

theorem scoped_iff : e.Scoped Γ ↔ e.Typed Γ ∧ ∀ z, e.Refers z → ∃ u, Γ.lookup z = some u := by
  refine ⟨fun h => ⟨h.typed, fun z => h.bound⟩, fun ⟨he, hb⟩ Δ hΔ => he.narrow fun z u hz hu => ?_⟩
  obtain ⟨u', hu'⟩ := hb z hz
  rwa [← hu, hΔ z u' hu']

theorem Scoped.closed (h : e.Scoped []) : ¬ e.Refers z := by
  intro hz
  obtain ⟨u, hu⟩ := h.bound hz
  simp at hu

theorem scoped_ref (hx : Γ.lookup x = some t) : (ref x t).Scoped Γ :=
  fun _ hΔ => typed_ref.mpr fun _ hu => Option.some.inj (hu.symm.trans (hΔ x t hx))

theorem scoped_tuple {es : List Expr} (h : ∀ e ∈ es, e.Scoped Γ) : (mkTuple es).Scoped Γ :=
  fun Δ hΔ => typed_tuple.mpr ⟨fun e he => h e he Δ hΔ, rfl⟩

theorem Scoped.element {es : List Expr} (h : (Expr.tuple es t).Scoped Γ)
    (he : e ∈ es) : e.Scoped Γ :=
  fun Δ hΔ => (typed_tuple.mp (h Δ hΔ)).1 e he

theorem scoped_select {ts : List Ty} {i : Nat} (h : e.Scoped Γ) (hts : e.ty = .tuple ts)
    (ht : ts[i]? = some t) :
    (select e i t).Scoped Γ :=
  fun Δ hΔ => typed_select.mpr ⟨h Δ hΔ, ts, hts, ht⟩

theorem scoped_call {f a : Expr} {p : Ty} (hf : f.Scoped Γ) (ha : a.Scoped Γ)
    (hp : f.ty = .func p t) (hacc : p.accepts a.ty = true) : (call f a t).Scoped Γ :=
  fun Δ hΔ => typed_call.mpr ⟨ha Δ hΔ, .function (hf Δ hΔ) hp hacc⟩

theorem scoped_force {f : Expr} (hf : f.Scoped Γ) (ht : f.ty = .thunk t) : (force f t).Scoped Γ :=
  fun Δ hΔ => typed_force.mpr ⟨hf Δ hΔ, ht⟩

theorem scoped_intrinsic {op : Intrinsic} {a : Expr} (ha : a.Scoped Γ)
    (ht : op.resultType a.ty = .ok t) :
    (call (.intrinsic op.uri (.func a.ty t)) a t).Scoped Γ :=
  fun _ hΔ => typed_call.mpr ⟨ha _ hΔ, .intrinsic rfl (Intrinsic.ofUri?_uri op) ht⟩

theorem scoped_lambda (h : e.Scoped ((x, t) :: Γ)) : (mkLambda x t e).Scoped Γ :=
  fun _ hΔ => typed_lambda.mpr ⟨t, h _ (hΔ.cons x t), rfl⟩

theorem scoped_delay (h : e.Scoped Γ) : (mkDelay e).Scoped Γ :=
  fun Δ hΔ => typed_delay.mpr ⟨h Δ hΔ, rfl⟩

theorem Scoped.under {e' : Expr} (h : e.Scoped Γ) (he' : e'.Typed ((x, t) :: Γ))
    (hrefers : ∀ z, e'.Refers z → z ≠ x → e.Refers z) : e'.Scoped ((x, t) :: Γ) := by
  refine scoped_iff.mpr ⟨he', fun z hz => ?_⟩
  by_cases hzx : z = x
  · exact ⟨t, by simp [hzx]⟩
  · obtain ⟨u, hu⟩ := h.bound (hrefers z hz hzx)
    exact ⟨u, by rwa [lookup_cons_of_ne hzx]⟩

theorem Scoped.body (h : (Expr.lambda (some x) e t).Scoped Γ) :
    ∃ p, e.Scoped ((x, p) :: Γ) ∧ t = .func p e.ty := by
  obtain ⟨p, he, rfl⟩ := typed_lambda.mp h.typed
  exact ⟨p, h.under he fun z hz hne => by simp [hz, hne.symm], rfl⟩

theorem Scoped.delayed (h : (Expr.lambda none e t).Scoped Γ) : e.Scoped Γ ∧ t = .thunk e.ty :=
  ⟨fun Δ hΔ => (typed_delay.mp (h Δ hΔ)).1, (typed_delay.mp h.typed).2⟩

theorem Scoped.local_ (h : (block ((x, e) :: ls) r t).Scoped Γ) :
    e.Scoped Γ ∧ (block ls r t).Scoped ((x, e.ty) :: Γ) :=
  ⟨fun Δ hΔ => (typed_block_cons.mp (h Δ hΔ)).1,
    h.under (typed_block_cons.mp h.typed).2 fun z hz hne => by simp [hz, hne]⟩

theorem Scoped.result (h : (block [] r t).Scoped Γ) : r.Scoped Γ ∧ t = r.ty :=
  ⟨fun Δ hΔ => (typed_block_nil.mp (h Δ hΔ)).1, (typed_block_nil.mp h.typed).2⟩

theorem Scoped.source {i : Nat} (h : (select e i t).Scoped Γ) :
    e.Scoped Γ ∧ ∃ ts, e.ty = .tuple ts ∧ ts[i]? = some t :=
  ⟨fun Δ hΔ => (typed_select.mp (h Δ hΔ)).1, (typed_select.mp h.typed).2⟩

theorem Scoped.argument {f a : Expr} (h : (call f a t).Scoped Γ) : a.Scoped Γ :=
  fun Δ hΔ => (typed_call.mp (h Δ hΔ)).1

theorem Scoped.callee {f a : Expr} (h : (call f a t).Scoped Γ)
    (hf : ∀ uri u, f ≠ .intrinsic uri u) :
    f.Scoped Γ ∧ ∃ p, f.ty = .func p t ∧ p.accepts a.ty = true := by
  have called : ∀ Δ, Within Γ Δ → f.Typed Δ ∧ ∃ p, f.ty = .func p t ∧ p.accepts a.ty = true := by
    intro Δ hΔ
    cases (typed_call.mp (h Δ hΔ)).2 with
    | intrinsic heq | unknown heq => exact absurd heq (hf _ _)
    | function hf hp hacc => exact ⟨hf, _, hp, hacc⟩
  exact ⟨fun Δ hΔ => (called Δ hΔ).1, (called Γ fun _ _ hz => hz).2⟩

theorem Scoped.operation {uri : String} {op : Intrinsic} {a : Expr} {u : Ty}
    (h : (call (.intrinsic uri u) a t).Scoped Γ) (ho : Intrinsic.ofUri? uri = some op) :
    op.resultType a.ty = .ok t := by
  cases (typed_call.mp h.typed).2 with
  | intrinsic heq ho' hr =>
    cases heq
    cases ho.symm.trans ho'
    exact hr
  | unknown heq ho' =>
    cases heq
    cases ho.symm.trans ho'
  | function hf => exact absurd hf typed_intrinsic

theorem Scoped.thunk {f : Expr} (h : (force f t).Scoped Γ) : f.Scoped Γ ∧ f.ty = .thunk t :=
  ⟨fun Δ hΔ => (typed_force.mp (h Δ hΔ)).1, (typed_force.mp h.typed).2⟩

def scope (Γ : List (String × Ty)) (ls : List (String × Expr)) : List (String × Ty) :=
  ls.foldl (fun Γ l => (l.1, l.2.ty) :: Γ) Γ

/-- Each local is in scope where it stands, and has a new name. -/
def Chain : List (String × Ty) → List (String × Expr) → Prop
  | _, [] => True
  | Γ, (x, e) :: ls => x ∉ Γ.map Prod.fst ∧ e.Scoped Γ ∧ Chain ((x, e.ty) :: Γ) ls

@[simp] theorem scope_snoc : scope Γ (ls ++ [(x, e)]) = (x, e.ty) :: scope Γ ls := by
  simp [scope]

theorem chain_snoc : Chain Γ (ls ++ [(x, e)]) ↔
    Chain Γ ls ∧ x ∉ (scope Γ ls).map Prod.fst ∧ e.Scoped (scope Γ ls) := by
  induction ls generalizing Γ with
  | nil => simp [Chain, scope]
  | cons l ls ih =>
    obtain ⟨y, e'⟩ := l
    simp only [List.cons_append, Chain, ih, scope, List.foldl_cons, and_assoc]

theorem Chain.mkBlock (h : Chain Γ ls) (hr : r.Scoped (scope Γ ls)) : (mkBlock ls r).Scoped Γ := by
  induction ls generalizing Γ with
  | nil => exact hr
  | cons l ls ih =>
    obtain ⟨y, e⟩ := l
    obtain ⟨-, he, h⟩ := h
    exact fun Δ hΔ => typed_mkBlock_cons.mpr ⟨he Δ hΔ, ih h hr _ (hΔ.cons y e.ty)⟩

theorem scope_append {ls' : List (String × Expr)} :
    scope Γ (ls ++ ls') = scope (scope Γ ls) ls' := by
  simp [scope, List.foldl_append]

theorem chain_append {ls' : List (String × Expr)} :
    Chain Γ (ls ++ ls') ↔ Chain Γ ls ∧ Chain (scope Γ ls) ls' := by
  induction ls generalizing Γ with
  | nil => simp [Chain, scope]
  | cons l ls ih =>
    obtain ⟨y, e⟩ := l
    simp only [List.cons_append, Chain, ih, scope, List.foldl_cons, and_assoc]

theorem mem_scope : x ∈ (scope Γ ls).map Prod.fst ↔ x ∈ ls.map Prod.fst ∨ x ∈ Γ.map Prod.fst := by
  induction ls generalizing Γ with
  | nil => simp [scope]
  | cons l ls ih =>
    have := ih (Γ := (l.1, l.2.ty) :: Γ)
    simp only [scope, List.foldl_cons, List.map_cons, List.mem_cons] at this ⊢
    rw [this]
    tauto

theorem Chain.within (h : Chain Γ ls) : Within Γ (scope Γ ls) := by
  induction ls generalizing Γ with
  | nil => exact fun _ _ hz => hz
  | cons l ls ih =>
    obtain ⟨y, e⟩ := l
    obtain ⟨hy, -, h⟩ := h
    exact fun z u hz => ih h z u (within_cons hy e.ty z u hz)

theorem Chain.not_mem (h : Chain Γ ls) (hx : x ∈ ls.map Prod.fst) : x ∉ Γ.map Prod.fst := by
  induction ls generalizing Γ with
  | nil => simp at hx
  | cons l ls ih =>
    obtain ⟨y, e⟩ := l
    obtain ⟨hy, -, h⟩ := h
    rcases List.mem_cons.mp hx with rfl | hx
    · exact hy
    · exact fun hΓ => ih h hx (List.mem_cons_of_mem y hΓ)

theorem Chain.nodup (h : Chain Γ ls) : (ls.map Prod.fst).Nodup := by
  induction ls generalizing Γ with
  | nil => simp
  | cons l ls ih =>
    obtain ⟨y, e⟩ := l
    obtain ⟨-, -, h⟩ := h
    exact List.nodup_cons.mpr ⟨fun hy => h.not_mem hy (by simp), ih h⟩

theorem Chain.lookup (h : Chain Γ ls) (hx : (x, e) ∈ ls) : (scope Γ ls).lookup x = some e.ty := by
  induction ls generalizing Γ with
  | nil => simp at hx
  | cons l ls ih =>
    obtain ⟨y, e'⟩ := l
    obtain ⟨-, -, h⟩ := h
    rcases List.mem_cons.mp hx with heq | hx
    · obtain ⟨rfl, rfl⟩ := Prod.mk.inj heq
      exact h.within x e.ty (by simp)
    · exact ih h hx

theorem lookup_scope (h : (scope Γ ls).lookup x = some t) :
    Γ.lookup x = some t ∨ ∃ e ls₁ ls₂, ls = ls₁ ++ (x, e) :: ls₂ ∧ e.ty = t := by
  induction ls using List.reverseRecOn with
  | nil => exact .inl h
  | append_singleton ls l ih =>
    obtain ⟨y, e⟩ := l
    rw [scope_snoc] at h
    by_cases hxy : x = y
    · subst hxy
      exact .inr ⟨e, ls, [], rfl, by simpa using h⟩
    · rw [lookup_cons_of_ne hxy] at h
      rcases ih h with h | ⟨e', ls₁, ls₂, rfl, ht⟩
      · exact .inl h
      · exact .inr ⟨e', ls₁, ls₂ ++ [(y, e)], by simp, ht⟩

theorem Scoped.subst_image {m : Subst} (he : e.Scoped Γ)
    (hm : ∀ z u, Γ.lookup z = some u → (m.image z u).Scoped Δ ∧ (m.image z u).ty = u) :
    (e.subst m).Scoped Δ ∧ (e.subst m).ty = e.ty := by
  have hkeep : ∀ z u, m.lookup z = none → Γ.lookup z = some u → Δ.lookup z = some u := by
    intro z u hz hu
    have hscoped := (hm z u hu).1
    simp only [Subst.image, hz, Option.getD_none] at hscoped
    obtain ⟨u', hu'⟩ := hscoped.bound (refers_ref.mpr rfl)
    rwa [typed_ref.mp hscoped.typed u' hu'] at hu'
  have hkept : ∀ Δ', Within Δ Δ' → TypesKept Γ Δ' m e := by
    intro Δ' hΔ z hz
    obtain ⟨u, hu⟩ := he.bound hz
    refine ⟨fun r hr => ?_, fun hz v hv => ?_⟩
    · obtain ⟨hscoped, hty⟩ := hm z u hu
      simp only [Subst.image, hr, Option.getD_some] at hscoped hty
      exact ⟨hty ▸ hu, fun Δ'' hΔ'' => (hscoped Δ' hΔ).narrow fun n v hn hv => by rwa [← hΔ'' n hn]⟩
    · rwa [hΔ z u (hkeep z u hz hu), ← hu] at hv
  unfold Expr.subst
  split
  case isTrue hempty =>
    exact ⟨he.mono fun z u hu => hkeep z u (Subst.lookup_of_isEmpty hempty z) hu, rfl⟩
  case isFalse =>
    exact ⟨fun Δ' hΔ => (he.typed.replace m.avoids_names (hkept Δ' hΔ)).1,
      (he.typed.replace m.avoids_names (hkept Δ fun _ _ hz => hz)).2⟩

/-- The replacement of each variable is in scope of `Δ` and has its type. -/
def Fills (Γ Δ : List (String × Ty)) (m : Subst) : Prop :=
  ∀ z u, Γ.lookup z = some u → ∃ r, m.lookup z = some r ∧ r.Scoped Δ ∧ r.ty = u

theorem Scoped.subst {m : Subst} (he : e.Scoped Γ) (hm : Fills Γ Δ m) :
    (e.subst m).Scoped Δ ∧ (e.subst m).ty = e.ty := by
  refine he.subst_image fun z u hu => ?_
  obtain ⟨r, hr, h⟩ := hm z u hu
  simpa only [Subst.image, hr, Option.getD_some] using h

theorem refers_subst {m : Subst} {n : String} (h : (e.subst m).Refers n) :
    (e.Refers n ∧ m.lookup n = none) ∨ ∃ x r, e.Refers x ∧ m.lookup x = some r ∧ r.Refers n := by
  by_cases hempty : m.isEmpty = true
  · rw [Expr.subst, if_pos hempty] at h
    exact .inl ⟨h, Subst.lookup_of_isEmpty hempty n⟩
  · rw [Expr.subst, if_neg hempty] at h
    obtain ⟨z, t, hz, hn⟩ := refers_replace m.avoids_names h
    cases hl : m.lookup z with
    | none =>
      simp only [Subst.image, hl, Option.getD_none, refers_ref] at hn
      exact .inl ⟨hn ▸ hz, hn ▸ hl⟩
    | some r =>
      simp only [Subst.image, hl, Option.getD_some] at hn
      exact .inr ⟨z, r, hz, hl, hn⟩

def replacedTypes (m : Subst) : List (String × Ty) :=
  m.map fun r => (r.1, r.2.ty)

theorem lookup_replacedTypes {m : Subst} : (replacedTypes m).lookup x = (m.lookup x).map ty := by
  induction m with
  | nil => rfl
  | cons r m ih =>
    obtain ⟨y, r⟩ := r
    by_cases hx : x = y
    · simp [replacedTypes, hx]
    · rw [lookup_cons_of_ne hx, ← ih]
      exact lookup_cons_of_ne hx

/-- Substitution keeps an expression well-typed and its type, and leaves free only what it did not
replace and what the replacements refer to. -/
theorem subst_well_typed {m : Subst} (he : e.check = .ok ()) (hcalled : e.intrinsicsCalled = true)
    (hm : ∀ x r, m.lookup x = some r → r.check = .ok () ∧ r.intrinsicsCalled = true)
    (hrecorded : ∀ p ∈ e.referencesIn [], ∀ r, m.lookup p.1 = some r → p.2 = r.ty) :
    (e.subst m).check = .ok () ∧ (e.subst m).ty = e.ty ∧
      ∀ n ∈ (e.subst m).free, (n ∈ e.free ∧ m.lookup n = none) ∨
        ∃ x r, x ∈ e.free ∧ m.lookup x = some r ∧ n ∈ r.free := by
  have htyped : e.Typed (replacedTypes m) := by
    refine Typed.retype (Γ := []) [] ⟨he, hcalled⟩ (by simp) fun p hp u hu => .inl ?_
    obtain ⟨r, hr, rfl⟩ := Option.map_eq_some_iff.mp (lookup_replacedTypes ▸ hu)
    exact (hrecorded p hp r hr).symm
  have hkept : TypesKept (replacedTypes m) [] m e := by
    refine fun z hz =>
      ⟨fun r hr => ⟨by rw [lookup_replacedTypes, hr, Option.map_some], fun Δ hΔ => ?_⟩, by simp⟩
    exact Typed.narrow (Γ := []) (hm z r hr) fun n u hn hu => by rwa [← hΔ n hn]
  have hsubst : (e.subst m).Typed [] ∧ (e.subst m).ty = e.ty := by
    unfold Expr.subst
    split
    case isTrue => exact ⟨⟨he, hcalled⟩, rfl⟩
    case isFalse => exact htyped.replace m.avoids_names hkept
  refine ⟨hsubst.1.1, hsubst.2, fun n hn => ?_⟩
  simpa only [mem_free] using refers_subst (mem_free.mp hn)

/-- A function that pairs `x` with its argument in a local, and takes the first of the pair. -/
def firstOf : Expr :=
  .mkLambda "y" .int32 (.mkBlock [("z", .mkTuple [.ref "x" .int32, .ref "y" .int32])]
    (.select (.ref "z" (.tuple [.int32, .int32])) 0 .int32))

/-- The replacement refers to a name that the function binds. -/
theorem subst_well_typed_firstOf :
    (firstOf.subst [("x", .ref "y" .int32)]).check = .ok () ∧
      (firstOf.subst [("x", .ref "y" .int32)]).ty = .func .int32 .int32 ∧
      ∀ n ∈ (firstOf.subst [("x", .ref "y" .int32)]).free, n = "y" := by
  have hone : ∀ x r, List.lookup x [("x", Expr.ref "y" .int32)] = some r → r = .ref "y" .int32 := by
    intro x r hr
    by_cases hx : x = "x"
    · subst hx
      cases hr
      rfl
    · rw [lookup_cons_of_ne hx] at hr
      cases hr
  have hm : ∀ x r, List.lookup x [("x", Expr.ref "y" .int32)] = some r →
      r.check = .ok () ∧ r.intrinsicsCalled = true := by
    intro x r hr
    obtain rfl := hone x r hr
    exact ⟨rfl, rfl⟩
  obtain ⟨hcheck, hty, hfree⟩ := subst_well_typed (e := firstOf) rfl rfl hm (by decide)
  refine ⟨hcheck, hty, fun n hn => ?_⟩
  rcases hfree n hn with ⟨hn, hnone⟩ | ⟨x, r, -, hr, hn⟩
  · obtain rfl : n = "x" := List.mem_singleton.mp hn
    cases hnone
  · obtain rfl := hone x r hr
    exact List.mem_singleton.mp hn

end TwoTier.Expr

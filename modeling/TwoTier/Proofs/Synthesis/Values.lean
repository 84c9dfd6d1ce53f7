import TwoTier.Proofs.Meaning
import TwoTier.Proofs.Synthesis.Total

/-! # Values on wires

What the expressions of a wiring evaluate to behind its locals. They are compared with the values
that the form has at the same place: a wiring that ends keeps what its wires carry, and each of its
steps carries the value that the form computes.
-/

namespace TwoTier

namespace Synthesis

open Expr

variable {s : Setting} {σ τ τ' : Env} {w w' : Wiring} {e : Expr} {t : Ty} {v : Value}
    {slot base : String}

/-- `e` refers to taken names only, and reads the value `v` of type `t` wherever they mean what they
mean under `τ`. -/
structure Carries (s : Setting) (w : Wiring) (τ : Env) (e : Expr) (t : Ty) (v : Value) : Prop where
  taken : ∀ n, e.Refers n → n ∈ w.names.used
  reads : ∀ τ', Reads s (fun n => τ'.lookup n = τ.lookup n) τ' e t v

/-- The first wiring's names are taken in the second, and mean the same. -/
structure Keeps (w : Wiring) (τ : Env) (w' : Wiring) (τ' : Env) : Prop where
  used : w.names.used ⊆ w'.names.used
  lookup : ∀ n ∈ w.names.used, τ'.lookup n = τ.lookup n

theorem Keeps.refl : Keeps w τ w τ :=
  ⟨List.Subset.refl _, fun _ _ => rfl⟩

theorem Keeps.trans {w'' : Wiring} {τ'' : Env} (h : Keeps w τ w' τ') (h' : Keeps w' τ' w'' τ'') :
    Keeps w τ w'' τ'' :=
  ⟨List.Subset.trans h.used h'.used, fun n hn => (h'.lookup n (h.used hn)).trans (h.lookup n hn)⟩

theorem Carries.mono (h : Carries s w τ e t v) (hk : Keeps w τ w' τ') : Carries s w' τ' e t v := by
  refine ⟨fun n hn => hk.used (h.taken n hn), fun τ'' => (h.reads τ'').mono fun n hn hτ => ?_⟩
  rw [hτ, hk.lookup n (h.taken n hn)]

theorem Carries.runs (h : Carries s w τ e t v) : ∃ u, Runs s (.expr τ e) u ∧ Similar s t v u :=
  (h.reads τ).runs fun _ _ => rfl

theorem carries_of_runs (hne : ∀ es u, e ≠ .tuple es u)
    (htaken : ∀ n, e.Refers n → n ∈ w.names.used)
    (h : ∀ τ', (∀ n, e.Refers n → τ'.lookup n = τ.lookup n) → ∃ u, Runs s (.expr τ' e) u ∧
      Similar s t v u) :
    Carries s w τ e t v :=
  ⟨htaken, fun τ' => .other hne fun hτ => h τ' hτ⟩

theorem carries_tuple {es : List Expr} {ts : List Ty} {vs : List Value} {u : Ty}
    (hts : es.length = ts.length) (hvs : es.length = vs.length)
    (h : ∀ (i : Nat) e t v, es[i]? = some e → ts[i]? = some t → vs[i]? = some v →
      Carries s w τ e t v) :
    Carries s w τ (.tuple es u) (.tuple ts) (.tuple vs) := by
  constructor
  · intro n hn
    obtain ⟨e, he, hn⟩ := refers_tuple.mp hn
    obtain ⟨i, hi⟩ := List.getElem?_of_mem he
    have hlt := (List.getElem?_eq_some_iff.mp hi).1
    exact (h i e ts[i] vs[i] hi (by simp) (by simp)).taken n hn
  · intro τ'
    refine .tuple hts hvs fun p hp => ?_
    obtain ⟨i, hi⟩ := List.getElem?_of_mem hp
    simp only [List.getElem?_zip_eq_some] at hi
    exact (h i _ _ _ hi.1 hi.2.1 hi.2.2).reads τ'

theorem carries_mkTuple {es : List Expr} {vs : List Value}
    (h : List.Forall₂ (fun e v => Carries s w τ e e.ty v) es vs) :
    Carries s w τ (mkTuple es) (mkTuple es).ty (.tuple vs) := by
  refine carries_tuple (by simp) h.length_eq fun i e t v he ht hv => ?_
  obtain ⟨v', hv', hcarries⟩ := forall₂_getElem? h he
  cases hv.symm.trans hv'
  obtain rfl : e.ty = t := by simpa [he] using ht
  exact hcarries

theorem carries_pair {a b : Expr} {t u : Ty} {x y : Value} (ha : Carries s w τ a t x)
    (hb : Carries s w τ b u y) :
    Carries s w τ (mkTuple [a, b]) (.tuple [t, u]) (.pair x y) := by
  refine carries_tuple rfl rfl fun i e t' v he ht hv => ?_
  rcases i with _ | _ | i
  · cases he; cases ht; cases hv; exact ha
  · cases he; cases ht; cases hv; exact hb
  · cases he

/-- A closed expression carries its value. By induction, for the sake of tuple literals. -/
theorem carries_closed (he : e.Scoped []) (hv : Runs s (.expr [] e) v) :
    Carries s w τ e e.ty v := by
  induction e using Expr.induct_children generalizing v with
  | _ e ih =>
    by_cases htuple : ∃ es u, e = .tuple es u
    · obtain ⟨es, u, rfl⟩ := htuple
      obtain ⟨vs, hvs, rfl⟩ := runs_tuple.mp hv
      obtain ⟨-, rfl⟩ := typed_tuple.mp he.typed
      refine carries_tuple (by simp) hvs.length_eq fun i e t v hi ht hv => ?_
      obtain ⟨v', hv', hrun⟩ := forall₂_getElem? hvs hi
      cases hv.symm.trans hv'
      have hmem := List.mem_of_getElem? hi
      obtain rfl : e.ty = t := by simpa [hi] using ht
      exact ih e hmem (he.element hmem) hrun
    · refine carries_of_runs (fun es u h => htuple ⟨es, u, h⟩)
        (fun n hn => absurd hn he.closed) fun τ' _ => ?_
      exact he.typed.mimics (fun z v hz => absurd hz he.closed) v hv

/-- The locals bind the variables `τ`, after `σ`. -/
structure Live (s : Setting) (σ : Env) (w : Wiring) (τ : Env) : Prop where
  binds : Binds s σ w.locals τ
  nothing : ∀ e, w.nothing = some e → Carries s w τ e e.ty (.atServer (.tuple []))

/-- If wiring from `w` ends, then with locals that bind and keep what the taken names mean, and a
result for `Q`. -/
def Ensures {α : Type} (s : Setting) (σ : Env) (w : Wiring) (τ : Env) (m : WiringM α)
    (Q : α → Wiring → Env → Prop) :
    Prop :=
  ∀ a w', m.run w = .ok (a, w') → ∃ τ', Live s σ w' τ' ∧ Keeps w τ w' τ' ∧ Q a w' τ'

section Ensures

variable {α β : Type} {m : WiringM α} {Q Q' : α → Wiring → Env → Prop} {a : α}

theorem ensures_pure (hl : Live s σ w τ) (h : Q a w τ) : Ensures s σ w τ (pure a) Q := by
  rintro _ _ ⟨⟩
  exact ⟨τ, hl, .refl, h⟩

theorem ensures_bind {f : α → WiringM β} {R : β → Wiring → Env → Prop} (h : Ensures s σ w τ m Q)
    (hf : ∀ a w' τ', Live s σ w' τ' → Keeps w τ w' τ' → Q a w' τ' → Ensures s σ w' τ' (f a) R) :
    Ensures s σ w τ (m >>= f) R := by
  intro b w₂ hrun
  rw [StateT.run_bind, except_bind_ok] at hrun
  obtain ⟨⟨a, w₁⟩, hm, hrun⟩ := hrun
  obtain ⟨τ₁, hl₁, hk₁, hq⟩ := h a w₁ hm
  obtain ⟨τ₂, hl₂, hk₂, hr⟩ := hf a w₁ τ₁ hl₁ hk₁ hq b w₂ hrun
  exact ⟨τ₂, hl₂, hk₁.trans hk₂, hr⟩

theorem Ensures.mono (h : Ensures s σ w τ m Q) (hQ : ∀ a w' τ', Q a w' τ' → Q' a w' τ') :
    Ensures s σ w τ m Q' := by
  intro a w' hrun
  obtain ⟨τ', hl, hk, hq⟩ := h a w' hrun
  exact ⟨τ', hl, hk, hQ a w' τ' hq⟩

theorem ensures_typed {x : Except TypeFault α} {f : α → WiringM β} {R : β → Wiring → Env → Prop}
    (h : ∀ a, x = .ok a → Ensures s σ w τ (f a) R) : Ensures s σ w τ (typed slot x >>= f) R := by
  cases x with
  | error =>
    intro b w' hrun
    cases hrun
  | ok a => exact h a rfl

end Ensures

theorem keeps_push {u : Value} : Keeps w τ (w.push base e) (((w.names.fresh base).1, u) :: τ) := by
  refine ⟨fun n hn => (Names.mem_fresh rfl).mpr (.inr hn), fun n hn => ?_⟩
  have hne : (n == (w.names.fresh base).1) = false := by
    rw [beq_eq_false_iff_ne]
    rintro rfl
    exact Names.fresh_not_mem rfl hn
  rw [List.lookup_cons, hne]

theorem Live.push {u : Value} (hl : Live s σ w τ) (hu : Runs s (.expr τ e) u) :
    Live s σ (w.push base e) (((w.names.fresh base).1, u) :: τ) := by
  constructor
  · exact binds_append.mpr ⟨τ, hl.binds, u, hu, rfl⟩
  · intro e' he'
    exact (hl.nothing e' he').mono keeps_push

theorem carries_push {u : Value} {t' : Ty} (h : Similar s t v u) :
    Carries s (w.push base e) (((w.names.fresh base).1, u) :: τ)
    (.ref (w.names.fresh base).1 t') t v := by
  refine carries_of_runs (by simp) (fun n hn => ?_) fun τ' hτ => ⟨u, ?_, h⟩
  · exact (Names.mem_fresh rfl).mpr (.inl (refers_ref.mp hn))
  · rw [runs_ref, hτ _ (refers_ref.mpr rfl)]
    simp

theorem ensures_local {x : Except TypeFault Expr} {T : Ty → Prop} (hl : Live s σ w τ)
    (h : ∀ e, x = .ok e → T e.ty ∧ ∃ u, Runs s (.expr τ e) u ∧ Similar s e.ty v u) :
    Ensures s σ w τ (bind slot base x) fun e' w' τ' => T e'.ty ∧ Carries s w' τ' e' e'.ty v := by
  intro e' w' hrun
  cases x with
  | error => cases hrun
  | ok e =>
    cases hrun
    obtain ⟨ht, u, hu, hsim⟩ := h e rfl
    exact ⟨_, hl.push hu, keeps_push, ht, carries_push hsim⟩

theorem ensures_gate {op : Intrinsic} {a : Expr} {x : Value} (hl : Live s σ w τ)
    (ha : Carries s w τ a a.ty x)
    (hv : ∀ r, op.resultType a.ty = .ok r →
      Runs s (.call (.intrinsic op (.func a.ty r)) (some x)) v) :
    Ensures s σ w τ (bind slot base (mkIntrinsicCall op a)) fun e w' τ' =>
      op.resultType a.ty = .ok e.ty ∧ Carries s w' τ' e e.ty v := by
  refine ensures_local (T := fun t => op.resultType a.ty = .ok t) hl fun e he => ?_
  obtain ⟨r, hr, rfl⟩ := mkIntrinsicCall_ok.mp he
  obtain ⟨y, hy, hxy⟩ := ha.runs
  obtain ⟨u, hu, hvu⟩ := mimics_intrinsic hr hxy v (hv r hr)
  exact ⟨hr, u, .call (runs_intrinsic.mpr ⟨op, Intrinsic.ofUri?_uri op, rfl⟩) hy hu, hvu⟩

/-- Wherever it is evaluated, `F` is a function that takes anything like `a` to something like `v`,
if `P a v`. -/
def Acts (s : Setting) (F : Expr) (p q : Ty) (P : Value → Value → Prop) : Prop :=
  F.ty = .func p q ∧ ∀ τ, ∃ f, Runs s (.expr τ F) f ∧ ∀ a b v, Similar s p a b → P a v →
    ∃ u, Runs s (.call f (some b)) u ∧ Similar s q v u

section Acts

variable {F : Expr} {p q : Ty} {P : Value → Value → Prop}

theorem ensures_map {ds us : List Value} (hl : Live s σ w τ) (hF : Acts s F p q P)
    (he : Carries s w τ e e.ty (.atClients ds)) (h : List.Forall₂ P ds us) :
    Ensures s σ w τ (bind slot base (mapOver F e)) fun e' w' τ' =>
      e'.ty = .atParticipants q ∧ Carries s w' τ' e' e'.ty (.atClients us) := by
  refine ensures_local (T := fun t => t = .atParticipants q) hl fun e' he' => ?_
  obtain ⟨r, hr, rfl⟩ := mkIntrinsicCall_ok.mp he'
  obtain ⟨p', q', m, site, b, harg, -, -, hacc, rfl⟩ := mapResult_ok hr
  simp only [mkTuple, ty_tuple, List.map_cons, List.map_nil, Ty.tuple.injEq, List.cons.injEq,
    and_true] at harg
  obtain ⟨hFty, hety⟩ := harg
  obtain ⟨rfl, rfl⟩ := Ty.func.inj (hF.1.symm.trans hFty)
  obtain ⟨f, hf, hcall⟩ := hF.2 τ
  obtain ⟨y, hy, hxy⟩ := he.runs
  rw [hety] at hxy
  cases site with
  | coordinator => obtain ⟨_, _, h, -⟩ := hxy; cases h
  | participants =>
    obtain ⟨_, ds', ⟨⟩, rfl, hl, hds⟩ := hxy
    obtain ⟨us', hus', hus⟩ := forall₂_carry h hds fun d u d' hu hd =>
      hcall d d' u (similar_of_standsFor hacc ▸ hd) hu
    refine ⟨rfl, _, .call (runs_intrinsic.mpr ⟨.within .map, rfl, rfl⟩)
      (runs_tuple.mpr ⟨_, .cons hf (.cons hy .nil), rfl⟩)
      (runs_map.mpr (.inl ⟨f, ds', us', rfl, rfl, hus'⟩)), us, us', rfl, rfl, ?_, hus⟩
    exact h.length_eq.symm.trans hl

theorem ensures_apply {a : Value} (hl : Live s σ w τ) (hF : Acts s F p q P)
    (he : Carries s w τ e e.ty (.atServer a)) (h : P a v) :
    Ensures s σ w τ (bind slot base (applyTo F e)) fun e' w' τ' =>
      e'.ty = .atCoordinator q ∧ Carries s w' τ' e' e'.ty (.atServer v) := by
  refine ensures_local (T := fun t => t = .atCoordinator q) hl fun e' he' => ?_
  obtain ⟨r, hr, rfl⟩ := mkIntrinsicCall_ok.mp he'
  obtain ⟨p', q', m, site, b, harg, -, -, hacc, rfl⟩ := mapResult_ok hr
  simp only [mkTuple, ty_tuple, List.map_cons, List.map_nil, Ty.tuple.injEq, List.cons.injEq,
    and_true] at harg
  obtain ⟨hFty, hety⟩ := harg
  obtain ⟨rfl, rfl⟩ := Ty.func.inj (hF.1.symm.trans hFty)
  obtain ⟨f, hf, hcall⟩ := hF.2 τ
  obtain ⟨y, hy, hxy⟩ := he.runs
  rw [hety] at hxy
  cases site with
  | participants => obtain ⟨_, _, h, -⟩ := hxy; cases h
  | coordinator =>
    obtain ⟨_, a', ⟨⟩, rfl, ha⟩ := hxy
    obtain ⟨u, hu, hvu⟩ := hcall a a' v (similar_of_standsFor hacc ▸ ha) h
    exact ⟨rfl, _, .call (runs_intrinsic.mpr ⟨.within .apply, rfl, rfl⟩)
      (runs_tuple.mpr ⟨_, .cons hf (.cons hy .nil), rfl⟩) (runs_apply.mpr ⟨f, a', u, rfl, rfl, hu⟩),
      v, u, rfl, rfl, hvu⟩

theorem acts_closed (hF : F.Scoped []) (hty : F.ty = .func p q)
    (hvalue : ∃ f, Runs s (.expr [] F) f) :
    Acts s F p q fun a v => Applies s F (some a) v := by
  refine ⟨hty, fun τ => ?_⟩
  obtain ⟨f, hf⟩ := hvalue
  obtain ⟨g, hg, hfg⟩ := hF.typed.mimics (τ := τ) (fun z v hz => absurd hz hF.closed) f hf
  rw [hty] at hfg
  refine ⟨g, hg, fun a b v hab hv => ?_⟩
  obtain ⟨f', hf', hv⟩ := hv
  cases hf.unique hf'
  exact (hfg.2.2 a b hab).2 v hv

theorem inhabits_of_applies {a : Value} (hF : F.Scoped []) (hty : F.ty = .func p q)
    (ha : Inhabits s p a) (hv : Applies s F (some a) v) : Inhabits s q v := by
  obtain ⟨f, -, hcall⟩ := (acts_closed hF hty (hv.imp fun _ h => h.1)).2 []
  obtain ⟨u, -, h⟩ := hcall a a v ha hv
  exact h.left

end Acts

def Along : List Nat → Value → Value → Prop
  | [], a, v => a = v
  | i :: path, a, v => ∃ vs u, a = .tuple vs ∧ vs[i]? = some u ∧ Along path u v

theorem ty_along {path : List Nat} {e' : Expr} {u : Ty} (hpath : path.foldlM mkSelect e = .ok e')
    (hu : Leads e.ty path u) : e'.ty = u := by
  induction path generalizing e with
  | nil =>
    cases hpath
    exact hu
  | cons i path ih =>
    obtain ⟨ts, t, hts, ht, hu⟩ := hu
    rw [List.foldlM_cons, mkSelect_ok.mpr ⟨ts, t, hts, ht, rfl⟩] at hpath
    exact ih hpath hu

theorem runs_along {path : List Nat} {e' : Expr} {u : Ty} {a b : Value}
    (hpath : path.foldlM mkSelect e = .ok e') (he : Runs s (.expr τ e) b) (hab : Similar s e.ty a b)
    (hu : Leads e.ty path u) (hv : Along path a v) :
    ∃ w, Runs s (.expr τ e') w ∧ Similar s u v w := by
  induction path generalizing e a b with
  | nil =>
    cases hpath
    cases hv
    exact ⟨b, he, hu ▸ hab⟩
  | cons i path ih =>
    obtain ⟨vs, a', rfl, ha', hv⟩ := hv
    obtain ⟨ts, t, hts, ht, hu⟩ := hu
    rw [List.foldlM_cons, mkSelect_ok.mpr ⟨ts, t, hts, ht, rfl⟩] at hpath
    rw [hts] at hab
    obtain ⟨ws, b', rfl, hb', hab'⟩ := hab.element ht ha'
    exact ih hpath (runs_select.mpr ⟨ws, he, hb'⟩) hab' hu hv

theorem acts_selector {path : List Nat} {F : Expr} {u : Ty} (hF : selector t path = .ok F)
    (hu : Leads t path u) :
    Acts s F t u (Along path) := by
  simp only [selector, except_bind_ok, except_pure_ok] at hF
  obtain ⟨body, hbody, rfl⟩ := hF
  refine ⟨by rw [mkLambda, ty_lambda, ty_along hbody hu],
    fun τ => ⟨_, runs_lambda.mpr rfl, fun a b v hab hv => ?_⟩⟩
  obtain ⟨w, hw, hvw⟩ := runs_along (τ := ("o", b) :: τ) hbody (by simp) hab hu hv
  exact ⟨w, runs_closure.mpr hw, hvw⟩

theorem ensures_partially {f : Expr} {p r : Ty} {argument : Expr → Expr} {whole : Value → Value}
    {k : Expr → WiringM Expr} {Q : Expr → Wiring → Env → Prop} (hf : f.Scoped [])
    (hty : f.ty = .func p r) (hwhole : ∀ τ a b, τ.lookup "d" = some b → Similar s t a b →
      ∃ c, Runs s (.expr τ (argument (.ref "d" t))) c ∧ Similar s p (whole a) c)
    (hk : ∀ F, Acts s F t r (fun a v => Applies s f (some (whole a)) v) → Ensures s σ w τ (k F) Q) :
    Ensures s σ w τ (partially slot f t argument >>= k) Q := by
  rw [partially, bind_assoc]
  refine ensures_typed fun e he => ?_
  obtain ⟨p', r', hty', -, rfl⟩ := mkCall_ok.mp he
  obtain ⟨-, rfl⟩ := Ty.func.inj (hty.symm.trans hty')
  rw [pure_bind]
  refine hk _ ⟨rfl, fun τ' => ⟨_, runs_lambda.mpr rfl, fun a b v hab hv => ?_⟩⟩
  obtain ⟨c, hc, hac⟩ := hwhole (("d", b) :: τ') a b (by simp) hab
  obtain ⟨g, hg, hcall⟩ := (acts_closed hf hty (hv.imp fun _ h => h.1)).2 (("d", b) :: τ')
  obtain ⟨u, hu, hvu⟩ := hcall (whole a) c v hac hv
  exact ⟨u, runs_closure.mpr (.call hg hc hu), hvu⟩

theorem constant_runs {b : Block} (he : constant b = .ok e) (hv : Applies s b.payload none v) :
    Runs s (.expr [] e) v := by
  unfold constant at he
  split at he
  case h_1 body t hb =>
    cases he
    rw [hb] at hv
    exact applies_delay.mp hv
  case h_2 =>
    obtain ⟨t, ht, rfl⟩ := mkForce_ok.mp he
    obtain ⟨f, hf, hv⟩ := hv
    exact .force hf hv

theorem ensures_nothing (hl : Live s σ w τ) : Ensures s σ w τ (nothing slot) fun e w' τ' =>
    Carries s w' τ' e e.ty (.atServer (.tuple [])) := by
  unfold nothing
  refine ensures_bind (m := get) (Q := fun w₁ w' τ' => w₁ = w ∧ w' = w ∧ τ' = τ) ?_ ?_
  · rintro _ _ ⟨⟩
    exact ⟨τ, hl, .refl, rfl, rfl, rfl⟩
  rintro _ w τ hl - ⟨rfl, rfl, rfl⟩
  split
  case h_1 e he => exact ensures_pure hl (hl.nothing e he)
  case h_2 =>
    have hunit : Carries s w τ Expr.unit Expr.unit.ty (.tuple []) := carries_tuple rfl rfl (by simp)
    refine ensures_bind (ensures_gate hl hunit fun r hr => runs_valueAtServer.mpr rfl)
      fun e w' τ' hl' hk he => ?_
    refine ensures_bind (m := modify _)
      (Q := fun _ w'' τ'' => w'' = { w' with nothing := some e } ∧ τ'' = τ') ?_ ?_
    · rintro _ _ ⟨⟩
      refine ⟨τ', ⟨hl'.binds, ?_⟩, ⟨List.Subset.refl _, fun _ _ => rfl⟩, rfl, rfl⟩
      rintro _ ⟨⟩
      exact ⟨he.2.taken, he.2.reads⟩
    · rintro _ _ _ hl'' - ⟨rfl, rfl⟩
      exact ensures_pure hl'' ⟨he.2.taken, he.2.reads⟩

theorem ensures_zipAtServer {es : List Expr} {vs : List Value} (hl : Live s σ w τ)
    (h : List.Forall₂ (fun e v => Carries s w τ e e.ty (.atServer v)) es vs) :
    Ensures s σ w τ (bind slot base (zipAtServer es)) fun e w' τ' =>
    Carries s w' τ' e e.ty (.atServer (.tuple vs)) := by
  have hes := carries_mkTuple (List.forall₂_map_right_iff.mpr h)
  exact (ensures_gate hl hes fun r hr => runs_zipAtServer.mpr ⟨vs, rfl, rfl⟩).mono
    fun _ _ _ h => h.2

theorem ensures_zipAtClients {a b : Expr} {us vs : List Value} (hl : Live s σ w τ)
    (ha : Carries s w τ a a.ty (.atClients us)) (hb : Carries s w τ b b.ty (.atClients vs))
    (hus : us.length = s.participants) (hvs : vs.length = s.participants) :
    Ensures s σ w τ (bind slot base (zipAtClients [a, b])) fun e w' τ' =>
      Carries s w' τ' e e.ty (.atClients (List.zipWith .pair us vs)) := by
  refine (ensures_gate hl (carries_pair ha hb) fun r hr => ?_).mono fun _ _ _ h => h.2
  refine runs_zipAtClients.mpr ⟨[us, vs], _, rfl, rfl, ?_⟩
  rw [List.forall₂_iff_get]
  refine ⟨by simp [hus, hvs], fun i hi hi' => ?_⟩
  simp only [List.length_range] at hi
  refine ⟨[us[i], vs[i]], by simp [Value.pair], ?_⟩
  simp [hus, hvs, hi]

section Splicing

variable {Γ : List (String × Ty)} {ρ : Env} {m : Subst}

/-- The variables have values of their types, which their replacements carry. -/
def CarriesAll (s : Setting) (w : Wiring) (τ : Env) (Γ : List (String × Ty)) (ρ : Env)
    (m : Subst) : Prop :=
  ∀ z t, Γ.lookup z = some t → ∃ v r, ρ.lookup z = some v ∧ m.lookup z = some r ∧ Inhabits s t v ∧
    Carries s w τ r t v

theorem CarriesAll.mono (h : CarriesAll s w τ Γ ρ m) (hk : Keeps w τ w' τ') :
    CarriesAll s w' τ' Γ ρ m := by
  intro z t hz
  obtain ⟨v, r, hv, hr, hinh, hcarries⟩ := h z t hz
  exact ⟨v, r, hv, hr, hinh, hcarries.mono hk⟩

theorem CarriesAll.insert {x : String} {r : Expr} (h : CarriesAll s w τ Γ ρ m) (hv : Inhabits s t v)
    (hr : Carries s w τ r t v) : CarriesAll s w τ ((x, t) :: Γ) ((x, v) :: ρ) (m.insert x r) := by
  intro z u hz
  rw [Subst.lookup_insert]
  by_cases hzx : z = x
  · obtain rfl : t = u := by simpa [hzx] using hz
    exact ⟨v, r, by simp [hzx], by simp [hzx], hv, hr⟩
  · have hne : (z == x) = false := by simpa using hzx
    rw [lookup_cons_of_ne hzx] at hz
    rw [List.lookup_cons, hne, if_neg hzx]
    exact h z u hz

theorem carries_subst (he : e.Scoped Γ) (hm : ¬ m.isEmpty = true) (h : CarriesAll s w τ Γ ρ m)
    (hv : Runs s (.expr ρ e) v) : Inhabits s e.ty v ∧ Carries s w τ (e.subst m) e.ty v := by
  have hself : SimilarFor s Γ e ρ ρ := by
    intro z v hz hv
    obtain ⟨t, ht⟩ := he.bound hz
    obtain ⟨v', r, hv', -, hinh, -⟩ := h z t ht
    cases hv.symm.trans hv'
    exact ⟨t, v, ht, hv, hinh⟩
  rw [subst_of_not_isEmpty hm]
  refine ⟨?_, fun n hn => ?_,
    fun τ' => he.typed.reads_replace m.avoids_names (fun z v hz hv => ?_) hv⟩
  · obtain ⟨_, -, h⟩ := he.typed.mimics hself v hv
    exact h.left
  · obtain ⟨z, u, hz, hn⟩ := refers_replace m.avoids_names hn
    obtain ⟨t, ht⟩ := he.bound hz
    obtain ⟨_, r, -, hr, -, hcarries⟩ := h z t ht
    rw [Subst.image, hr, Option.getD_some] at hn
    exact hcarries.taken n hn
  · obtain ⟨t, ht⟩ := he.bound hz
    obtain ⟨v', r, hv', hr, hinh, hcarries⟩ := h z t ht
    cases hv.symm.trans hv'
    refine ⟨t, ht, hinh, fun τ'' hτ => ?_⟩
    rw [Subst.image, hr, Option.getD_some] at hτ ⊢
    exact (hcarries.reads τ'').mono fun n hn hn' => (hτ n hn).trans hn'

theorem ensures_spliceLocals {ls : List (String × Expr)} {r : Expr}
    {Q : Subst → Wiring → Env → Prop} (hl : Live s σ w τ) (hb : (block ls r t).Scoped Γ)
    (hm : ¬ m.isEmpty = true) (h : CarriesAll s w τ Γ ρ m) (hv : Runs s (.expr ρ (.block ls r t)) v)
    (hQ : ∀ m' w' τ', Carries s w' τ' (r.subst m') t v → Q m' w' τ') :
    Ensures s σ w τ (spliceLocals m ls) Q := by
  induction ls generalizing w τ m Γ ρ with
  | nil =>
    obtain ⟨hr, rfl⟩ := hb.result
    cases hv with
    | blockNil hv => exact ensures_pure hl (hQ m w τ (carries_subst hr hm h hv).2)
  | cons l ls ih =>
    obtain ⟨x, e⟩ := l
    obtain ⟨he, hb⟩ := hb.local_
    cases hv with
    | @blockCons _ _ _ _ _ _ u _ hu hv =>
      obtain ⟨hinh, hcarries⟩ := carries_subst he hm h hu
      obtain ⟨u', hu', huu⟩ := hcarries.runs
      have hk : Keeps w τ (w.push x (e.subst m)) (((w.names.fresh x).1, u') :: τ) := keeps_push
      have hrest := ih (hl.push hu') hb (m := m.insert x (.ref (w.names.fresh x).1 (e.subst m).ty))
        (by simp [Subst.insert]) ((h.mono hk).insert hinh (carries_push huu)) hv
      intro m' w' hrun
      obtain ⟨τ', hl', hk', hq⟩ := hrest m' w' hrun
      exact ⟨τ', hl', hk.trans hk', hq⟩

/-- Splicing a function in carries its result. -/
theorem ensures_splice {f a : Expr} {p r : Ty} {b : Value} (hl : Live s σ w τ) (hf : f.Scoped [])
    (hty : f.ty = .func p r) (hb : Inhabits s p b) (ha : Carries s w τ a p b)
    (hv : Applies s f (some b) v) :
    Ensures s σ w τ (splice slot f a) fun e w' τ' => Inhabits s r v ∧ Carries s w' τ' e r v := by
  have hinh : Inhabits s r v := inhabits_of_applies hf hty hb hv
  unfold splice
  split
  case h_1 param body t =>
    cases param with
    | none => simp [hf.delayed.2] at hty
    | some x =>
      obtain ⟨p', hbody, rfl⟩ := hf.body
      obtain ⟨rfl, rfl⟩ := Ty.func.inj hty
      have hsupplies : CarriesAll s w τ [(x, p')] [(x, b)] [(x, a)] := by
        have : CarriesAll s w τ [] [] [] := fun z t hz => by simp at hz
        exact this.insert hb ha
      have hv := applies_lambda.mp hv
      dsimp only
      split
      case h_1 ls r t =>
        refine ensures_bind
          (ensures_spliceLocals hl hbody (by simp) hsupplies hv fun m' w' τ' h => h) ?_
        exact fun m' w' τ' hl' _ h => ensures_pure hl' ⟨hinh, h⟩
      case h_2 => exact ensures_pure hl ⟨hinh, (carries_subst hbody (by simp) hsupplies hv).2⟩
  case h_2 =>
    refine (ensures_local (T := fun t => t = r) hl fun e he => ?_).mono fun e w' τ' h =>
      ⟨hinh, h.1 ▸ h.2⟩
    obtain ⟨p', r', hty', -, rfl⟩ := mkCall_ok.mp he
    obtain ⟨rfl, rfl⟩ := Ty.func.inj (hty.symm.trans hty')
    obtain ⟨g, hg, hcall⟩ := (acts_closed hf hty (hv.imp fun _ h => h.1)).2 τ
    obtain ⟨b', hb', hbb⟩ := ha.runs
    obtain ⟨u, hu, hvu⟩ := hcall b b' v hbb hv
    exact ⟨rfl, u, .call hg hb' hu, hvu⟩

theorem selectOf_of_project {i : Nat} {e' : Expr} (he : project e i = .ok e') :
    ∃ u, e' = e.selectOf i u := by
  have hselect : ∀ {e e' : Expr}, e.mkSelect i = .ok e' → ∃ u, e' = .select e i u := by
    intro e e' he
    obtain ⟨ts, u, -, -, rfl⟩ := mkSelect_ok.mp he
    exact ⟨u, rfl⟩
  cases e with
  | tuple es t =>
    cases hi : es[i]? with
    | some e =>
      obtain rfl : e = e' := by simpa [project, hi] using he
      exact ⟨t, by simp [selectOf, hi]⟩
    | none =>
      obtain ⟨u, rfl⟩ := hselect (by simpa only [project, hi] using he)
      exact ⟨u, by simp [selectOf, hi]⟩
  | _ => exact hselect he

theorem carries_project {ts : List Ty} {vs : List Value} {i : Nat} {e' : Expr}
    (h : Carries s w τ e (.tuple ts) (.tuple vs)) (ht : ts[i]? = some t) (hv : vs[i]? = some v)
    (he : project e i = .ok e') : Carries s w τ e' t v := by
  obtain ⟨u, rfl⟩ := selectOf_of_project he
  exact ⟨fun n hn => h.taken n (refers_selectOf hn), fun τ' => (h.reads τ').selectOf ht hv⟩

end Splicing

end Synthesis

end TwoTier

import TwoTier.Proofs.Collection
import TwoTier.Proofs.Slicing

/-! # Types inside a slot

What slicing a well-typed round puts into a slot is in scope of the slot's parameter, at the type
that the slot has for that of the original. Each step becomes a local once, behind the steps that it
needs.
-/

namespace TwoTier.Round

open Expr

/-- Behind the locals the expression is in scope, at the type that the slot has for `t`. -/
structure HasType (mode : Mode) (Δ : List (String × Ty)) (ls : List (String × Expr)) (e : Expr)
    (t : Ty) : Prop where
  inScope : e.Scoped (scope Δ ls)
  ty : e.ty = mode.type t
  admits : mode.admits t = true

section HasType

variable {mode : Mode} {Δ : List (String × Ty)} {ls : List (String × Expr)} {e e' f a : Expr}
  {t u p q m : Ty} {n : Nat} {site : Placement}

theorem HasType.of_keeps (he : e.Scoped (scope Δ ls)) (hk : mode.Keeps e.ty) :
    HasType mode Δ ls e e.ty :=
  ⟨he, hk.type.symm, hk.admits⟩

theorem hasType_tuple {es : List Expr} {ts : List Ty} (h : List.Forall₂ (HasType mode Δ ls) es ts) :
    HasType mode Δ ls (mkTuple es) (.tuple ts) := by
  constructor
  · apply scoped_tuple
    intro e he
    obtain ⟨t, -, ht⟩ := forall₂_mem h he
    exact ht.inScope
  · rw [Mode.type_tuple]
    refine congrArg Ty.tuple ?_
    induction h with
    | nil => rfl
    | cons hs _ ih => simp only [List.map_cons, hs.ty, ih]
  · apply Mode.admits_tuple.mpr
    intro t ht
    obtain ⟨e, -, he⟩ := forall₂_mem h.flip ht
    exact he.admits

theorem HasType.select {ts : List Ty} (h : HasType mode Δ ls e (.tuple ts)) (ht : ts[n]? = some t)
    (he : e.mkSelect n = .ok e') : HasType mode Δ ls e' t := by
  obtain ⟨us, u, hus, hu, rfl⟩ := mkSelect_ok.mp he
  have hscoped := scoped_select h.inScope hus hu
  rw [h.ty, Mode.type_tuple] at hus
  obtain rfl := Ty.tuple.inj hus
  rw [List.getElem?_map, ht, Option.map_some, Option.some.injEq] at hu
  exact ⟨hscoped, hu.symm, Mode.admits_tuple.mp h.admits t (List.mem_of_getElem? ht)⟩

theorem HasType.call (hf : HasType mode Δ ls f (.func p t)) (ha : HasType mode Δ ls a u)
    (he : f.mkCall a = .ok e') :
    HasType mode Δ ls e' t := by
  have hk := Mode.keeps_func hf.admits
  obtain ⟨p', t', hft, hacc, rfl⟩ := mkCall_ok.mp he
  have hscoped := scoped_call hf.inScope ha.inScope hft hacc
  rw [hf.ty, hk.type] at hft
  obtain ⟨rfl, rfl⟩ := Ty.func.inj hft
  exact .of_keeps hscoped hk.result

theorem HasType.force (hf : HasType mode Δ ls f (.thunk t)) (he : f.mkForce = .ok e') :
    HasType mode Δ ls e' t := by
  have hk := Mode.keeps_thunk hf.admits
  obtain ⟨t', hft, rfl⟩ := mkForce_ok.mp he
  have hscoped := scoped_force hf.inScope hft
  rw [hf.ty, hk.type] at hft
  obtain rfl := Ty.thunk.inj hft
  exact .of_keeps hscoped fun hm => hk hm

theorem HasType.intrinsic {op : Intrinsic} (hmode : mode = .placed) (hr : op.resultType u = .ok t)
    (ha : HasType mode Δ ls a u) (he : mkIntrinsicCall op a = .ok e') : HasType mode Δ ls e' t := by
  subst hmode
  obtain ⟨t', ht', rfl⟩ := mkIntrinsicCall_ok.mp he
  have hty : a.ty = u := ha.ty
  obtain rfl : t' = t := Except.ok.inj (ht'.symm.trans (hty ▸ hr))
  exact ⟨scoped_intrinsic ha.inScope ht', rfl, rfl⟩

theorem HasType.placed {flag : Bool} (hmode : mode = .lowered) (ht : t.isPlaced = false)
    (he : HasType mode Δ ls e t) :
    HasType mode Δ ls e (.placed t site flag) := by
  subst hmode
  exact ⟨he.inScope, he.ty.trans (Ty.lower_of_not_isPlaced ht), rfl⟩

theorem HasType.loweredZip {ts ms : List Ty} (hmode : mode = .lowered)
    (hms : List.Forall₂ (fun t m => t.memberAt? site = some m) ts ms)
    (ha : HasType mode Δ ls a (.tuple ts)) :
    HasType mode Δ ls a (.place (.tuple ms) site false) := by
  subst hmode
  refine ⟨ha.inScope, ?_, rfl⟩
  rw [ha.ty, Mode.type_tuple]
  exact congrArg Ty.tuple (lower_of_memberAt? hms)

end HasType

namespace Slice

/-- Each local is in scope, and stands for a step of its name. -/
structure Emitted (c : Slice) (Δ : List (String × Ty)) (ls : List (String × Expr)) : Prop where
  chain : Chain Δ ls
  step : ∀ l ∈ ls, ∃ step ∈ c.view.steps, step.name = l.1 ∧ l.2.ty = c.mode.type step.value.ty ∧
    c.mode.admits step.value.ty = true

/-- The second locals are the first ones and more, whose names are among `names`. -/
structure Extends (c : Slice) (Δ : List (String × Ty)) (names : List String)
    (ls ls' : List (String × Expr)) : Prop where
  emitted : c.Emitted Δ ls'
  grown : ∃ ds, ls' = ls ++ ds ∧ ∀ x ∈ ds.map Prod.fst, x ∈ names

/-- Slicing by `m` adds locals of these names, and results in what the slot has for an expression of
type `t`. -/
def Emits (c : Slice) (Δ : List (String × Ty)) (names : List String) (m : SliceM Expr)
    (t : Ty) : Prop :=
  ∀ ⦃ls ls' : List (String × Expr)⦄ ⦃e : Expr⦄, c.Emitted Δ ls → (m.run ls).result = .ok (e, ls') →
    c.Extends Δ names ls ls' ∧ HasType c.mode Δ ls' e t

variable {c : Slice} {Δ Γ : List (String × Ty)} {names names' : List String}
  {ls ls' ls'' : List (String × Expr)} {e : Expr} {t u : Ty} {m : SliceM Expr}

theorem Emitted.refl (h : c.Emitted Δ ls) : c.Extends Δ names ls ls :=
  ⟨h, [], by simp, by simp⟩

theorem Extends.trans (h : c.Extends Δ names ls ls') (h' : c.Extends Δ names ls' ls'') :
    c.Extends Δ names ls ls'' := by
  obtain ⟨ds, rfl, hds⟩ := h.grown
  obtain ⟨ds', rfl, hds'⟩ := h'.grown
  refine ⟨h'.emitted, ds ++ ds', by simp, fun x hx => ?_⟩
  rw [List.map_append, List.mem_append] at hx
  exact hx.elim (hds x) (hds' x)

theorem Extends.widen (h : c.Extends Δ names ls ls') (hn : ∀ x ∈ names, x ∈ names') :
    c.Extends Δ names' ls ls' := by
  obtain ⟨ds, hls, hds⟩ := h.grown
  exact ⟨h.emitted, ds, hls, fun x hx => hn x (hds x hx)⟩

theorem Extends.hasType (h : c.Extends Δ names ls ls') (he : HasType c.mode Δ ls e t) :
    HasType c.mode Δ ls' e t := by
  obtain ⟨ds, rfl, -⟩ := h.grown
  refine ⟨he.inScope.mono ?_, he.ty, he.admits⟩
  rw [scope_append]
  exact (chain_append.mp h.emitted.chain).2.within

theorem Emitted.hasType (h : c.Emitted Δ ls) (he : HasType c.mode Δ [] e t) :
    HasType c.mode Δ ls e t :=
  ⟨he.inScope.mono h.chain.within, he.ty, he.admits⟩

theorem emitted_nil : c.Emitted Δ [] :=
  ⟨trivial, by simp⟩

theorem Emitted.bind {step : Step} (h : c.Emitted Δ ls) (hs : step ∈ c.view.steps)
    (hnew : step.name ∉ (scope Δ ls).map Prod.fst) (he : HasType c.mode Δ ls e step.value.ty) :
    c.Emitted Δ (ls ++ [(step.name, e)]) ∧
      HasType c.mode Δ (ls ++ [(step.name, e)]) (.ref step.name e.ty) step.value.ty := by
  refine ⟨⟨chain_snoc.mpr ⟨h.chain, hnew, he.inScope⟩, fun l hl => ?_⟩, scoped_ref (by simp),
    he.ty, he.admits⟩
  rcases List.mem_append.mp hl with hl | hl
  · exact h.step l hl
  · rw [List.mem_singleton.mp hl]
    exact ⟨step, hs, rfl, he.ty, he.admits⟩

theorem emits_pure (h : HasType c.mode Δ [] e t) : c.Emits Δ names (pure e) t := by
  intro ls ls' e' hl hr
  obtain ⟨rfl, rfl⟩ := Prod.mk.inj (Traced.run_pure_ok.mp hr)
  exact ⟨hl.refl, hl.hasType h⟩

theorem hasType_closed {mode : Mode} (he : e.Scoped Γ) (hc : ∀ z, ¬ e.Refers z)
    (hk : mode.Keeps e.ty) :
    HasType mode Δ ls e e.ty :=
  .of_keeps (fun _ _ => he.typed.narrow fun z _ hz => absurd hz (hc z)) hk

theorem emits_unlessInert (he : e.Scoped Γ) (h : c.Emits Δ names m e.ty) :
    c.Emits Δ names (unlessInert e m) e.ty := by
  intro ls ls' e' hl hr
  rcases unlessInert_ok hr with ⟨hc, ht, heq⟩ | hr
  · obtain ⟨rfl, rfl⟩ := Prod.mk.inj heq
    exact ⟨hl.refl, hasType_closed he (fun z => isClosed_iff.mp hc z) fun _ => isPlaced_of_tier ht⟩
  · exact h hl hr

theorem emits_whole (he : e.Scoped Γ) : c.Emits Δ names (c.whole e) e.ty := by
  intro ls ls' e' hl hr
  obtain ⟨hc, hkeep, heq⟩ := whole_ok hr
  obtain ⟨rfl, rfl⟩ := Prod.mk.inj heq
  exact ⟨hl.refl, hasType_closed he (fun z => isClosed_iff.mp hc z) hkeep⟩

theorem emits_sequence {ms : List (SliceM Expr)} {ts : List Ty} {es : List Expr}
    (h : List.Forall₂ (c.Emits Δ names) ms ts) (hl : c.Emitted Δ ls)
    (hr : ((sequence ms).run ls).result = .ok (es, ls')) :
    c.Extends Δ names ls ls' ∧ List.Forall₂ (HasType c.mode Δ ls') es ts := by
  induction h generalizing ls es with
  | nil =>
    obtain ⟨rfl, rfl⟩ := Prod.mk.inj (Traced.run_pure_ok.mp hr)
    exact ⟨hl.refl, .nil⟩
  | cons hm _ ih =>
    simp only [sequence, Traced.run_bind_ok] at hr
    obtain ⟨e, ls₁, hr₁, es', ls₂, hr₂, hr₃⟩ := hr
    obtain ⟨rfl, rfl⟩ := Prod.mk.inj (Traced.run_pure_ok.mp hr₃)
    obtain ⟨hext, he⟩ := hm hl hr₁
    obtain ⟨hext', hes⟩ := ih hext.emitted hr₂
    exact ⟨hext.trans hext', .cons (hext'.hasType he) hes⟩

theorem emits_tuple {ms : List (SliceM Expr)} {ts : List Ty}
    (h : List.Forall₂ (c.Emits Δ names) ms ts) :
    c.Emits Δ names (do return mkTuple (← sequence ms)) (.tuple ts) := by
  intro ls ls' e hl hr
  rw [Traced.run_bind_ok] at hr
  obtain ⟨es, ls₁, hr₁, hr₂⟩ := hr
  obtain ⟨rfl, rfl⟩ := Prod.mk.inj (Traced.run_pure_ok.mp hr₂)
  obtain ⟨hext, hes⟩ := emits_sequence h hl hr₁
  exact ⟨hext, hasType_tuple hes⟩

theorem emits_valuesWith {resolve : Step → SliceM Expr} {es : List Expr}
    (h : ∀ e ∈ es, c.Emits Δ names (c.valueWith resolve e) e.ty) :
    List.Forall₂ (c.Emits Δ names) (c.valuesWith resolve es) (es.map Expr.ty) := by
  rw [valuesWith_eq, List.forall₂_map_left_iff, List.forall₂_map_right_iff, List.forall₂_same]
  exact h

theorem emits_call {mf ma : SliceM Expr} {p : Ty} (hf : c.Emits Δ names mf (.func p t))
    (ha : c.Emits Δ names ma u) :
    c.Emits Δ names (do
      let function ← mf
      let argument ← ma
      c.typed (function.mkCall argument)) t := by
  intro ls ls' e hl hr
  simp only [Traced.run_bind_ok, typed_ok] at hr
  obtain ⟨f, ls₁, hr₁, a, ls₂, hr₂, he, rfl⟩ := hr
  obtain ⟨hext, hf⟩ := hf hl hr₁
  obtain ⟨hext', ha⟩ := ha hext.emitted hr₂
  exact ⟨hext.trans hext', (hext'.hasType hf).call ha he⟩

theorem emits_loweredCall {op : LocalOp} {parts : List (SliceM Expr)} {argument : SliceM Expr}
    (hmode : c.mode = .lowered) (hr : Intrinsic.resultType (.within op) u = .ok t)
    (hparts : ∀ ts, u = .tuple ts → List.Forall₂ (c.Emits Δ names) parts ts)
    (harg : c.Emits Δ names argument u) :
    c.Emits Δ names (c.loweredCall op parts argument) t := by
  have map : ∀ op, op = .map ∨ op = .apply → Intrinsic.mapResult op u = .ok t →
      c.Emits Δ names (c.loweredCall op parts argument) t := by
    intro op ho hr
    obtain ⟨p, q, m, site, bit, rfl, -, hp, -, rfl⟩ := mapResult_ok hr
    obtain ⟨m₁, m₂, rfl, hf, ha⟩ : ∃ m₁ m₂, parts = [m₁, m₂] ∧ c.Emits Δ names m₁ (.func p q) ∧
        c.Emits Δ names m₂ (.placed m site bit) := by
      cases hparts _ rfl with
      | cons hf h =>
        cases h with
        | cons ha h =>
          cases h
          exact ⟨_, _, rfl, hf, ha⟩
    have hcall := emits_call hf ha
    intro ls ls' e hl hrun
    obtain ⟨hext, he⟩ := hcall hl (by rcases ho with rfl | rfl <;> exact hrun)
    exact ⟨hext, he.placed hmode (Ty.isPlaced_func.mp hp).2⟩
  have zip : ∀ op site wanted, Intrinsic.zipResult site wanted u = .ok t →
      c.loweredCall op parts argument = (do return mkTuple (← sequence parts)) →
      c.Emits Δ names (c.loweredCall op parts argument) t := by
    intro op site wanted hr hcall ls ls' e hl hrun
    obtain ⟨ts, ms, rfl, hms, rfl⟩ := zipResult_ok hr
    rw [hcall] at hrun
    obtain ⟨hext, he⟩ := emits_tuple (hparts ts rfl) hl hrun
    exact ⟨hext, he.loweredZip hmode hms⟩
  cases op with
  | map => exact map .map (.inl rfl) hr
  | apply => exact map .apply (.inr rfl) hr
  | zipAtClients => exact zip .zipAtClients _ _ hr rfl
  | zipAtServer => exact zip .zipAtServer _ _ hr rfl
  | valueAtServer =>
    simp only [Intrinsic.resultType] at hr
    split at hr
    · cases hr
    · rename_i hu
      cases hr
      intro ls ls' e hl hrun
      obtain ⟨hext, he⟩ := harg hl hrun
      exact ⟨hext, he.placed hmode (by simpa using hu)⟩

theorem emits_intrinsicCall {node : Expr} {uri : String}
    {op : Intrinsic} {parts : List (SliceM Expr)}
    {argument : SliceM Expr} (ho : Intrinsic.ofUri? uri = some op) (hr : op.resultType u = .ok t)
    (hparts : ∀ ts, u = .tuple ts → List.Forall₂ (c.Emits Δ names) parts ts)
    (harg : c.Emits Δ names argument u) :
    c.Emits Δ names (c.intrinsicCall node uri parts argument) t := by
  intro ls ls' e hl hrun
  cases op with
  | crossing op =>
    simp only [intrinsicCall, ho] at hrun
    exact absurd hrun leak_ok
  | within op =>
    simp only [intrinsicCall, ho] at hrun
    split at hrun
    · rename_i hm
      simp only [Traced.run_bind_ok, typed_ok] at hrun
      obtain ⟨a, ls₁, hr₁, he, rfl⟩ := hrun
      obtain ⟨hext, ha⟩ := harg hl hr₁
      exact ⟨hext, ha.intrinsic hm hr he⟩
    · rename_i hm
      exact emits_loweredCall hm hr hparts harg hl hrun

/-- What stands for the round's inputs and for the results of steps has their types, where the
slot's parameter has a name of its own. -/
structure Furnished (c : Slice) (p : Ty) (Δ : List (String × Ty)) : Prop where
  view : c.view.Scoped p
  fresh : ∀ step ∈ c.view.steps, step.name ∉ Δ.map Prod.fst
  select : ∀ {n ts t e}, p = .tuple ts → ts[n]? = some t →
    (if n = 0 then c.state else c.data) = some e →
    HasType c.mode Δ [] e t
  inputs : ∀ x e, c.inputs.lookup x = some e →
    ∃ step ∈ c.view.steps, step.name = x ∧ HasType c.mode Δ [] e step.value.ty

/-- Resolving a step that is no local yet makes one of it, and of steps before it. -/
def Resolves (c : Slice) (Δ : List (String × Ty)) (resolve : Step → SliceM Expr) : Prop :=
  ∀ {pre step post}, c.view.steps = pre ++ step :: post →
    ∀ ⦃ls ls' : List (String × Expr)⦄ ⦃e : Expr⦄, ls.lookup step.name = none → c.Emitted Δ ls →
    ((resolve step).run ls).result = .ok (e, ls') →
    c.Extends Δ ((pre ++ [step]).map Step.name) ls ls' ∧ HasType c.mode Δ ls' e step.value.ty

namespace Furnished

variable {p : Ty} {pre post : List Step} {resolve : Step → SliceM Expr} {x : String}

theorem chain_nodup (h : c.Furnished p Δ) : (c.view.param :: c.view.steps.map Step.name).Nodup := by
  rw [← map_fst_bindings]
  refine List.nodup_cons.mpr ⟨fun hx => ?_, h.view.steps.nodup⟩
  exact h.view.steps.not_mem hx (by simp)

theorem ty_eq (h : c.Furnished p Δ) (hsteps : c.view.steps = pre ++ post)
    (hx : (scope [(c.view.param, p)] (bindings pre)).lookup x = some t) {step : Step}
    (hs : step ∈ c.view.steps) (hname : step.name = x) : step.value.ty = t := by
  have hchain := h.view.steps
  have hlookup := hchain.lookup (List.mem_map_of_mem hs)
  rw [hsteps, bindings_append] at hchain hlookup
  have hwithin := (chain_append.mp hchain).2.within
  rw [← scope_append] at hwithin
  exact Option.some.inj (hlookup.symm.trans (hname ▸ hwithin x t hx))

theorem step_eq (h : c.Furnished p Δ) (hsteps : c.view.steps = pre ++ post)
    (hx : (scope [(c.view.param, p)] (bindings pre)).lookup x = some t)
    (hparam : x ≠ c.view.param) {step : Step} (hs : step ∈ c.view.steps) (hname : step.name = x) :
    ∃ pre₁ pre₂, pre = pre₁ ++ step :: pre₂ := by
  rcases lookup_scope hx with hx | ⟨e, ls₁, ls₂, heq, -⟩
  · rw [lookup_cons_of_ne hparam] at hx
    cases hx
  · obtain ⟨pre₁, rest, rfl, -, hrest⟩ := List.map_eq_append_iff.mp heq
    obtain ⟨step', pre₂, rfl, hstep', -⟩ := List.map_eq_cons_iff.mp hrest
    have hmem : step' ∈ c.view.steps := by simp [hsteps]
    have hnodup := (List.nodup_cons.mp h.chain_nodup).2
    obtain rfl := List.inj_on_of_nodup_map hnodup hmem hs ((Prod.mk.inj hstep').1.trans hname.symm)
    exact ⟨pre₁, pre₂, rfl⟩

theorem reference (h : c.Furnished p Δ) (hres : c.Resolves Δ resolve)
    (hsteps : c.view.steps = pre ++ post)
    (hx : (scope [(c.view.param, p)] (bindings pre)).lookup x = some t) :
    c.Emits Δ (pre.map Step.name) (c.reference resolve e x) t := by
  intro ls ls' e' hl hrun
  unfold Slice.reference at hrun
  split at hrun
  · rename_i input hin
    obtain ⟨rfl, rfl⟩ := Prod.mk.inj (Traced.run_pure_ok.mp hrun)
    obtain ⟨step, hs, hname, htype⟩ := h.inputs _ _ hin
    rw [h.ty_eq hsteps hx hs hname] at htype
    exact ⟨hl.refl, hl.hasType htype⟩
  · simp only [Traced.run_bind_ok, Traced.run_get_ok] at hrun
    obtain ⟨_, _, ⟨rfl, rfl⟩, hrun⟩ := hrun
    split at hrun
    · rename_i e₁ hlook
      obtain ⟨rfl, rfl⟩ := Prod.mk.inj (Traced.run_pure_ok.mp hrun)
      have hmem : (x, e₁) ∈ ls := by
        obtain ⟨l₁, l₂, rfl, -⟩ := List.lookup_eq_some_iff.mp hlook
        simp
      obtain ⟨step, hs, hname, hty, hadm⟩ := hl.step _ hmem
      rw [h.ty_eq hsteps hx hs hname] at hty hadm
      exact ⟨hl.refl, scoped_ref (hl.chain.lookup hmem), hty, hadm⟩
    · rename_i hnone
      split at hrun
      · exact absurd hrun misfit_ok
      · rename_i hparam
        split at hrun
        · exact absurd hrun leak_ok
        · rename_i step hstep
          split at hrun
          · exact absurd hrun misfit_ok
          · have hs := List.mem_of_find?_eq_some hstep
            have hname : step.name = x := by simpa using List.find?_some hstep
            obtain ⟨pre₁, pre₂, rfl⟩ := h.step_eq hsteps hx hparam hs hname
            rw [List.append_assoc, List.cons_append] at hsteps
            obtain ⟨hext, htype⟩ := hres hsteps (hname ▸ hnone) hl hrun
            have hall : c.view.steps = (pre₁ ++ step :: pre₂) ++ post := by simp [hsteps]
            rw [h.ty_eq hall hx hs hname] at htype
            exact ⟨hext.widen (by simp; grind), htype⟩

theorem selection (h : c.Furnished p Δ) {node source : Expr} {n : Nat} {inside : SliceM Expr}
    {ts : List Ty} (hnode : node.Scoped Γ) (hsteps : c.view.steps = pre ++ post)
    (hsource : source.Scoped (scope [(c.view.param, p)] (bindings pre)))
    (hts : source.ty = .tuple ts) (ht : ts[n]? = some node.ty)
    (hin : c.Emits Δ names inside source.ty) :
    c.Emits Δ names (c.selection node source n inside) node.ty := by
  have other : c.Emits Δ names (do c.typed ((← inside).mkSelect n)) node.ty := by
    intro ls ls' e' hl hrun
    simp only [Traced.run_bind_ok, typed_ok] at hrun
    obtain ⟨e₁, ls₁, hr₁, he, rfl⟩ := hrun
    obtain ⟨hext, htype⟩ := hin hl hr₁
    exact ⟨hext, (hts ▸ htype).select ht he⟩
  apply emits_unlessInert hnode
  split
  · rename_i x u
    split
    · rename_i hx
      subst hx
      have hp : p = .tuple ts := by
        have hparam : (scope [(c.view.param, p)] (bindings pre)).lookup c.view.param = some p := by
          have hchain := h.view.steps
          rw [hsteps, bindings_append] at hchain
          exact (chain_append.mp hchain).1.within _ _ (by simp)
        exact (typed_ref.mp hsource.typed p hparam).trans hts
      have select : ∀ m : Option Expr, (if n = 0 then c.state else c.data) = m → ∀ misfit,
          c.Emits Δ names (m.elim (c.misfit misfit) pure) node.ty := by
        intro m hm misfit ls ls' e' hl hrun
        cases m with
        | none => exact absurd hrun misfit_ok
        | some e => exact emits_pure (h.select hp ht hm) hl hrun
      split
      · exact select _ rfl _
      · exact select _ (if_neg (by assumption)) _
    · exact other
  · exact other

theorem fields (h : c.Furnished p Δ) {a : Expr} {ts : List Ty} {argument : SliceM Expr}
    (hsteps : c.view.steps = pre ++ post) (ha : a.Scoped (scope [(c.view.param, p)] (bindings pre)))
    (hts : a.ty = .tuple ts) (harg : c.Emits Δ names argument a.ty) :
    List.Forall₂ (c.Emits Δ names) (c.fields a argument) ts := by
  rw [Slice.fields, hts, List.forall₂_iff_get]
  refine ⟨by simp, fun n hn hn' => ?_⟩
  simp only [List.length_map, List.length_range] at hn
  have hty : (a.field n).ty = ts[n] := by
    simp [Expr.field, hts, Ty.elementOrEmpty, Ty.elements?, List.getD_eq_getElem?_getD, hn]
  have ht : ts[n]? = some (a.field n).ty :=
    (List.getElem?_eq_getElem hn).trans (congrArg some hty.symm)
  have hnode : (a.field n).Scoped (scope [(c.view.param, p)] (bindings pre)) :=
    scoped_select ha hts ht
  have hsel := h.selection hnode hsteps ha hts ht harg
  rw [hty] at hsel
  simpa using hsel

theorem argumentParts (h : c.Furnished p Δ) {a : Expr}
    {ts : List Ty} (hsteps : c.view.steps = pre ++ post)
    (ha : a.Scoped (scope [(c.view.param, p)] (bindings pre))) (hts : a.ty = .tuple ts)
    (hes : ∀ es u, a = .tuple es u → ∀ e ∈ es, c.Emits Δ names (c.valueWith resolve e) e.ty)
    (harg : c.Emits Δ names (c.valueWith resolve a) a.ty) :
    List.Forall₂ (c.Emits Δ names) (c.argumentParts resolve a) ts := by
  refine argumentParts_cases (P := fun ms => List.Forall₂ _ ms _) (fun es u heq => ?_)
    (h.fields hsteps ha hts harg)
  subst heq
  rw [ty_tuple, (typed_tuple.mp ha.typed).2] at hts
  rw [← Ty.tuple.inj hts]
  exact emits_valuesWith (hes es u rfl)

theorem valueWith (h : c.Furnished p Δ) (hres : c.Resolves Δ resolve)
    (hsteps : c.view.steps = pre ++ post)
    (he : e.Scoped (scope [(c.view.param, p)] (bindings pre))) :
    c.Emits Δ (pre.map Step.name) (c.valueWith resolve e) e.ty := by
  induction e using slicing_induct with
  | ref x t =>
    refine emits_unlessInert he (h.reference hres hsteps ?_)
    obtain ⟨u, hu⟩ := he.bound (refers_ref.mpr rfl)
    rwa [typed_ref.mp he.typed u hu] at hu
  | lit a t =>
    refine emits_pure (hasType_closed he (by simp) fun _ => ?_)
    rw [ty_lit, ← typed_lit.mp he.typed]
    cases a <;> rfl
  | builtin b t =>
    refine emits_pure (hasType_closed he (by simp) fun _ => ?_)
    obtain ⟨operand, hnum, rfl⟩ := typed_builtin.mp he.typed
    have hp := Ty.isPlaced_of_isNumeric hnum
    exact Ty.isPlaced_func.mpr ⟨Ty.isPlaced_paramType hp, hp⟩
  | lambda | block | intrinsic => exact emits_unlessInert he (emits_whole he)
  | tuple es t ih =>
    refine emits_unlessInert he ?_
    rw [ty_tuple, (typed_tuple.mp he.typed).2]
    exact emits_tuple (emits_valuesWith fun e hmem => ih e hmem (he.element hmem))
  | select e i t ih =>
    obtain ⟨hsource, ts, hts, ht⟩ := he.source
    exact h.selection he hsteps hsource hts ht (ih hsource)
  | intrinsicForce uri u t => exact absurd he.thunk.1.typed typed_intrinsic
  | force f t hnot ih =>
    obtain ⟨hf, hty⟩ := he.thunk
    rw [valueWith_force hnot]
    apply emits_unlessInert he
    intro ls ls' e' hl hrun
    simp only [Traced.run_bind_ok, typed_ok] at hrun
    obtain ⟨f', ls₁, hr₁, he', rfl⟩ := hrun
    obtain ⟨hext, htype⟩ := ih hf hl hr₁
    exact ⟨hext, (hty ▸ htype).force he'⟩
  | intrinsicCall uri u a t ihes iha =>
    have ha := he.argument
    have hes : ∀ es u, a = .tuple es u →
        ∀ e ∈ es, c.Emits Δ (pre.map Step.name) (c.valueWith resolve e) e.ty := by
      rintro es u rfl e hmem
      exact ihes es u rfl e hmem (ha.element hmem)
    rw [valueWith_intrinsic]
    apply emits_unlessInert he
    cases ho : Intrinsic.ofUri? uri with
    | none =>
      -- an unknown intrinsic is refused
      intro ls ls' e' _ hrun
      simp only [Slice.intrinsicCall, ho] at hrun
      exact absurd hrun misfit_ok
    | some op =>
      exact emits_intrinsicCall ho (he.operation ho)
        (fun ts hts => h.argumentParts hsteps ha hts hes (iha ha)) (iha ha)
  | call f a t hnot ihf iha =>
    obtain ⟨hf, q, hty, -⟩ := he.callee fun uri u heq => by simp [heq, isIntrinsic] at hnot
    rw [valueWith_call hnot]
    exact emits_unlessInert he (emits_call (hty ▸ ihf hf) (iha he.argument))

theorem resolves (h : c.Furnished p Δ) (depth : Nat) : c.Resolves Δ (c.resolve depth) := by
  induction depth with
  | zero =>
    intro pre step post _ ls ls' e _ hl hrun
    exact absurd hrun misfit_ok
  | succ depth ih =>
    intro pre step post hsteps ls ls' e hnone hl hrun
    simp only [Slice.resolve, Slice.bind, Traced.run_bind_ok, Traced.run_lift_ok,
      Traced.run_modify_ok, Traced.run_pure_ok] at hrun
    obtain ⟨e₁, ls₁, hr₁, _, _, ⟨-, rfl⟩, _, _, rfl, heq⟩ := hrun
    obtain ⟨rfl, rfl⟩ := Prod.mk.inj heq
    have hmem : step ∈ c.view.steps := by simp [hsteps]
    obtain ⟨hext, htype⟩ := h.valueWith ih hsteps (h.view.value hsteps).1 hl hr₁
    obtain ⟨ds, rfl, hds⟩ := hext.grown
    have hnew : step.name ∉ (scope Δ (ls ++ ds)).map Prod.fst := by
      rw [mem_scope, List.map_append, List.mem_append, not_or, not_or]
      refine ⟨⟨lookup_eq_none.mp hnone, fun hx => ?_⟩, h.fresh step hmem⟩
      have hnodup := (List.nodup_cons.mp h.chain_nodup).2
      rw [hsteps, List.map_append, List.nodup_append] at hnodup
      exact hnodup.2.2 _ (hds _ hx) _ (by simp) rfl
    obtain ⟨hemitted, href⟩ := hext.emitted.bind hmem hnew htype
    refine ⟨⟨hemitted, ds ++ [(step.name, e₁)], by simp, fun x hx => ?_⟩, href⟩
    rw [List.map_append, List.mem_append] at hx ⊢
    exact hx.imp (hds x) fun hx => by simpa using hx

theorem value (h : c.Furnished p Δ)
    (he : e.Scoped (scope [(c.view.param, p)] (bindings c.view.steps))) :
    c.Emits Δ (c.view.steps.map Step.name) (c.value e) e.ty :=
  h.valueWith (h.resolves _) (List.append_nil _).symm he

end Furnished

end Slice

end TwoTier.Round

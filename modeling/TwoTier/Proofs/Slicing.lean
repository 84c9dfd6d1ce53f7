import TwoTier.Proofs.Locality
import TwoTier.Proofs.Lowering
import TwoTier.Proofs.Steps

/-! # Slices

What slicing puts into a slot has, whenever the slot's parameter is as it should be, the values of
the round: each local of the slot that of the step it comes from, and the sliced expression that of
the original.
-/

namespace TwoTier.Round

open Expr

/-- A slot that is run: with placed or bare values, those of the participant `index` if bare, on
variables that satisfy `start`. -/
structure Slot where
  setting : Setting
  mode : Mode
  index : Nat
  cells : List Cell
  start : Env → Prop

namespace Slot

variable {k : Slot} {ls ls' ds : List (String × Expr)} {e e' : Expr} {t : Ty}
    {v : Value} {x : String}

abbrev Holds (k : Slot) : Ty → Value → Value → Prop :=
  k.mode.Holds k.setting k.index

def Good (k : Slot) (ls : List (String × Expr)) (env : Env) : Prop :=
  k.start env ∧ ∀ c ∈ k.cells, c.name ∈ ls.map Prod.fst → ∃ w, env.lookup c.name = some w ∧
    k.Holds c.ty c.value w

/-- Behind the locals the expression has what the slot has for `v`. -/
structure Shows (k : Slot) (ls : List (String × Expr)) (e : Expr) (t : Ty) (v : Value) : Prop where
  ty : e.ty = k.mode.type t
  admits : k.mode.admits t = true
  runs : ∀ env, k.Good ls env → ∃ w, Runs k.setting (.expr env e) w ∧ k.Holds t v w

/-- Each local shows the value of a cell of its name. -/
inductive Locals (k : Slot) : List (String × Expr) → Prop where

  | nil : Locals k []

  | snoc {ls : List (String × Expr)} {c : Cell} {e : Expr} : Locals k ls → c ∈ k.cells →
      k.Shows ls e c.ty c.value → Locals k (ls ++ [(c.name, e)])

/-- Slicing by `m` adds locals and results in an expression that shows `v`. -/
def Yields (k : Slot) (m : SliceM Expr) (t : Ty) (v : Value) : Prop :=
  ∀ ⦃ls ls' : List (String × Expr)⦄ ⦃e : Expr⦄, k.Locals ls → (m.run ls).result = .ok (e, ls') →
    (∃ ds, ls' = ls ++ ds) ∧ k.Locals ls' ∧ k.Shows ls' e t v

theorem Good.of_append {env : Env} (h : k.Good (ls ++ ds) env) : k.Good ls env :=
  ⟨h.1, fun c hc hx => h.2 c hc (by simp only [List.map_append, List.mem_append]; exact .inl hx)⟩

theorem Shows.append (h : k.Shows ls e t v) : k.Shows (ls ++ ds) e t v :=
  ⟨h.ty, h.admits, fun env hg => h.runs env hg.of_append⟩

theorem Shows.of_nil (h : k.Shows [] e t v) : k.Shows ls e t v :=
  ⟨h.ty, h.admits, fun env hg => h.runs env ⟨hg.1, by simp⟩⟩

theorem shows_ref {c : Cell} (hc : c ∈ k.cells) (hx : c.name ∈ ls.map Prod.fst)
    (ht : t = k.mode.type c.ty) (hadm : k.mode.admits c.ty = true) :
    k.Shows ls (.ref c.name t) c.ty c.value := by
  refine ⟨ht, hadm, fun env hg => ?_⟩
  obtain ⟨w, hw, hvw⟩ := hg.2 c hc hx
  exact ⟨w, runs_ref.mpr hw, hvw⟩

theorem locals_bind {c : Cell} (hl : k.Locals ls) (hc : c ∈ k.cells)
    (hs : k.Shows ls e c.ty c.value) : k.Locals (ls ++ [(c.name, e)]) ∧
    k.Shows (ls ++ [(c.name, e)]) (.ref c.name e.ty) c.ty c.value :=
  ⟨.snoc hl hc hs, shows_ref hc (by simp) hs.ty hs.admits⟩

theorem locals_of_forall (h : ∀ l ∈ ls, ∃ c ∈ k.cells, c.name = l.1 ∧ k.Shows [] l.2 c.ty c.value) :
    k.Locals ls := by
  induction ls using List.reverseRecOn with
  | nil => exact .nil
  | append_singleton ls l ih =>
    obtain ⟨x, e⟩ := l
    obtain ⟨c, hc, rfl, hs⟩ := h (x, e) (by simp)
    exact .snoc (ih fun l hl => h l (by simp [hl])) hc hs.of_nil

theorem Locals.lookup (h : k.Locals ls) (hx : ls.lookup x = some e) :
    ∃ c ∈ k.cells, c.name = x ∧ e.ty = k.mode.type c.ty ∧ k.mode.admits c.ty = true := by
  induction h with
  | nil => simp at hx
  | @snoc ls c e' _ hc hs ih =>
    rw [List.lookup_append] at hx
    cases hl : ls.lookup x with
    | some u =>
      rw [hl, Option.some_or] at hx
      exact ih (hl.trans hx)
    | none =>
      rw [hl, Option.none_or, List.lookup_cons] at hx
      split at hx
      · rename_i heq
        cases hx
        exact ⟨c, hc, (beq_iff_eq.mp heq).symm, hs.ty, hs.admits⟩
      · simp at hx

theorem Locals.binds {env : Env} (h : k.Locals ls) (hstart : k.start env)
    (hkeep : ∀ env c w, c ∈ k.cells → k.start env → k.start ((c.name, w) :: env))
    (hcells : (k.cells.map Cell.name).Nodup) :
    ∃ env', Binds k.setting env ls env' ∧ k.Good ls env' := by
  induction h with
  | nil => exact ⟨env, rfl, hstart, by simp⟩
  | @snoc ls c e _ hc hs ih =>
    obtain ⟨env', hb, hg⟩ := ih
    obtain ⟨w, hw, hvw⟩ := hs.runs env' hg
    refine ⟨(c.name, w) :: env', binds_append.mpr ⟨env', hb, w, hw, rfl⟩, hkeep _ c w hc hg.1, ?_⟩
    intro c' hc' hx
    by_cases hname : c'.name = c.name
    · obtain rfl := List.inj_on_of_nodup_map hcells hc' hc hname
      exact ⟨w, by simp, hvw⟩
    · have hne : (c'.name == c.name) = false := by simpa using hname
      simp only [List.lookup_cons, hne]
      refine hg.2 c' hc' ?_
      simpa [hname] using hx

end Slot

namespace Slice

variable {c : Slice} {ls ls' : List (String × Expr)} {e : Expr}

theorem fail_ok {α : Type} {error : CompileError} {r : α × List (String × Expr)} :
    ¬ ((fail error : SliceM α).run ls).result = .ok r := by
  simp [fail, StateT.run_lift]

theorem misfit_ok {α : Type} {m : Misfit} {r : α × List (String × Expr)} :
    ¬ ((c.misfit m : SliceM α).run ls).result = .ok r :=
  fail_ok

theorem leak_ok {α : Type} {reason : Leak} {r : α × List (String × Expr)} :
    ¬ ((c.leak e reason : SliceM α).run ls).result = .ok r :=
  fail_ok

theorem typed_ok {x : Except TypeFault Expr} :
    ((c.typed x).run ls).result = .ok (e, ls') ↔ x = .ok e ∧ ls = ls' := by
  unfold typed
  split
  · simp
  · simp [misfit_ok]

theorem unlessInert_ok {otherwise : SliceM Expr} {r : Expr × List (String × Expr)}
    (h : ((unlessInert e otherwise).run ls).result = .ok r) :
    (e.isClosed = true ∧ e.tier = .ok .unplaced ∧ r = (e, ls)) ∨
    (otherwise.run ls).result = .ok r := by
  unfold unlessInert at h
  split at h
  · rename_i hc
    split at h
    · exact absurd h fail_ok
    · rename_i ht
      exact .inl ⟨hc, ht, (Traced.run_pure_ok.mp h).symm⟩
    · exact .inr h
  · exact .inr h

theorem whole_ok {r : Expr × List (String × Expr)} (h : ((c.whole e).run ls).result = .ok r) :
    e.isClosed = true ∧ c.mode.Keeps e.ty ∧ r = (e, ls) := by
  unfold whole at h
  split at h
  · exact absurd h leak_ok
  · rename_i hfree
    split at h
    · exact absurd h leak_ok
    · rename_i hm
      refine ⟨by simp [isClosed, hfree], fun hl => ?_, (Traced.run_pure_ok.mp h).symm⟩
      simpa [hl] using hm

section Equations

variable {resolve : Step → SliceM Expr} {uri : String} {f a : Expr} {t u : Ty}

theorem valuesWith_eq {es : List Expr} :
    c.valuesWith resolve es = es.map (c.valueWith resolve) := by
  induction es with
  | nil => rfl
  | cons e es ih => simp [valuesWith, ih]

theorem valueWith_force (hf : f.isIntrinsic = false) : c.valueWith resolve (.force f t) =
    unlessInert (.force f t) (do c.typed (← c.valueWith resolve f).mkForce) := by
  cases f <;> first | rfl | cases hf

theorem valueWith_call (hf : f.isIntrinsic = false) : c.valueWith resolve (.call f a t) =
    unlessInert (.call f a t) (do
      let function ← c.valueWith resolve f
      let argument ← c.valueWith resolve a
      c.typed (function.mkCall argument)) := by
  cases f <;> first | rfl | cases hf

def fields (c : Slice) (a : Expr) (argument : SliceM Expr) : List (SliceM Expr) :=
  match a.ty with
  | .tuple ts => (List.range ts.length).map fun i => c.selection (a.field i) a i argument
  | _ => [argument]

/-- The parts of any argument; a tuple literal has its elements. -/
def argumentParts (c : Slice) (resolve : Step → SliceM Expr) (a : Expr) : List (SliceM Expr) :=
  match a with
  | .tuple es _ => c.valuesWith resolve es
  | a => c.fields a (c.valueWith resolve a)

theorem argumentParts_cases {P : List (SliceM Expr) → Prop}
    (elements : ∀ es u, a = .tuple es u → P (c.valuesWith resolve es))
    (selected : P (c.fields a (c.valueWith resolve a))) : P (c.argumentParts resolve a) := by
  unfold argumentParts
  split
  · exact elements _ _ rfl
  · exact selected

theorem valueWith_intrinsic : c.valueWith resolve (.call (.intrinsic uri u) a t) =
    unlessInert (.call (.intrinsic uri u) a t) (c.intrinsicCall (.call (.intrinsic uri u) a t) uri
      (c.argumentParts resolve a) (c.valueWith resolve a)) := by
  cases a <;> rfl

end Equations

theorem exists_of_isIntrinsic {f : Expr} (h : f.isIntrinsic = true) :
    ∃ uri u, f = .intrinsic uri u := by
  cases f <;> first | exact ⟨_, _, rfl⟩ | cases h

/-- Induction on an expression by the cases of slicing. An intrinsic that is called on a tuple
literal is sliced with the elements of the literal, so these are at hand then. -/
@[elab_as_elim]
theorem slicing_induct {motive : Expr → Prop}
    (ref : ∀ x t, motive (.ref x t)) (lit : ∀ a t, motive (.lit a t))
    (builtin : ∀ b t, motive (.builtin b t)) (lambda : ∀ x e t, motive (.lambda x e t))
    (block : ∀ ls r t, motive (.block ls r t)) (intrinsic : ∀ uri t, motive (.intrinsic uri t))
    (tuple : ∀ es t, (∀ e ∈ es, motive e) → motive (.tuple es t))
    (select : ∀ e i t, motive e → motive (.select e i t))
    (intrinsicForce : ∀ uri u t, motive (.force (.intrinsic uri u) t))
    (force : ∀ f t, f.isIntrinsic = false → motive f → motive (.force f t))
    (intrinsicCall : ∀ uri u a t, (∀ es w, a = .tuple es w → ∀ e ∈ es, motive e) → motive a →
      motive (.call (.intrinsic uri u) a t))
    (call : ∀ f a t, f.isIntrinsic = false → motive f → motive a → motive (.call f a t))
    (e : Expr) : motive e := by
  suffices motive e ∧ ∀ es w, e = .tuple es w → ∀ e' ∈ es, motive e' from this.1
  induction e with
  | ref x t => exact ⟨ref x t, by simp⟩
  | lit a t => exact ⟨lit a t, by simp⟩
  | builtin b t => exact ⟨builtin b t, by simp⟩
  | lambda x e t => exact ⟨lambda x e t, by simp⟩
  | block ls r t => exact ⟨block ls r t, by simp⟩
  | intrinsic uri t => exact ⟨intrinsic uri t, by simp⟩
  | tuple es t ih =>
    have hes : ∀ e ∈ es, motive e := fun e he => (ih e he).1
    refine ⟨tuple es t hes, ?_⟩
    rintro es' w ⟨⟩
    exact hes
  | select e i t ih => exact ⟨select e i t ih.1, by simp⟩
  | force f t ih =>
    refine ⟨?_, by simp⟩
    cases hf : f.isIntrinsic with
    | true =>
      obtain ⟨uri, u, rfl⟩ := exists_of_isIntrinsic hf
      exact intrinsicForce uri u t
    | false => exact force f t hf ih.1
  | call f a t ihf iha =>
    refine ⟨?_, by simp⟩
    cases hf : f.isIntrinsic with
    | true =>
      obtain ⟨uri, u, rfl⟩ := exists_of_isIntrinsic hf
      exact intrinsicCall uri u a t iha.2 iha.1
    | false => exact call f a t hf ihf.1 iha.1

end Slice

theorem isPlaced_of_tier {e : Expr} (h : e.tier = .ok .unplaced) : e.ty.isPlaced = false := by
  obtain ⟨tree, htree, ht⟩ := except_map_ok.mp h
  exact not_isPlaced_of_classify htree ht e e.mem_subterms_self

namespace Slot

variable {k : Slot} {Z : Prop} {C : List Cell} {ls ls' : List (String × Expr)} {e e' f a : Expr}
  {p t u : Ty} {v g b : Value} {n : Nat}

theorem Shows.of_keeps (hk : k.mode.Keeps e.ty)
    (h : ∀ env, k.Good ls env → ∃ w, Runs k.setting (.expr env e) w ∧ Similar k.setting e.ty v w) :
    k.Shows ls e e.ty v :=
  ⟨hk.type.symm, hk.admits, by simpa only [hk.holds] using h⟩

theorem yields_unlessInert {m : SliceM Expr} (hm : Means k.setting Z C e v)
    (h : k.Yields m e.ty v) :
    k.Yields (Slice.unlessInert e m) e.ty v := by
  intro ls ls' e' hl hr
  rcases Slice.unlessInert_ok hr with ⟨hc, ht, heq⟩ | hr
  · obtain ⟨rfl, rfl⟩ := Prod.mk.inj heq
    exact ⟨⟨[], by simp⟩, hl, .of_keeps (fun _ => isPlaced_of_tier ht) fun env _ =>
      hm.runs_of_closed (isClosed_iff.mp hc) env⟩
  · exact h hl hr

theorem yields_sequence {ms : List (SliceM Expr)} {tvs : List (Ty × Value)} {es : List Expr}
    (h : List.Forall₂ (fun m tv => k.Yields m tv.1 tv.2) ms tvs) (hl : k.Locals ls)
    (hr : ((Slice.sequence ms).run ls).result = .ok (es, ls')) : (∃ ds, ls' = ls ++ ds) ∧
    k.Locals ls' ∧ List.Forall₂ (fun e tv => k.Shows ls' e tv.1 tv.2) es tvs := by
  induction h generalizing ls es with
  | nil =>
    obtain ⟨rfl, rfl⟩ := Prod.mk.inj (Traced.run_pure_ok.mp hr)
    exact ⟨⟨[], by simp⟩, hl, .nil⟩
  | cons hm _ ih =>
    simp only [Slice.sequence, Traced.run_bind_ok] at hr
    obtain ⟨e, ls₁, hr₁, es', ls₂, hr₂, hr₃⟩ := hr
    obtain ⟨rfl, rfl⟩ := Prod.mk.inj (Traced.run_pure_ok.mp hr₃)
    obtain ⟨⟨ds, rfl⟩, hl₁, hs⟩ := hm hl hr₁
    obtain ⟨⟨ds', rfl⟩, hl₂, hss⟩ := ih hl₁ hr₂
    exact ⟨⟨ds ++ ds', by simp⟩, hl₂, .cons hs.append hss⟩

theorem shows_tuple {es : List Expr} {tvs : List (Ty × Value)}
    (h : List.Forall₂ (fun e tv => k.Shows ls e tv.1 tv.2) es tvs) :
    k.Shows ls (mkTuple es) (.tuple (tvs.map Prod.fst)) (.tuple (tvs.map Prod.snd)) := by
  refine ⟨?_, Mode.admits_tuple.mpr ?_, fun env hg => ?_⟩
  · rw [Mode.type_tuple]
    refine congrArg Ty.tuple ?_
    induction h with
    | nil => rfl
    | cons hs _ ih => simp only [List.map_cons, hs.ty, ih]
  · induction h with
    | nil => simp
    | cons hs _ ih =>
      rw [List.map_cons, List.forall_mem_cons]
      exact ⟨hs.admits, ih⟩
  · obtain ⟨ws, hws, hvw⟩ := exists_each (h.imp fun e tv hs => hs.runs env hg)
    exact ⟨.tuple ws, runs_tuple.mpr ⟨ws, hws, rfl⟩, Mode.holds_tuple.mpr ⟨_, ws, rfl, rfl, hvw⟩⟩

theorem shows_select {ts : List Ty} {vs : List Value} (h : k.Shows ls e (.tuple ts) (.tuple vs))
    (ht : ts[n]? = some t) (hv : vs[n]? = some v) (he : e.mkSelect n = .ok e') :
    k.Shows ls e' t v := by
  obtain ⟨us, u, hus, hu, rfl⟩ := mkSelect_ok.mp he
  rw [h.ty, Mode.type_tuple] at hus
  obtain rfl := Ty.tuple.inj hus
  simp only [List.getElem?_map, ht, Option.map_some, Option.some.injEq] at hu
  refine ⟨hu.symm, Mode.admits_tuple.mp h.admits t (List.mem_of_getElem? ht), fun env hg => ?_⟩
  obtain ⟨w, hw, hvw⟩ := h.runs env hg
  obtain ⟨_, ws, hvs, rfl, heach⟩ := Mode.holds_tuple.mp hvw
  cases hvs
  obtain ⟨w', hw', hvw'⟩ := heach.getElem? ht hv
  exact ⟨w', runs_select.mpr ⟨ws, hw, hw'⟩, hvw'⟩

theorem shows_call (hf : k.Shows ls f (.func p t) g) (ha : k.Shows ls a u b)
    (hacc : p.accepts u = true) (hv : Runs k.setting (.call g (some b)) v)
    (he : f.mkCall a = .ok e') : k.Shows ls e' t v := by
  have hk := Mode.keeps_func hf.admits
  have hku := hk.param.accepts hacc
  obtain ⟨p', t', hft, _, rfl⟩ := mkCall_ok.mp he
  rw [hf.ty, hk.type] at hft
  obtain ⟨rfl, rfl⟩ := Ty.func.inj hft
  refine .of_keeps (e := .call f a t) hk.result fun env hg => ?_
  obtain ⟨g', hg', hgg⟩ := hf.runs env hg
  obtain ⟨b', hb', hbb⟩ := ha.runs env hg
  rw [Holds, hk.holds] at hgg
  rw [Holds, hku.holds, ← similar_of_standsFor hacc] at hbb
  obtain ⟨w, hw, hvw⟩ := (hgg.2.2 b b' hbb).2 v hv
  exact ⟨w, .call hg' hb' hw, hvw⟩

theorem shows_force (hf : k.Shows ls f (.thunk t) g) (hv : Runs k.setting (.call g none) v)
    (he : f.mkForce = .ok e') : k.Shows ls e' t v := by
  have hk := Mode.keeps_thunk hf.admits
  obtain ⟨t', hft, rfl⟩ := mkForce_ok.mp he
  rw [hf.ty, hk.type] at hft
  obtain rfl := Ty.thunk.inj hft
  refine .of_keeps (e := .force f t) (fun hm => hk hm) fun env hg => ?_
  obtain ⟨g', hg', hgg⟩ := hf.runs env hg
  rw [Holds, hk.holds] at hgg
  obtain ⟨w, hw, hvw⟩ := hgg.2.2 v hv
  exact ⟨w, .force hg' hw, hvw⟩

theorem shows_intrinsic {op : Intrinsic} (hmode : k.mode = .placed) (hr : op.resultType u = .ok t)
    (ha : k.Shows ls a u b) (hv : Runs k.setting (.call (.intrinsic op (.func u t)) (some b)) v)
    (he : mkIntrinsicCall op a = .ok e') : k.Shows ls e' t v := by
  have hkeep : ∀ t, k.mode.Keeps t := by simp [Mode.Keeps, hmode]
  have hty : a.ty = u := ha.ty.trans (hkeep u).type
  simp only [mkIntrinsicCall, except_bind_ok, intrinsicType_ok] at he
  obtain ⟨_, ⟨t', ht', rfl⟩, he⟩ := he
  rw [hty, hr] at ht'
  cases ht'
  obtain ⟨p, r, hp, -, rfl⟩ := mkCall_ok.mp he
  obtain ⟨rfl, rfl⟩ := Ty.func.inj hp
  refine .of_keeps (e := .call _ a t) (hkeep t) fun env hg => ?_
  obtain ⟨b', hb', hbb⟩ := ha.runs env hg
  rw [Holds, (hkeep u).holds] at hbb
  obtain ⟨w, hw, hvw⟩ := mimics_intrinsic hr hbb v hv
  exact ⟨w, .call (runs_intrinsic.mpr ⟨op, Intrinsic.ofUri?_uri op, rfl⟩) hb' (hty.symm ▸ hw), hvw⟩

theorem shows_loweredMap {op : LocalOp} (hmode : k.mode = .lowered)
    (ho : op = .map ∨ op = .apply) {q m : Ty} {site : Placement} {bit : Bool}
    {x : Value} (hp : (Ty.func p q).isPlaced = false) (hacc : p.accepts m = true)
    (hf : k.Shows ls f (.func p q) g) (ha : k.Shows ls a (.placed m site bit) x)
    (hv : Runs k.setting (.call (.intrinsic (.within op) u) (some (.tuple [g, x]))) v)
    (he : f.mkCall a = .ok e') :
    k.Shows ls e' (.place q site false) v := by
  have hkeep : k.mode.Keeps (.func p q) := fun _ => hp
  obtain ⟨p', q', hft, -, rfl⟩ := mkCall_ok.mp he
  rw [hf.ty, hkeep.type] at hft
  obtain ⟨rfl, rfl⟩ := Ty.func.inj hft
  refine ⟨by simp [hmode, Mode.type, Ty.place, Ty.lower], by simp [hmode, Mode.admits, Ty.place,
    Ty.isFlat], fun env hg => ?_⟩
  obtain ⟨g', hg', hgg⟩ := hf.runs env hg
  obtain ⟨x', hx', hxx⟩ := ha.runs env hg
  rw [Holds, hkeep.holds] at hgg
  simp only [Holds, hmode, Mode.Holds] at hxx ⊢
  obtain ⟨w, hw, hvw⟩ := lowers_map ho hv hacc hgg hxx
  exact ⟨w, .call hg' hx' hw, hvw⟩

theorem shows_loweredZip {site : Placement} (hmode : k.mode = .lowered) {ts ms : List Ty}
    {us : List Value} (hms : List.Forall₂ (fun t m => t.memberAt? site = some m) ts ms)
    (ha : k.Shows ls a (.tuple ts) (.tuple us))
    (hv : ∀ ws, Each (Lowers k.setting k.index) ts us ws →
      Lowers k.setting k.index (.place (.tuple ms) site false) v (.tuple ws)) :
    k.Shows ls a (.place (.tuple ms) site false) v := by
  refine ⟨?_, by simp [hmode, Mode.admits, Ty.place, Ty.isFlat], fun env hg => ?_⟩
  · rw [ha.ty, Mode.type_tuple, hmode]
    exact congrArg Ty.tuple (lower_of_memberAt? hms)
  · obtain ⟨w, hw, hvw⟩ := ha.runs env hg
    obtain ⟨_, ws, hus, rfl, heach⟩ := Mode.holds_tuple.mp hvw
    cases hus
    simp only [hmode, Mode.Holds, Holds] at heach ⊢
    exact ⟨_, hw, hv ws heach⟩

theorem index_lt {ts ms : List Ty} {us ws : List Value}
    (hi : k.index < k.setting.participants ∨ ts ≠ [])
    (hms : List.Forall₂ (fun t m => t.memberAt? .participants = some m) ts ms)
    (hb : Inhabits k.setting (.tuple ts) (.tuple us))
    (h : Each (Lowers k.setting k.index) ts us ws) :
    k.index < k.setting.participants := by
  refine hi.elim id fun hne => ?_
  cases hms with
  | nil => exact absurd rfl hne
  | cons hm _ =>
    obtain ⟨e, rfl⟩ := memberAt?_eq hm
    obtain ⟨_, _, _, _, rfl, rfl, hw, -⟩ := h
    obtain ⟨_, _, hus, -, hs⟩ := hb
    cases hus
    obtain ⟨_, _, _, _, ⟨⟩, rfl, hx, -⟩ := hs
    exact lt_of_lowers hw hx.left

theorem yields_loweredCall {c : Slice} {op : LocalOp} {parts : List (SliceM Expr)}
    {argument : SliceM Expr} (hmode : k.mode = .lowered)
    (hi : k.index < k.setting.participants ∨ (op = .zipAtClients → u ≠ .tuple []))
    (hr : Intrinsic.resultType (.within op) u = .ok t) (hb : Inhabits k.setting u b)
    (hv : Runs k.setting (.call (.intrinsic (.within op) (.func u t)) (some b)) v)
    (hparts : ∀ ts us, u = .tuple ts → b = .tuple us →
      List.Forall₂ (fun m tv => k.Yields m tv.1 tv.2) parts (ts.zip us))
    (harg : k.Yields argument u b) : k.Yields (c.loweredCall op parts argument) t v := by
  have map : ∀ op, op = .map ∨ op = .apply → Intrinsic.mapResult op u = .ok t →
      Runs k.setting (.call (.intrinsic (.within op) (.func u t)) (some b)) v →
      k.Yields (c.loweredCall op parts argument) t v := by
    intro op ho hr hv ls ls' e hl hrun
    obtain ⟨p, q, m, site, bit, rfl, -, hp, hacc, rfl⟩ := mapResult_ok hr
    obtain ⟨g, x, _, _, rfl, -⟩ := Similar.pair hb
    obtain ⟨m₁, m₂, rfl, hf, hx⟩ : ∃ m₁ m₂, parts = [m₁, m₂] ∧ k.Yields m₁ (.func p q) g ∧
        k.Yields m₂ (.placed m site bit) x := by
      cases hparts _ _ rfl rfl with
      | cons hf h =>
        cases h with
        | cons hx h =>
          cases h
          exact ⟨_, _, rfl, hf, hx⟩
    have hrun : ((do
        let function ← m₁
        let value ← m₂
        c.typed (function.mkCall value) : SliceM Expr).run ls).result = .ok (e, ls') := by
      rcases ho with rfl | rfl <;> exact hrun
    simp only [Traced.run_bind_ok, Slice.typed_ok] at hrun
    obtain ⟨f, ls₁, h₁, a, ls₂, h₂, he, rfl⟩ := hrun
    obtain ⟨⟨ds, rfl⟩, hl₁, hf⟩ := hf hl h₁
    obtain ⟨⟨ds', rfl⟩, hl₂, ha⟩ := hx hl₁ h₂
    exact ⟨⟨ds ++ ds', by simp⟩, hl₂, shows_loweredMap hmode ho hp hacc hf.append ha hv he⟩
  have zip : ∀ op site ts ms us, u = .tuple ts → b = .tuple us →
      List.Forall₂ (fun t m => t.memberAt? site = some m) ts ms →
      t = .place (.tuple ms) site false →
      c.loweredCall op parts argument = (do return mkTuple (← Slice.sequence parts)) →
      (∀ ws, Each (Lowers k.setting k.index) ts us ws →
        Lowers k.setting k.index (.place (.tuple ms) site false) v (.tuple ws)) →
      k.Yields (c.loweredCall op parts argument) t v := by
    rintro op site ts ms us rfl rfl hms rfl hcall hlower ls ls' e hl hrun
    rw [hcall, Traced.run_bind_ok] at hrun
    obtain ⟨es, ls₁, h₁, h₂⟩ := hrun
    obtain ⟨rfl, rfl⟩ := Prod.mk.inj (Traced.run_pure_ok.mp h₂)
    obtain ⟨hds, hl₁, hes⟩ := yields_sequence (hparts ts us rfl rfl) hl h₁
    refine ⟨hds, hl₁, shows_loweredZip hmode hms ?_ hlower⟩
    have hlen := Similar.length_tuple hb
    simpa [List.map_fst_zip, List.map_snd_zip, hlen] using shows_tuple hes
  cases op with
  | map => exact map .map (.inl rfl) hr hv
  | apply => exact map .apply (.inr rfl) hr hv
  | zipAtClients =>
    obtain ⟨ts, ms, rfl, hms, rfl⟩ := zipResult_ok hr
    obtain ⟨us, _, rfl, -⟩ := id hb
    refine zip .zipAtClients _ ts ms us rfl rfl hms rfl rfl fun ws hws => ?_
    exact lowers_zipAtClients hms
      (index_lt (hi.imp_right fun h hts => h rfl (hts ▸ rfl)) hms hb hws) hv hws
  | zipAtServer =>
    obtain ⟨ts, ms, rfl, hms, rfl⟩ := zipResult_ok hr
    obtain ⟨us, _, rfl, -⟩ := id hb
    exact zip .zipAtServer _ ts ms us rfl rfl hms rfl rfl fun ws hws =>
      lowers_zipAtServer hms hv hws
  | valueAtServer =>
    simp only [Intrinsic.resultType] at hr
    split at hr
    · cases hr
    · rename_i hu
      cases hr
      have hkeep : k.mode.Keeps u := fun _ => by simpa using hu
      obtain rfl := runs_valueAtServer.mp hv
      intro ls ls' e hl hrun
      obtain ⟨hds, hl', hs⟩ := harg hl hrun
      refine ⟨hds, hl', ?_, ?_, fun env hg => ?_⟩
      · rw [hs.ty, hkeep.type]
        simp [hmode, Mode.type, Ty.atCoordinator, Ty.place, Ty.lower]
      · simp [hmode, Mode.admits, Ty.atCoordinator, Ty.place, Ty.isFlat]
      · obtain ⟨w, hw, hvw⟩ := hs.runs env hg
        rw [Holds, hkeep.holds] at hvw
        simp only [Holds, hmode, Mode.Holds]
        exact ⟨w, hw, b, rfl, hvw⟩

theorem yields_intrinsicCall {c : Slice} {uri : String} {op : Intrinsic}
    {parts : List (SliceM Expr)} {argument : SliceM Expr} (hmode : c.mode = k.mode)
    (hi : k.mode = .lowered → k.index < k.setting.participants ∨ Z)
    (ho : Intrinsic.ofUri? uri = some op) (hr : op.resultType u = .ok t)
    (hz : Z → op = .within .zipAtClients → u ≠ .tuple []) (hb : Inhabits k.setting u b)
    (hv : Runs k.setting (.call (.intrinsic op (.func u t)) (some b)) v)
    (hparts : ∀ ts us, u = .tuple ts → b = .tuple us →
      List.Forall₂ (fun m tv => k.Yields m tv.1 tv.2) parts (ts.zip us))
    (harg : k.Yields argument u b) : k.Yields (c.intrinsicCall e uri parts argument) t v := by
  intro ls ls' e' hl hrun
  cases op with
  | crossing op =>
    simp only [Slice.intrinsicCall, ho] at hrun
    exact absurd hrun Slice.leak_ok
  | within op =>
    simp only [Slice.intrinsicCall, ho] at hrun
    split at hrun
    · rename_i hm
      simp only [Traced.run_bind_ok, Slice.typed_ok] at hrun
      obtain ⟨a, ls₁, h₁, he, rfl⟩ := hrun
      obtain ⟨hds, hl₁, ha⟩ := harg hl h₁
      exact ⟨hds, hl₁, shows_intrinsic (hmode ▸ hm) hr ha hv he⟩
    · rename_i hm
      have hm := hmode ▸ hm
      exact yields_loweredCall hm ((hi hm).imp_right fun hZ hop => hz hZ (hop ▸ rfl)) hr hb hv
        hparts harg hl hrun

end Slot

/-- The slot sees the round through the slice: what stands for the round's inputs and for the
results of steps shows their values. -/
structure Slot.Sees (k : Slot) (Z : Prop) (c : Slice) (param : Cell) : Prop where
  mode : c.mode = k.mode
  index : k.mode = .lowered → k.index < k.setting.participants ∨ Z
  param_name : param.name = c.view.param
  steps : List.Forall₂ (Step.Denotes k.setting Z (param :: k.cells)) c.view.steps k.cells
  nodup : ((param :: k.cells).map Cell.name).Nodup
  select : ∀ {n ts vs t v e}, param.ty = .tuple ts → param.value = .tuple vs →
    ts[n]? = some t → vs[n]? = some v →
    (if n = 0 then c.state else c.data) = some e → k.Shows [] e t v
  inputs : ∀ x e, c.inputs.lookup x = some e → ∃ cell ∈ k.cells, cell.name = x ∧
    k.Shows [] e cell.ty cell.value

namespace Slot.Sees

variable {k : Slot} {Z : Prop} {c : Slice} {param : Cell} {resolve : Step → SliceM Expr}
    {e : Expr} {v : Value}

def Resolves (k : Slot) (Z : Prop) (c : Slice) (param : Cell)
    (resolve : Step → SliceM Expr) : Prop :=
  ∀ step cell, step ∈ c.view.steps → cell ∈ k.cells →
    step.Denotes k.setting Z (param :: k.cells) cell →
    k.Yields (resolve step) cell.ty cell.value

theorem step? (h : k.Sees Z c param) {x : String} {step : Step} (hs : c.view.step? x = some step) :
    step ∈ c.view.steps ∧ ∃ cell ∈ k.cells, cell.name = x ∧
    step.Denotes k.setting Z (param :: k.cells) cell := by
  have hmem := List.mem_of_find?_eq_some hs
  have hname := List.find?_some hs
  obtain ⟨cell, hc, hd⟩ := forall₂_mem h.steps hmem
  exact ⟨hmem, cell, hc, hd.name ▸ by simpa using hname, hd⟩

theorem cell_eq (h : k.Sees Z c param) {a b : Cell} (ha : a ∈ param :: k.cells)
    (hb : b ∈ param :: k.cells) (hname : a.name = b.name) : a = b :=
  List.inj_on_of_nodup_map h.nodup ha hb hname

theorem reference (h : k.Sees Z c param) (hres : Resolves k Z c param resolve) {cell : Cell}
    (hc : cell ∈ param :: k.cells) :
    k.Yields (c.reference resolve e cell.name) cell.ty cell.value := by
  intro ls ls' e' hl hrun
  unfold Slice.reference at hrun
  split at hrun
  · rename_i input hin
    obtain ⟨rfl, rfl⟩ := Prod.mk.inj (Traced.run_pure_ok.mp hrun)
    obtain ⟨cell', hc', hname, hs⟩ := h.inputs _ _ hin
    obtain rfl := h.cell_eq (List.mem_cons_of_mem _ hc') hc hname
    exact ⟨⟨[], by simp⟩, hl, hs.of_nil⟩
  · simp only [Traced.run_bind_ok, Traced.run_get_ok] at hrun
    obtain ⟨_, _, ⟨rfl, rfl⟩, hrun⟩ := hrun
    split at hrun
    · rename_i e₁ hlook
      obtain ⟨rfl, rfl⟩ := Prod.mk.inj (Traced.run_pure_ok.mp hrun)
      obtain ⟨cell', hc', hname, hty, hadm⟩ := hl.lookup hlook
      obtain rfl := h.cell_eq (List.mem_cons_of_mem _ hc') hc hname
      have hmem : cell'.name ∈ ls.map Prod.fst := by
        obtain ⟨l₁, l₂, rfl, -⟩ := List.lookup_eq_some_iff.mp hlook
        simp
      exact ⟨⟨[], by simp⟩, hl, Slot.shows_ref hc' hmem hty hadm⟩
    · split at hrun
      · exact absurd hrun Slice.misfit_ok
      · split at hrun
        · exact absurd hrun Slice.leak_ok
        · rename_i step hstep
          split at hrun
          · exact absurd hrun Slice.misfit_ok
          · obtain ⟨hmem, cell', hc', hname, hd⟩ := h.step? hstep
            obtain rfl := h.cell_eq (List.mem_cons_of_mem _ hc') hc hname
            exact hres step cell' hmem hc' hd hl hrun

theorem selection (h : k.Sees Z c param) {node source : Expr}
    {n : Nat} {inside : SliceM Expr} {ts : List Ty} {vs : List Value}
    (hnode : Means k.setting Z (param :: k.cells) node v) (hts : source.ty = .tuple ts)
    (ht : ts[n]? = some node.ty) (hsource : Means k.setting Z (param :: k.cells) source (.tuple vs))
    (hv : vs[n]? = some v) (hin : k.Yields inside (.tuple ts) (.tuple vs)) :
    k.Yields (c.selection node source n inside) node.ty v := by
  have other : k.Yields (do c.typed ((← inside).mkSelect n)) node.ty v := by
    intro ls ls' e' hl hrun
    simp only [Traced.run_bind_ok, Slice.typed_ok] at hrun
    obtain ⟨e₁, ls₁, h₁, he, rfl⟩ := hrun
    obtain ⟨hds, hl₁, hs⟩ := hin hl h₁
    exact ⟨hds, hl₁, Slot.shows_select hs ht hv he⟩
  refine Slot.yields_unlessInert hnode ?_
  split
  · rename_i x u
    split
    · rename_i hx
      have hparam : param.ty = .tuple ts ∧ param.value = .tuple vs := by
        obtain ⟨cell, hc, rfl, rfl, hval⟩ := hsource.cell
        obtain rfl := h.cell_eq hc (by simp) (hx.trans h.param_name.symm)
        exact ⟨hts, hval⟩
      have select : ∀ m : Option Expr, (if n = 0 then c.state else c.data) = m → ∀ misfit,
          k.Yields (m.elim (c.misfit misfit) pure) node.ty v := by
        intro m hm misfit ls ls' e' hl hrun
        cases m with
        | none => exact absurd hrun Slice.misfit_ok
        | some e =>
          obtain ⟨rfl, rfl⟩ := Prod.mk.inj (Traced.run_pure_ok.mp hrun)
          exact ⟨⟨[], by simp⟩, hl, (h.select hparam.1 hparam.2 ht hv hm).of_nil⟩
      split
      · exact select _ rfl _
      · exact select _ (if_neg (by assumption)) _
    · exact other
  · exact other

theorem fields (h : k.Sees Z c param) {a : Expr} {ts : List Ty} {us : List Value}
    {argument : SliceM Expr} (ha : Means k.setting Z (param :: k.cells) a (.tuple us))
    (hts : a.ty = .tuple ts) (harg : k.Yields argument (.tuple ts) (.tuple us)) :
    List.Forall₂ (fun m tv => k.Yields m tv.1 tv.2) (c.fields a argument) (ts.zip us) := by
  have hlen : ts.length = us.length := Similar.length_tuple (hts ▸ ha.inhabits)
  rw [Slice.fields, hts, List.forall₂_iff_get]
  refine ⟨by simp [hlen], fun n hn hn' => ?_⟩
  simp only [List.length_map, List.length_range] at hn
  have hu : n < us.length := hlen ▸ hn
  have hty : (a.field n).ty = ts[n] := by
    simp [Expr.field, hts, Ty.elementOrEmpty, Ty.elements?, List.getD_eq_getElem?_getD, hn]
  have hnode : Means k.setting Z (param :: k.cells) (a.field n) us[n] :=
    .select hts (List.getElem?_eq_getElem hn |>.trans (congrArg some hty.symm)) ha
      (List.getElem?_eq_getElem hu)
  have := h.selection hnode hts (List.getElem?_eq_getElem hn |>.trans (congrArg some hty.symm)) ha
    (List.getElem?_eq_getElem hu) harg
  rw [hty] at this
  simpa using this

/-- Slicing an expression yields what it means. By induction on how it means that; the elements of a
tuple literal are also needed one by one, where it is the argument of an intrinsic. -/
theorem valueWith (h : k.Sees Z c param) (hres : Resolves k Z c param resolve)
    (hm : Means k.setting Z (param :: k.cells) e v) : k.Yields (c.valueWith resolve e) e.ty v := by
  suffices k.Yields (c.valueWith resolve e) e.ty v ∧ ∀ es u, e = .tuple es u → ∀ vs, v = .tuple vs →
      List.Forall₂ (fun m tv => k.Yields m tv.1 tv.2) (c.valuesWith resolve es)
      ((es.map Expr.ty).zip vs) from this.1
  have pure_yields : ∀ {e : Expr} {v : Value}, Means k.setting Z (param :: k.cells) e v →
      (∀ n, ¬ e.Refers n) → e.ty.isPlaced = false → k.Yields (pure e) e.ty v := by
    intro e v hm hc hp ls ls' e' hl hrun
    obtain ⟨rfl, rfl⟩ := Prod.mk.inj (Traced.run_pure_ok.mp hrun)
    exact ⟨⟨[], by simp⟩, hl, .of_keeps (fun _ => hp) fun env _ => hm.runs_of_closed hc env⟩
  induction hm with
  | @ref cell hc hv =>
    exact ⟨Slot.yields_unlessInert (.ref (Z := Z) hc hv) (h.reference hres hc), by simp⟩
  | @lit a =>
    exact ⟨pure_yields .lit (by simp) (by cases a <;> rfl), by simp⟩
  | builtin ht =>
    have hp := Ty.isPlaced_of_isNumeric ht
    exact ⟨pure_yields (.builtin ht) (by simp) (Ty.isPlaced_func.mpr ⟨Ty.isPlaced_paramType hp,
      hp⟩), by simp⟩
  | @whole e v hw ht hv hrun =>
    have hm : Means k.setting Z (param :: k.cells) e v := .whole hw ht hv hrun
    have hwhole : k.Yields (c.whole e) e.ty v := by
      intro ls ls' e' hl hr
      obtain ⟨hc, hkeep, heq⟩ := Slice.whole_ok hr
      obtain ⟨rfl, rfl⟩ := Prod.mk.inj heq
      exact ⟨⟨[], by simp⟩, hl,
        .of_keeps (h.mode ▸ hkeep) fun env _ => hrun (isClosed_iff.mp hc) env⟩
    cases e <;> cases hw <;> exact ⟨Slot.yields_unlessInert hm hwhole, by simp⟩
  | @tuple es vs hl hes ih =>
    have hparts : List.Forall₂ (fun m tv => k.Yields m tv.1 tv.2) (c.valuesWith resolve es)
        ((es.map Expr.ty).zip vs) := by
      rw [Slice.valuesWith_eq, List.forall₂_iff_get]
      refine ⟨by simp [hl], fun n hn hn' => ?_⟩
      simp only [List.length_map] at hn
      have hp : (es[n], vs[n]) ∈ es.zip vs := List.mem_of_getElem? (i := n) (by simp [hn, hl ▸ hn])
      simpa using (ih _ hp).1
    refine ⟨Slot.yields_unlessInert (.tuple hl hes) ?_, ?_⟩
    · intro ls ls' e' hl' hrun
      rw [Traced.run_bind_ok] at hrun
      obtain ⟨es', ls₁, h₁, h₂⟩ := hrun
      obtain ⟨rfl, rfl⟩ := Prod.mk.inj (Traced.run_pure_ok.mp h₂)
      obtain ⟨hds, hl₁, hs⟩ := Slot.yields_sequence hparts hl' h₁
      refine ⟨hds, hl₁, ?_⟩
      simpa [List.map_fst_zip, List.map_snd_zip, hl] using Slot.shows_tuple hs
    · rintro es' u heq vs' hvs
      cases heq
      cases hvs
      exact hparts
  | select hts ht he hv ih =>
    refine ⟨h.selection (.select hts ht he hv) hts ht he hv ?_, by simp⟩
    rw [← hts]
    exact ih.1
  | @intrinsic uri op a t b v ho hr hz ha hv ih =>
    refine ⟨?_, by simp⟩
    rw [Slice.valueWith_intrinsic]
    refine Slot.yields_unlessInert (.intrinsic ho hr hz ha hv) ?_
    refine Slot.yields_intrinsicCall h.mode h.index ho hr hz ha.inhabits hv
      (fun ts us hts hus => ?_) ih.1
    subst hus
    refine Slice.argumentParts_cases (P := fun ms => List.Forall₂ _ ms _) (fun es u heq => ?_)
      (h.fields ha hts (hts ▸ ih.1))
    subst heq
    obtain ⟨-, hty⟩ := typed_tuple.mp ha.typed
    rw [ty_tuple, hty] at hts
    rw [← Ty.tuple.inj hts]
    exact ih.2 es u rfl us rfl
  | @call f a p t g b v hf hacc hmf hma hv ihf iha =>
    refine ⟨?_, by simp⟩
    have hnot : f.isIntrinsic = false := by
      cases f <;> first | rfl | exact absurd hmf.typed typed_intrinsic
    rw [Slice.valueWith_call hnot]
    refine Slot.yields_unlessInert (.call hf hacc hmf hma hv) ?_
    intro ls ls' e' hl hrun
    simp only [Traced.run_bind_ok, Slice.typed_ok] at hrun
    obtain ⟨f', ls₁, h₁, a', ls₂, h₂, he, rfl⟩ := hrun
    obtain ⟨⟨ds, rfl⟩, hl₁, hsf⟩ := ihf.1 hl h₁
    obtain ⟨⟨ds', rfl⟩, hl₂, hsa⟩ := iha.1 hl₁ h₂
    rw [hf] at hsf
    exact ⟨⟨ds ++ ds', by simp⟩, hl₂, Slot.shows_call hsf.append hsa hacc hv he⟩
  | @force f t g v hf hmf hv ih =>
    refine ⟨?_, by simp⟩
    have hnot : f.isIntrinsic = false := by
      cases f <;> first | rfl | exact absurd hmf.typed typed_intrinsic
    rw [Slice.valueWith_force hnot]
    refine Slot.yields_unlessInert (.force hf hmf hv) ?_
    intro ls ls' e' hl hrun
    simp only [Traced.run_bind_ok, Slice.typed_ok] at hrun
    obtain ⟨f', ls₁, h₁, he, rfl⟩ := hrun
    obtain ⟨hds, hl₁, hs⟩ := ih.1 hl h₁
    rw [hf] at hs
    exact ⟨hds, hl₁, Slot.shows_force hs hv he⟩

theorem resolves (h : k.Sees Z c param) (depth : Nat) : Resolves k Z c param (c.resolve depth) := by
  induction depth with
  | zero =>
    intro step cell _ _ _ ls ls' e hl hrun
    exact absurd hrun Slice.misfit_ok
  | succ depth ih =>
    intro step cell _ hc hd ls ls' e hl hrun
    simp only [Slice.resolve, Slice.bind, Traced.run_bind_ok, Traced.run_lift_ok,
      Traced.run_modify_ok, Traced.run_pure_ok] at hrun
    obtain ⟨e₁, ls₁, h₁, _, _, ⟨-, rfl⟩, _, _, rfl, heq⟩ := hrun
    obtain ⟨rfl, rfl⟩ := Prod.mk.inj heq
    obtain ⟨⟨ds, rfl⟩, hl₁, hs⟩ := h.valueWith ih hd.means hl h₁
    rw [hd.ty] at hs
    rw [hd.name]
    exact ⟨⟨_, List.append_assoc _ _ _⟩, Slot.locals_bind hl₁ hc hs⟩

theorem value (h : k.Sees Z c param) (hm : Means k.setting Z (param :: k.cells) e v) :
    k.Yields (c.value e) e.ty v :=
  h.valueWith (h.resolves _) hm

end Slot.Sees

end TwoTier.Round

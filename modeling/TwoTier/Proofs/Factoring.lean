import TwoTier.Compile
import TwoTier.Proofs.Forms
import TwoTier.Proofs.Slicing

/-! # Filling the slots of a form

What the three templates have in common: a slot filled by a slice computes the value that the round
has, and the context that the coordinator sends is what the participants of the round receive.
-/

namespace TwoTier

theorem compile_eq_ok {r : Expr} {template : Template} {f : Form} :
    (compile r template).result = .ok f ↔
    r.check = .ok () ∧ (∃ tiers, r.classify = .ok tiers) ∧ (∃ calls, r.boundaries = .ok calls) ∧
      ∃ parts, (Round.parts r template).result = .ok parts ∧ (Form.ofParts parts).result = .ok f ∧
        f.signature = r.ty := by
  simp only [compile, Traced.bind_ok, Traced.ofExcept_ok, except_mapError_ok, Traced.mapError_ok]
  constructor
  · rintro ⟨_, hc, tiers, htiers, _, -, calls, hcalls, _, -, parts, hparts, form, hform, h⟩
    split at h
    · rename_i hty
      simp only [Traced.bind_ok, Traced.pure_ok] at h
      obtain ⟨_, -, rfl⟩ := h
      exact ⟨hc, ⟨tiers, htiers⟩, ⟨calls, hcalls⟩, parts, hparts, hform, hty⟩
    · exact absurd h Traced.fail_ok
  · rintro ⟨hc, ⟨tiers, htiers⟩, ⟨calls, hcalls⟩, parts, hparts, hform, hty⟩
    refine ⟨(), hc, tiers, htiers, (), Traced.note_ok, calls, hcalls, (), Traced.note_ok, parts,
      hparts, f, hform, ?_⟩
    simp [hty]

theorem compile_ok {r : Expr} {template : Template} {f : Form}
    (h : (compile r template).result = .ok f) :
    r.check = .ok () ∧ ∃ parts, (Round.parts r template).result = .ok parts ∧
    (Form.ofParts parts).result = .ok f := by
  obtain ⟨hc, -, -, parts, hparts, hform, -⟩ := compile_eq_ok.mp h
  exact ⟨hc, parts, hparts, hform⟩

namespace Round

open Expr

variable {s : Setting} {Z : Prop} {mode : Mode} {i : Nat} {C : List Cell} {x : String} {a : Value}
  {e e' : Expr} {t : Ty} {v : Value} {ls ls' : List (String × Expr)} {view : View} {param : Cell}
  {state result : Value} {data : List Value}

theorem fillSlot_sealed {tier : Tier} {slot : String}
    (h : (fillSlot e t tier slot).result = .ok e') :
    e' = e ∧ e.leak? tier = none ∧ e.ty = t := by
  simp only [fillSlot, Traced.bind_ok, Traced.mapError_ok, Expr.extract_ok, Traced.pure_ok] at h
  obtain ⟨_, ⟨hsealed, hty, rfl⟩, _, -, rfl⟩ := h
  exact ⟨rfl, hsealed, hty⟩

theorem fillSlot_ok {tier : Tier} {slot : String} (h : (fillSlot e t tier slot).result = .ok e') :
    e' = e ∧ e.ty = t :=
  ⟨(fillSlot_sealed h).1, (fillSlot_sealed h).2.2⟩

theorem applies_closeOver : Applies s (closeOver x t e ls) (some a) v ↔
    ∃ env, Binds s [(x, a)] ls env ∧ Runs s (.expr env e) v :=
  applies_lambda.trans runs_mkBlock

theorem View.output?_some (h : view.output? = some t) :
    ∃ flag, view.result.ty = .tuple [.atCoordinator view.state, .placed t .coordinator flag] := by
  unfold View.output? at h
  split at h
  · rename_i s x flag hty
    split at h
    · rename_i hs
      cases h
      exact ⟨flag, hs ▸ hty⟩
    · cases h
  · cases h

def Slot.over (s : Setting) (mode : Mode) (i : Nat) (C : List Cell) (x : String)
    (a : Value) : Slot where
  setting := s
  mode := mode
  index := i
  cells := C
  start := fun env => env.lookup x = some a

theorem Slot.binds_over (hC : (C.map Cell.name).Nodup) (hx : x ∉ C.map Cell.name)
    (hl : (Slot.over s mode i C x a).Locals ls) :
    ∃ env, Binds s [(x, a)] ls env ∧ (Slot.over s mode i C x a).Good ls env := by
  refine Locals.binds hl (by simp [Slot.over]) (fun env c w hc h => ?_) hC
  have hne : (x == c.name) = false := by
    simp only [beq_eq_false_iff_ne]
    rintro rfl
    exact hx (List.mem_map_of_mem hc)
  simpa [Slot.over, List.lookup_cons, hne] using h

theorem Slot.applies_over (hC : (C.map Cell.name).Nodup) (hx : x ∉ C.map Cell.name)
    (hl : (Slot.over s mode i C x a).Locals ls) (he : (Slot.over s mode i C x a).Shows ls e t v)
    (u : Ty) : ∃ w, Applies s (closeOver x u e ls) (some a) w ∧ mode.Holds s i t v w := by
  obtain ⟨env, hb, hg⟩ := Slot.binds_over hC hx hl
  obtain ⟨w, hw, hvw⟩ := he.runs env hg
  exact ⟨w, applies_closeOver.mpr ⟨env, hb, hw⟩, hvw⟩

theorem Slot.shows_over (ht : e.ty = mode.type t) (hadm : mode.admits t = true)
    (he : ∀ env : Env, env.lookup x = some a → ∃ w, Runs s (.expr env e) w ∧ mode.Holds s i t v w) :
    (Slot.over s mode i C x a).Shows ls e t v :=
  ⟨ht, hadm, fun env hg => he env hg.1⟩

theorem runs_field {env : Env} {vs : List Value} {n : Nat} {w : Value}
    (h : Runs s (.expr env e) (.tuple vs)) (hw : vs[n]? = some w) :
    Runs s (.expr env (e.field n)) w :=
  runs_select.mpr ⟨vs, h, hw⟩

theorem ty_field {ts : List Ty} {n : Nat} (hts : e.ty = .tuple ts) (ht : ts[n]? = some t) :
    (e.field n).ty = t := by
  simp [field, hts, Ty.elementOrEmpty, Ty.elements?, List.getD_eq_getElem?_getD, ht]

namespace View.Denotes

theorem mem_steps (h : view.Denotes s Z param C result) {step : Step} (hs : step ∈ view.steps) :
    ∃ c ∈ C, step.Denotes s Z (param :: C) c :=
  forall₂_mem h.steps hs

theorem cells_nodup (h : view.Denotes s Z param C result) : (C.map Cell.name).Nodup :=
  (List.nodup_cons.mp h.nodup).2

theorem not_mem_cells (h : view.Denotes s Z param C result) (hx : x ∉ view.names.used) :
    x ∉ C.map Cell.name := by
  rintro hmem
  obtain ⟨c, hc, rfl⟩ := List.mem_map.mp hmem
  exact hx (h.used c (List.mem_cons_of_mem param hc))

end View.Denotes

/-- The view accounts for a run of its round on the given state and data. -/
structure View.Run (s : Setting) (Z : Prop) (view : View) (param : Cell) (C : List Cell)
    (state : Value) (data : List Value) (result : Value) : Prop where
  denotes : view.Denotes s Z param C result
  ty : param.ty = .tuple [.atCoordinator view.state, .atParticipants view.data]
  value : param.value = .tuple [.atServer state, .atClients data]
  state_inhabits : Inhabits s view.state state
  data_inhabits : ∀ d ∈ data, Inhabits s view.data d
  participants : data.length = s.participants

theorem View.run_of_round {n g : Nat} {r : Expr} {template : Template} {S D R : Ty}
    (hview : (View.ofRound r template).result = .ok view) (hc : r.check = .ok ())
    (hr : r.intrinsicsCalled = true) (hz : Z → r.zipsNothing = false) (hty : r.ty = roundType S D R)
    (hstate : Inhabits { participants := data.length, groupSize := g } S state)
    (hdata : ∀ d ∈ data, Inhabits { participants := data.length, groupSize := g } D d)
    (hv : (Eval.round n g r state data).result = .ok result) : ∃ param C,
    view.Run { participants := data.length, groupSize := g } Z param C state data result := by
  obtain ⟨f, hf, hv⟩ := applies_of_round hv
  have hinput : Inhabits { participants := data.length, groupSize := g }
      (.tuple [.atCoordinator S, .atParticipants D]) (.tuple [.atServer state, .atClients data]) :=
    similar_pair ⟨state, state, rfl, rfl, hstate⟩
      ⟨data, data, rfl, rfl, rfl, List.forall₂_same.mpr hdata⟩
  obtain ⟨param, C, hd, hvalue, hpty⟩ := View.ofRound_denotes hview ⟨hc, hr⟩ hz hf
    (fun p t h => by cases hty.symm.trans h; exact hinput) hv
  obtain ⟨hp, -⟩ := Ty.func.inj (hpty.symm.trans hty)
  have hinputs := hd.inputs
  rw [hp] at hinputs
  obtain ⟨hS, hD⟩ := Prod.mk.inj (Option.some.inj hinputs)
  exact ⟨param, C, hd, hS ▸ hD ▸ hp, hvalue, hS ▸ hstate, hD ▸ hdata, rfl⟩

theorem View.Run.sees {k : Slot} {c : Slice}
    (h : view.Run k.setting Z param k.cells state data result) (hview : c.view = view)
    (hmode : c.mode = k.mode) (hindex : k.mode = .lowered → k.index < k.setting.participants ∨ Z)
    (hstate : ∀ e, c.state = some e → k.Shows [] e (.atCoordinator view.state) (.atServer state))
    (hdata : ∀ e, c.data = some e → k.Shows [] e (.atParticipants view.data) (.atClients data))
    (hin : c.inputs = []) : k.Sees Z c param where
  mode := hmode
  index := hindex
  param_name := hview ▸ h.denotes.param_name
  steps := hview ▸ h.denotes.steps
  nodup := h.denotes.nodup
  inputs := by simp [hin]
  select := by
    intro n ts vs t v e hts hvs ht hv he
    obtain rfl := Ty.tuple.inj (h.ty.symm.trans hts)
    obtain rfl := Value.tuple.inj (h.value.symm.trans hvs)
    match n with
    | 0 =>
      simp only [List.getElem?_cons_zero, Option.some.injEq] at ht hv
      exact ht ▸ hv ▸ hstate e (by simpa using he)
    | 1 =>
      simp only [List.getElem?_cons_succ, List.getElem?_cons_zero, Option.some.injEq] at ht hv
      exact ht ▸ hv ▸ hdata e (by simpa using he)
    | n + 2 => simp at ht

theorem boundary?_some {b : BoundaryCall} (h : e.boundary? = .ok (some b)) :
    (∃ uri u a t, e = .call (.intrinsic uri u) a t ∧ Intrinsic.ofUri? uri = some (.crossing b.op) ∧
      b.args = a.unpack) ∨ ∃ uri u t, e = .force (.intrinsic uri u) t := by
  have crossing : ∀ {uri u args t}, crossingCall? uri u args t = .ok (some b) →
      Intrinsic.ofUri? uri = some (.crossing b.op) ∧ b.args = args := by
    intro uri u args t h
    unfold crossingCall? at h
    split at h
    · rename_i op ho
      cases h
      exact ⟨ho, rfl⟩
    · cases h
    · split at h <;> cases h
  unfold boundary? at h
  split at h
  · rename_i uri u a t
    exact .inl ⟨uri, u, a, t, rfl, crossing h⟩
  · rename_i uri u t
    exact .inr ⟨uri, u, t, rfl⟩
  · cases h

theorem means_intrinsic {uri : String} {u : Ty} {a : Expr}
    (h : Means s Z C (.call (.intrinsic uri u) a t) v) :
    ∃ op b, Intrinsic.ofUri? uri = some op ∧ op.resultType a.ty = .ok t ∧ Means s Z C a b ∧
      Runs s (.call (.intrinsic op (.func a.ty t)) (some b)) v := by
  cases h with
  | whole hw => cases hw
  | intrinsic ho hr _ ha hv => exact ⟨_, _, ho, hr, ha, hv⟩
  | call _ _ hf => exact absurd hf.typed typed_intrinsic

theorem Step.Denotes.crossing {step : Step} {c : Cell} {b : BoundaryCall}
    (h : step.Denotes s Z C c) (hb : step.boundary = some b) :
    ∃ a u, b.args = a.unpack ∧ (Intrinsic.crossing b.op).resultType a.ty = .ok c.ty ∧
      Means s Z C a u ∧
      Runs s (.call (.intrinsic (.crossing b.op) (.func a.ty c.ty)) (some u)) c.value := by
  have hmeans := h.means
  have hty := h.ty
  rcases boundary?_some (hb ▸ h.boundary) with ⟨uri, u, a, t, he, ho, hargs⟩ | ⟨uri, u, t, he⟩
  · rw [he] at hmeans hty
    obtain rfl := hty
    obtain ⟨op, x, ho', hr, ha, hv⟩ := means_intrinsic hmeans
    cases ho.symm.trans ho'
    exact ⟨a, x, hargs, hr, ha, hv⟩
  · rw [he] at hmeans
    have := hmeans.typed
    rw [typed_force] at this
    exact absurd this.1 typed_intrinsic

theorem unpack_of_not_tuple {Γ : List (String × Ty)} {a : Expr} (ht : ∀ ts, a.ty ≠ .tuple ts)
    (ha : a.Typed Γ) :
    a.unpack = [a] := by
  unfold unpack
  split
  · obtain ⟨-, hty⟩ := typed_tuple.mp ha
    exact absurd hty (ht _)
  · split
    · rename_i h
      exact absurd h (ht _)
    · rfl

theorem means_unpack {a : Expr} {ts : List Ty} {us : List Value} (ht : a.ty = .tuple ts)
    (ha : Means s Z C a (.tuple us)) :
    List.Forall₂ (fun e tv => e.ty = tv.1 ∧ Means s Z C e tv.2) a.unpack (ts.zip us) := by
  have hlen : ts.length = us.length := Similar.length_tuple (ht ▸ ha.inhabits)
  unfold unpack
  split
  · rename_i es u
    cases ha with
    | whole hw => cases hw
    | tuple hl hes =>
      obtain rfl := Ty.tuple.inj ht
      rw [List.forall₂_iff_get]
      refine ⟨by simp [hl], fun n hn hn' => ?_⟩
      have hp : (es[n], us[n]) ∈ es.zip us := List.mem_of_getElem? (i := n) (by simp [hn, hl ▸ hn])
      simpa using hes _ hp
  · simp only [ht, List.forall₂_iff_get]
    refine ⟨by simp [hlen], fun n hn hn' => ?_⟩
    simp only [List.length_map, List.length_range] at hn
    have hty : (a.field n).ty = ts[n] := ty_field ht (List.getElem?_eq_getElem hn)
    have hmeans : Means s Z C (a.field n) us[n] :=
      .select ht ((List.getElem?_eq_getElem hn).trans (congrArg some hty.symm)) ha
      (List.getElem?_eq_getElem (hlen ▸ hn))
    simpa using And.intro hty hmeans

theorem Step.Denotes.broadcast {step : Step} {c : Cell} (h : step.Denotes s Z C c)
    (hb : step.isBroadcast = true) :
    ∃ b e m flag u, step.boundary = some b ∧ b.args.head? = some e ∧
    e.ty = .placed m .coordinator flag ∧
      Means s Z C e (.atServer u) ∧ c.ty = .place m .participants true ∧
      c.value = .atClients (List.replicate s.participants u) := by
  simp only [Step.isBroadcast, Step.op?, Option.any_map, Option.any_eq_true,
    Crossing.isBroadcast, beq_iff_eq] at hb
  obtain ⟨b, hb, hop⟩ := hb
  obtain ⟨a, x, hargs, hr, ha, hv⟩ := h.crossing hb
  rw [hop] at hr hv
  simp only [Intrinsic.resultType, Intrinsic.broadcastResult] at hr
  split at hr
  · rename_i m hm
    obtain ⟨flag, hflag⟩ := memberAt?_eq hm
    obtain ⟨u, rfl, hcv⟩ := runs_broadcast.mp hv
    refine ⟨b, a, m, flag, u, hb, ?_, hflag, ha, (Except.ok.inj hr).symm, hcv⟩
    rw [hargs, unpack_of_not_tuple (by simp [hflag]) ha.typed]
    rfl
  · cases hr

theorem argument_of_isAggregation {op : Crossing} {u : Ty} (hop : op.isAggregation = true)
    (hr : (Intrinsic.crossing op).resultType u = .ok t) : ∃ ts, u = .tuple ts ∧ 2 ≤ ts.length := by
  cases op <;> simp only [Intrinsic.resultType] at hr
  case broadcast => cases hop
  case aggregate =>
    obtain ⟨m, e, z, q, hty, -⟩ := aggregateResult_ok hr
    exact ⟨_, hty, by simp⟩
  all_goals
    obtain ⟨m, p, e, hty, -⟩ := secureSumResult_ok hr
    exact ⟨_, hty, by simp⟩

theorem Step.isAggregation_iff {step : Step} :
    step.isAggregation = true ↔ ∃ b, step.boundary = some b ∧ b.op.isAggregation = true := by
  simp [Step.isAggregation, Step.op?, Option.any_map, Option.any_eq_true]

theorem Step.Denotes.aggregation {step : Step} {c : Cell} (h : step.Denotes s Z C c)
    (ha : step.isAggregation = true) :
    ∃ b tvs, step.boundary = some b ∧ b.op.isAggregation = true ∧ 2 ≤ tvs.length ∧
      List.Forall₂ (fun e tv => e.ty = tv.1 ∧ Means s Z C e tv.2) b.args tvs ∧
      (Intrinsic.crossing b.op).resultType (.tuple (tvs.map Prod.fst)) = .ok c.ty ∧
      Runs s (.call (.intrinsic (.crossing b.op) (.func (.tuple (tvs.map Prod.fst)) c.ty))
        (some (.tuple (tvs.map Prod.snd)))) c.value := by
  obtain ⟨b, hb, hop⟩ := Step.isAggregation_iff.mp ha
  obtain ⟨a, u, hargs, hr, hm, hv⟩ := h.crossing hb
  obtain ⟨ts, hts, hlen⟩ := argument_of_isAggregation hop hr
  have hin := hm.inhabits
  rw [hts] at hin hr hv
  obtain ⟨us, _, rfl, -, hin⟩ := hin
  have hl := hin.length.1
  refine ⟨b, ts.zip us, hb, hop, by simp [← hl, hlen], hargs ▸ means_unpack hts hm, ?_⟩
  rw [List.map_fst_zip hl.le, List.map_snd_zip hl.ge]
  exact ⟨hr, hv⟩

/-- The cell of an aggregation's result, and its arguments. -/
structure Gathered where
  cell : Cell
  first : Ty × Value
  rest : List (Ty × Value)

def Gathered.args (g : Gathered) : List (Ty × Value) :=
  g.first :: g.rest

/-- An aggregation step with its result and arguments. -/
structure Step.Gathers (s : Setting) (Z : Prop) (param : Cell) (C : List Cell) (step : Step)
    (g : Gathered) : Prop where
  mem : g.cell ∈ C
  name : g.cell.name = step.name
  rest : g.rest ≠ []
  boundary : ∃ b, step.boundary = some b ∧
    List.Forall₂ (fun e tv => e.ty = tv.1 ∧ Means s Z (param :: C) e tv.2) b.args g.args ∧
    (Intrinsic.crossing b.op).resultType (.tuple (g.args.map Prod.fst)) = .ok g.cell.ty ∧
    Runs s (.call (.intrinsic (.crossing b.op) (.func (.tuple (g.args.map Prod.fst)) g.cell.ty))
      (some (.tuple (g.args.map Prod.snd)))) g.cell.value

theorem View.Denotes.gathers (h : view.Denotes s Z param C result) :
    ∃ gs, List.Forall₂ (Step.Gathers s Z param C) view.aggregations gs := by
  refine exists_forall₂ fun step hstep => ?_
  obtain ⟨hmem, ha⟩ := List.mem_filter.mp hstep
  obtain ⟨c, hc, hd⟩ := h.mem_steps hmem
  obtain ⟨b, tvs, hb, -, hlen, hargs, hr, hv⟩ := hd.aggregation ha
  obtain ⟨tv, tv', tvs, rfl⟩ : ∃ tv tv' tvs', tvs = tv :: tv' :: tvs' := by
    rcases tvs with - | ⟨tv, - | ⟨tv', tvs⟩⟩
    · simp at hlen
    · simp at hlen
    · exact ⟨tv, tv', tvs, rfl⟩
  exact ⟨⟨c, tv, tv' :: tvs⟩, hc, hd.name.symm, by simp, b, hb, hargs, hr, hv⟩

theorem Slot.yields_pure {k : Slot} {v : Value} (h : k.Shows [] e t v) : k.Yields (pure e) t v := by
  intro ls ls' e' hl hr
  obtain ⟨rfl, rfl⟩ := Prod.mk.inj (Traced.run_pure_ok.mp hr)
  exact ⟨⟨[], by simp⟩, hl, h.of_nil⟩

theorem Slot.run_mapM {α β : Type} {k : Slot}
    {f : α → SliceM β} {P : List (String × Expr) → α → β → Prop}
    {as : List α} {bs : List β} (happend : ∀ {ls ds a b}, P ls a b → P (ls ++ ds) a b)
    (hf : ∀ a ∈ as, ∀ {ls ls' b}, k.Locals ls → ((f a).run ls).result = .ok (b, ls') →
      (∃ ds, ls' = ls ++ ds) ∧ k.Locals ls' ∧ P ls' a b)
    (hl : k.Locals ls) (hr : ((as.mapM f).run ls).result = .ok (bs, ls')) :
    (∃ ds, ls' = ls ++ ds) ∧ k.Locals ls' ∧ List.Forall₂ (P ls') as bs := by
  induction as generalizing ls bs with
  | nil =>
    obtain ⟨rfl, rfl⟩ := Prod.mk.inj (Traced.run_pure_ok.mp hr)
    exact ⟨⟨[], by simp⟩, hl, .nil⟩
  | cons a as ih =>
    simp only [List.mapM_cons, Traced.run_bind_ok] at hr
    obtain ⟨b, ls₁, h₁, bs', ls₂, h₂, h₃⟩ := hr
    obtain ⟨rfl, rfl⟩ := Prod.mk.inj (Traced.run_pure_ok.mp h₃)
    obtain ⟨⟨ds, rfl⟩, hl₁, hb⟩ := hf a (by simp) hl h₁
    obtain ⟨⟨ds', rfl⟩, hl₂, hbs⟩ := ih (fun a ha => hf a (by simp [ha])) hl₁ h₂
    exact ⟨⟨ds ++ ds', by simp⟩, hl₂, .cons (happend hb) hbs⟩

theorem Slice.mapM_eq {α : Type} {f : α → SliceM Expr} {as : List α} :
    as.mapM f = Slice.sequence (as.map f) := by
  induction as with
  | nil => rfl
  | cons a as ih => simp only [List.map_cons, Slice.sequence, ih, List.mapM_cons]

theorem Slot.yields_mapM {α : Type} {k : Slot} {f : α → SliceM Expr}
    {as : List α} {tvs : List (Ty × Value)} {es : List Expr}
    (hf : List.Forall₂ (fun a tv => k.Yields (f a) tv.1 tv.2) as tvs) (hl : k.Locals ls)
    (hr : ((as.mapM f).run ls).result = .ok (es, ls')) : (∃ ds, ls' = ls ++ ds) ∧ k.Locals ls' ∧
    List.Forall₂ (fun e tv => k.Shows ls' e tv.1 tv.2) es tvs := by
  rw [Slice.mapM_eq] at hr
  exact Slot.yields_sequence (List.forall₂_map_left_iff.mpr hf) hl hr

theorem Slot.shows_field {k : Slot} {tvs : List (Ty × Value)} {tv : Ty × Value} {n : Nat}
    (h : k.Shows ls e (.tuple (tvs.map Prod.fst)) (.tuple (tvs.map Prod.snd)))
    (hn : tvs[n]? = some tv) :
    k.Shows ls (e.field n) tv.1 tv.2 := by
  have ht : (tvs.map Prod.fst)[n]? = some tv.1 := by simp [hn]
  have hty := h.ty.trans Mode.type_tuple
  have hfield : (e.field n).ty = k.mode.type tv.1 := ty_field hty (by simp [hn])
  refine Slot.shows_select h ht (by simp [hn]) (mkSelect_ok.mpr ⟨_, _, hty, ?_, rfl⟩)
  rw [List.getElem?_map, ht, Option.map_some]
  exact congrArg some hfield.symm

/-- The participants receive from a broadcast step what the coordinator has as `tv`. -/
def Step.Delivers (s : Setting) (C : List Cell) (step : Step) (tv : Ty × Value) : Prop :=
  ∃ m flag u, tv = (.placed m .coordinator flag, .atServer u) ∧ ∃ c ∈ C, c.name = step.name ∧
    c.ty = .place m .participants true ∧ c.value = .atClients (List.replicate s.participants u)

theorem View.Denotes.channelValues {k : Slot} {c : Slice} {es : List Expr}
    (h : view.Denotes k.setting Z param k.cells result)
    (hsees : k.Sees Z c param) (hl : k.Locals ls)
    (hr : ((c.channelValues view.broadcasts).run ls).result = .ok (es, ls')) : ∃ tvs,
      List.Forall₂ (Step.Delivers k.setting k.cells) view.broadcasts tvs ∧
      (∃ ds, ls' = ls ++ ds) ∧ k.Locals ls' ∧
      List.Forall₂ (fun e tv => k.Shows ls' e tv.1 tv.2) es tvs := by
  have hsteps : ∀ step ∈ view.broadcasts, ∃ tv, step.Delivers k.setting k.cells tv ∧
      k.Yields (c.channelValue step) tv.1 tv.2 := by
    intro step hstep
    obtain ⟨hmem, hb⟩ := List.mem_filter.mp hstep
    obtain ⟨cell, hc, hd⟩ := h.mem_steps hmem
    obtain ⟨b, e, m, flag, u, hbd, hhead, hty, hm, hcty, hcv⟩ := hd.broadcast hb
    refine ⟨(.placed m .coordinator flag, .atServer u),
      ⟨m, flag, u, rfl, cell, hc, hd.name.symm, hcty, hcv⟩, ?_⟩
    simp only [Slice.channelValue, hbd, Option.bind_some, hhead]
    exact hty ▸ hsees.value hm
  obtain ⟨tvs, htvs⟩ := exists_forall₂ hsteps
  exact ⟨tvs, htvs.imp fun _ _ h => h.1, Slot.yields_mapM (htvs.imp fun _ _ h => h.2) hl hr⟩

def pack : List (Ty × Value) → Ty × Value
  | [tv] => tv
  | tvs => (.tuple (tvs.map Prod.fst), .tuple (tvs.map Prod.snd))

theorem Slot.shows_pack {k : Slot} {es : List Expr} {tvs : List (Ty × Value)}
    (he : e = match es with
      | [e] => e
      | es => mkTuple es) (h : List.Forall₂ (fun e tv => k.Shows ls e tv.1 tv.2) es tvs) :
    k.Shows ls e (pack tvs).1 (pack tvs).2 := by
  subst he
  cases h with
  | nil => exact shows_tuple .nil
  | cons hs hss =>
    cases hss with
    | nil => exact hs
    | cons hs' hss => exact shows_tuple (.cons hs (.cons hs' hss))

/-- A context of the given type holds what the coordinator sends. -/
def Carries (s : Setting) (tvs : List (Ty × Value)) (t : Ty) (w : Value) : Prop :=
  t = (pack tvs).1.lower ∧ Lowers s 0 (pack tvs).1 (pack tvs).2 w

theorem View.Run.serverContext {slot : String} (h : view.Run s Z param C state data result)
    (hi : 0 < s.participants ∨ Z) (hx : x ∉ view.names.used)
    (hr : (view.serverContext slot x).result = .ok (e, t)) :
    ∃ tvs w, List.Forall₂ (Step.Delivers s C) view.broadcasts tvs ∧ Applies s e (some state) w ∧
      Carries s tvs t w := by
  simp only [View.serverContext, Traced.bind_ok, Prod.exists, Traced.pure_ok, Prod.mk.injEq] at hr
  obtain ⟨values, ls, hvalues, _, -, slotted, hfill, hr⟩ := hr
  obtain ⟨rfl, rfl⟩ := hr
  obtain ⟨rfl, -⟩ := fillSlot_ok hfill
  let k := Slot.over s .lowered 0 C x state
  have hsees : k.Sees Z
      { view, mode := .lowered, stage := .broadcast, slot, state := some (.ref x view.state) }
      param := by
    refine View.Run.sees (k := k) h rfl rfl (fun _ => hi) (fun e he => ?_) (by simp) rfl
    cases he
    refine Slot.shows_over rfl rfl fun env henv => ?_
    exact ⟨state, runs_ref.mpr henv, state, rfl, h.state_inhabits⟩
  obtain ⟨tvs, hdel, -, hl, hes⟩ := View.Denotes.channelValues (k := k) h.denotes hsees .nil hvalues
  have hs := Slot.shows_pack rfl hes
  obtain ⟨w, hw, hvw⟩ := Slot.applies_over h.denotes.cells_nodup
    (h.denotes.not_mem_cells hx) hl hs view.state
  exact ⟨tvs, w, hdel, hw, hs.ty, hvw⟩

namespace Slot.Sees

variable {k : Slot} {c : Slice} {cell : Cell}

theorem withInput (h : k.Sees Z c param) (hc : cell ∈ k.cells)
    (he : k.Shows [] e cell.ty cell.value) :
    k.Sees Z (c.withInput cell.name e) param where
  mode := h.mode
  index := h.index
  param_name := h.param_name
  steps := h.steps
  nodup := h.nodup
  select := h.select
  inputs := by
    intro y e' hy
    rw [Slice.withInput, Subst.lookup_insert] at hy
    split at hy
    · rename_i hname
      cases hy
      exact ⟨cell, hc, hname.symm, he⟩
    · exact h.inputs y e' hy

theorem withInputs {steps : List Step} {value : Nat → Expr} (h : k.Sees Z c param)
    (hs : ∀ n step, steps[n]? = some step → ∃ cell ∈ k.cells, cell.name = step.name ∧
      k.Shows [] (value n) cell.ty cell.value) :
    k.Sees Z (steps.zipIdx.foldl (fun c (s, n) => c.withInput s.name (value n)) c) param := by
  refine List.foldlRecOn (motive := fun c => k.Sees Z c param) _ _ h fun c h ⟨step, n⟩ hp => ?_
  obtain ⟨cell, hc, hname, hshow⟩ := hs n step (List.mem_zipIdx_iff_getElem?.mp hp)
  change k.Sees Z (c.withInput step.name (value n)) param
  exact hname ▸ h.withInput hc hshow

theorem broadcastResults {source : Expr}
    {tvs : List (Ty × Value)} {w : Value} (h : k.Sees Z c param)
    (hmode : k.mode = .lowered) (hi : ∀ env, k.start env → k.index < k.setting.participants)
    (hdel : List.Forall₂ (Step.Delivers k.setting k.cells) view.broadcasts tvs)
    (hcarry : Carries k.setting tvs source.ty w)
    (hsource : ∀ env, k.start env → Runs k.setting (.expr env source) w) :
    k.Sees Z (view.broadcastResults source c) param := by
  -- what a step delivers, from an expression that has the value sent
  have shows : ∀ {step : Step} {tv : Ty × Value} {e : Expr}, step.Delivers k.setting k.cells tv →
      e.ty = tv.1.lower →
      (∀ env, k.start env → ∃ w, Runs k.setting (.expr env e) w ∧ Lowers k.setting 0 tv.1 tv.2 w) →
      ∃ cell ∈ k.cells, cell.name = step.name ∧ k.Shows [] e cell.ty cell.value := by
    rintro step _ e ⟨m, flag, u, rfl, cell, hc, hname, hty, hv⟩ hety hruns
    refine ⟨cell, hc, hname, ?_, by simp [hty, hmode, Mode.admits, Ty.place, Ty.isFlat],
      fun env hg => ?_⟩
    · simpa [hty, hmode, Mode.type, Ty.place, Ty.lower] using hety
    · obtain ⟨w, hw, _, ⟨⟩, hvw⟩ := hruns env hg.1
      refine ⟨w, hw, ?_⟩
      rw [hty, hv]
      simp only [Slot.Holds, hmode, Mode.Holds, Ty.place, Lowers]
      exact ⟨_, u, rfl, by simp [hi env hg.1], hvw⟩
  have indexed : source.ty = Mode.lowered.type (.tuple (tvs.map Prod.fst)) →
      Mode.lowered.Holds k.setting 0 (.tuple (tvs.map Prod.fst)) (.tuple (tvs.map Prod.snd)) w →
      k.Sees Z (view.indexedBroadcasts source c) param := by
    intro hty hlow
    obtain ⟨_, ws, ⟨⟩, rfl, heach⟩ := Mode.holds_tuple.mp hlow
    refine h.withInputs fun n step hn => ?_
    obtain ⟨tv, htv, hstep⟩ := forall₂_getElem? hdel hn
    obtain ⟨w, hw, hvw⟩ := heach.getElem? (k := n) (t := tv.1) (v := tv.2) (by simp [htv])
      (by simp [htv])
    refine shows hstep (ty_field (hty.trans Mode.type_tuple) (by simp [htv, Mode.type]))
      fun env hstart => ?_
    exact ⟨w, runs_field (hsource env hstart) hw, hvw⟩
  obtain ⟨hty, hlow⟩ := hcarry
  generalize hb : view.broadcasts = steps at hdel
  cases hdel with
  | nil =>
    simp only [View.broadcastResults, hb]
    exact indexed hty hlow
  | cons hstep hsteps =>
    cases hsteps with
    | nil =>
      obtain ⟨cell, hc, hname, hs⟩ :=
        shows hstep hty fun env hstart => ⟨w, hsource env hstart, hlow⟩
      simp only [View.broadcastResults, hb]
      exact hname ▸ h.withInput hc hs
    | cons =>
      simp only [View.broadcastResults, hb]
      exact indexed hty hlow

end Slot.Sees

theorem Slot.Sees.yields_first {k : Slot} {c : Slice} {step : Step} {g : Gathered}
    (h : k.Sees Z c param) (hg : step.Gathers k.setting Z param k.cells g) :
    k.Yields (c.channelValue step) g.first.1 g.first.2 := by
  obtain ⟨b, hb, hargs, -⟩ := hg.boundary
  obtain ⟨e, es, ⟨hty, hm⟩, -, hargs⟩ := List.forall₂_cons_right_iff.mp hargs
  simp only [Slice.channelValue, hb, Option.bind_some, hargs, List.head?_cons]
  exact hty ▸ h.value hm

theorem View.Run.sees_participant {k : Slot} {own context : Expr} {stage : Stage} {slot : String}
    {tvs : List (Ty × Value)} {w : Value} (h : view.Run k.setting Z param k.cells state data result)
    (hmode : k.mode = .lowered) (hi : k.index < k.setting.participants ∨ Z)
    (hdel : List.Forall₂ (Step.Delivers k.setting k.cells) view.broadcasts tvs)
    (hcarry : Carries k.setting tvs t w) (ht : context.ty = t)
    (hcontext : ∀ env, k.start env → Runs k.setting (.expr env context) w)
    (hty : own.ty = view.data)
    (hown : ∀ env, k.start env → ∃ d, data[k.index]? = some d ∧ Runs k.setting (.expr env own) d) :
    k.Sees Z
      (view.broadcastResults context { view, mode := .lowered, stage, slot, data := some own })
      param := by
  refine Slot.Sees.broadcastResults ?_ hmode (fun env henv => ?_) hdel (ht ▸ hcarry) hcontext
  · refine View.Run.sees h rfl hmode.symm (fun _ => hi) (by simp) (fun e he => ?_) rfl
    cases he
    refine ⟨by simpa [Mode.type, hmode, Ty.atParticipants, Ty.place, Ty.lower] using hty,
      by simp [hmode, Mode.admits, Ty.atParticipants, Ty.place, Ty.isFlat], fun env hg => ?_⟩
    obtain ⟨d, hd, hrun⟩ := hown env hg.1
    refine ⟨d, hrun, ?_⟩
    simp only [Slot.Holds, hmode, Mode.Holds, Ty.atParticipants, Ty.place, Lowers]
    exact ⟨data, d, rfl, hd, h.data_inhabits d (List.mem_of_getElem? hd)⟩
  · obtain ⟨d, hd, -⟩ := hown env henv
    exact h.participants ▸ (List.getElem?_eq_some_iff.mp hd).1

end Round

end TwoTier

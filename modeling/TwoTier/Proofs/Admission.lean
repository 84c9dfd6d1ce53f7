import TwoTier.Proofs.Compile.MapReduce
import TwoTier.Proofs.Signature
import TwoTier.Proofs.SlotTypes

/-! # Parts that make a form

The parts that a well-typed round is taken apart into pass the check of their form. Slicing keeps
types, so each part is well-typed by itself, and filling its slot has shown it to be sealed. What
one part hands to another has the same type in both.
-/

namespace TwoTier.Round

open Expr

variable {view : View} {p t u : Ty} {Δ : List (String × Ty)} {ls ls' : List (String × Expr)}
  {e e' : Expr} {names : List String} {step : Step} {x slot : String} {c : Slice}

/-- A part of type `t` that has what it takes for a block of no tier. -/
structure Admitted (e : Expr) (t : Ty) : Prop where
  typed : e.Typed []
  sealed : e.leak? .unplaced = none
  ty : e.ty = t

theorem fillSlot_admitted (h : (fillSlot e t .unplaced slot).result = .ok e') (he : e.Scoped []) :
    Admitted e' t := by
  obtain ⟨rfl, hsealed, hty⟩ := fillSlot_sealed h
  exact ⟨he.typed, hsealed, hty⟩

theorem Admitted.part (h : Admitted e t) : Form.Part e .unplaced ⟨e.ty, e, .unplaced⟩ :=
  ⟨h.typed.1, h.sealed, rfl⟩

theorem Slice.Emitted.closeOver {mode : Mode} (h : c.Emitted [(x, t)] ls)
    (he : HasType mode [(x, t)] ls e u) :
    (closeOver x t e ls).Scoped [] :=
  scoped_lambda (h.chain.mkBlock he.inScope)

theorem scoped_field {Γ : List (String × Ty)} {ts : List Ty} {n : Nat} (he : e.Scoped Γ)
    (hts : e.ty = .tuple ts) (ht : ts[n]? = some t) : (e.field n).Scoped Γ :=
  scoped_select he hts (ht.trans (congrArg some (ty_field hts ht).symm))

def View.context (view : View) (p : Ty) : List (String × Ty) :=
  scope [(view.param, p)] (bindings view.steps)

/-- A part of the view, at the type `t`. -/
def View.Part (view : View) (p : Ty) (e : Expr) (t : Ty) : Prop :=
  e.Scoped (view.context p) ∧ e.ty = t

theorem View.Part.unpack {a : Expr} {ts : List Ty} (ha : view.Part p a (.tuple ts)) :
    List.Forall₂ (view.Part p) a.unpack ts := by
  obtain ⟨hscoped, hts⟩ := ha
  unfold Expr.unpack
  split
  · rename_i es u
    obtain rfl : ts = es.map ty := Ty.tuple.inj (hts.symm.trans (typed_tuple.mp hscoped.typed).2)
    rw [List.forall₂_map_right_iff, List.forall₂_same]
    exact fun e he => ⟨hscoped.element he, rfl⟩
  · simp only [hts, List.forall₂_iff_get]
    refine ⟨by simp, fun n hn _ => ?_⟩
    simp only [List.length_map, List.length_range] at hn
    have ht := List.getElem?_eq_getElem hn
    have hfield : view.Part p (a.field n) ts[n] := ⟨scoped_field hscoped hts ht, ty_field hts ht⟩
    simpa using hfield

namespace View.Scoped

theorem step_value (h : view.Scoped p) (hs : step ∈ view.steps) :
    view.Part p step.value step.value.ty := by
  obtain ⟨pre, post, hsteps⟩ := List.append_of_mem hs
  obtain ⟨hvalue, hwithin⟩ := h.value hsteps
  exact ⟨hvalue.mono hwithin, rfl⟩

theorem crossing {b : BoundaryCall} (h : view.Scoped p) (hs : step ∈ view.steps)
    (hb : step.boundary = some b) : ∃ a, b.args = a.unpack ∧ view.Part p a a.ty ∧
    (Intrinsic.crossing b.op).resultType a.ty = .ok step.value.ty := by
  obtain ⟨hvalue, -⟩ := h.step_value hs
  rcases boundary?_some (hb ▸ (h.valid step hs).boundary) with
    ⟨uri, u, a, t, he, ho, hargs⟩ | ⟨uri, u, t, he⟩
  · rw [he] at hvalue ⊢
    exact ⟨a, hargs, ⟨hvalue.argument, rfl⟩, hvalue.operation ho⟩
  · rw [he] at hvalue
    exact absurd hvalue.thunk.1.typed typed_intrinsic

end View.Scoped

/-- The participants receive from a broadcast step what the coordinator has at the type `t`. -/
def Step.Sends (step : Step) (t : Ty) : Prop :=
  ∃ m flag, t = .placed m .coordinator flag ∧ step.value.ty = .place m .participants true

theorem View.Scoped.broadcast (h : view.Scoped p) (hs : step ∈ view.broadcasts) :
    ∃ b e t, step.boundary = some b ∧ b.args.head? = some e ∧ view.Part p e t ∧ step.Sends t := by
  obtain ⟨hmem, hb⟩ := List.mem_filter.mp hs
  simp only [Step.isBroadcast, Step.op?, Option.any_map, Option.any_eq_true, Crossing.isBroadcast,
    beq_iff_eq] at hb
  obtain ⟨b, hb, hop⟩ := hb
  obtain ⟨a, hargs, ha, hr⟩ := h.crossing hmem hb
  rw [hop] at hr
  simp only [Intrinsic.resultType, Intrinsic.broadcastResult] at hr
  split at hr
  · rename_i m hm
    obtain ⟨flag, hflag⟩ := memberAt?_eq hm
    refine ⟨b, a, a.ty, hb, ?_, ha, m, flag, hflag, (Except.ok.inj hr).symm⟩
    rw [hargs, unpack_of_not_tuple (by simp [hflag]) ha.1.typed]
    rfl
  · cases hr

/-- The step aggregates arguments of these types. -/
structure View.Aggregates (view : View) (p : Ty) (op : Crossing) (step : Step)
    (ts : List Ty) : Prop where
  mem : step ∈ view.steps
  args : ∃ b, step.boundary = some b ∧ List.Forall₂ (view.Part p) b.args ts
  result : (Intrinsic.crossing op).resultType (.tuple ts) = .ok step.value.ty

theorem View.Scoped.aggregation {op : Crossing} (h : view.Scoped p)
    (hs : view.aggregation? op = some step) :
    ∃ ts, view.Aggregates p op step ts := by
  obtain ⟨hmem, hagg⟩ := List.mem_filter.mp (List.mem_of_find?_eq_some hs)
  have hop := List.find?_some hs
  obtain ⟨b, hb, hagg⟩ := Step.isAggregation_iff.mp hagg
  obtain rfl : b.op = op := by simpa [Step.op?, hb] using hop
  obtain ⟨a, hargs, ha, hr⟩ := h.crossing hmem hb
  obtain ⟨ts, hts, -⟩ := argument_of_isAggregation hagg hr
  rw [hts] at ha hr
  exact ⟨ts, hmem, ⟨b, hb, hargs ▸ ha.unpack⟩, hr⟩

/-- A lowered slice of the view. -/
structure Slice.Lowers (c : Slice) (view : View) (p : Ty) (Δ : List (String × Ty)) : Prop where
  view_eq : c.view = view
  mode_eq : c.mode = .lowered
  furnished : c.Furnished p Δ

theorem hasType_lowered {mode : Mode} {site : Placement} {flag : Bool} (hmode : mode = .lowered)
    (he : e.Scoped Δ) (hty : e.ty = t) : HasType mode Δ [] e (.placed t site flag) := by
  subst hmode
  exact ⟨he, hty, rfl⟩

theorem View.Scoped.lowers (h : view.Scoped p) (hΔ : ∀ x ∈ Δ.map Prod.fst, x ∉ view.names.used)
    (hview : c.view = view) (hmode : c.mode = .lowered)
    (hstate : ∀ e, c.state = some e → e.Scoped Δ ∧ e.ty = view.state)
    (hdata : ∀ e, c.data = some e → e.Scoped Δ ∧ e.ty = view.data) (hin : c.inputs = []) :
    c.Lowers view p Δ := by
  subst hview
  refine ⟨rfl, hmode, h, fun step hs hx => ?_, fun {n ts t e} hp ht he => ?_, by simp [hin]⟩
  · exact hΔ _ hx (h.used _ (List.mem_cons_of_mem _ (List.mem_map_of_mem hs)))
  · obtain ⟨flag, rfl⟩ := inputs?_some h.inputs
    obtain rfl := Ty.tuple.inj hp
    rcases n with - | - | n
    · obtain ⟨hscoped, hty⟩ := hstate e (by simpa using he)
      obtain rfl := Option.some.inj ht
      exact hasType_lowered hmode hscoped hty
    · obtain ⟨hscoped, hty⟩ := hdata e (by simpa using he)
      obtain rfl := Option.some.inj ht
      exact hasType_lowered hmode hscoped hty
    · simp at ht

namespace Slice.Lowers

theorem value (h : c.Lowers view p Δ) (he : view.Part p e t) :
    c.Emits Δ (view.steps.map Step.name) (c.value e) t := by
  obtain ⟨hscoped, rfl⟩ := he
  rw [← h.view_eq] at hscoped ⊢
  exact h.furnished.value hscoped

theorem channelValue {b : BoundaryCall} (h : c.Lowers view p Δ) (hb : step.boundary = some b)
    (hhead : b.args.head? = some e) (he : view.Part p e t) :
    c.Emits Δ (view.steps.map Step.name) (c.channelValue step) t := by
  simp only [Slice.channelValue, hb, Option.bind_some, hhead]
  exact h.value he

theorem withInput {site : Placement} {flag : Bool} (h : c.Lowers view p Δ) (hs : step ∈ view.steps)
    (hty : step.value.ty = .placed t site flag) (he : e.Scoped Δ) (ht : e.ty = t) :
    (c.withInput step.name e).Lowers view p Δ := by
  have hf := h.furnished
  refine ⟨h.view_eq, h.mode_eq, hf.view, hf.fresh, hf.select, fun y e' hy => ?_⟩
  rw [Slice.withInput, Subst.lookup_insert] at hy
  split at hy
  · rename_i hname
    cases hy
    exact ⟨step, h.view_eq ▸ hs, hname.symm, hty ▸ hasType_lowered h.mode_eq he ht⟩
  · exact hf.inputs y e' hy

end Slice.Lowers

def packTypes : List Ty → Ty
  | [t] => t
  | ts => .tuple ts

theorem hasType_pack {mode : Mode} {es : List Expr} {ts : List Ty}
    (he : e = match es with
      | [e] => e
      | es => mkTuple es) (h : List.Forall₂ (HasType mode Δ ls) es ts) :
          HasType mode Δ ls e (packTypes ts) := by
  subst he
  cases h with
  | nil => exact hasType_tuple .nil
  | cons he hes =>
    cases hes with
    | nil => exact he
    | cons he' hes => exact hasType_tuple (.cons he (.cons he' hes))

/-- The context has what all the broadcasts send. -/
def View.SendsAll (view : View) (t : Ty) : Prop :=
  ∃ ts, List.Forall₂ Step.Sends view.broadcasts ts ∧ t = (packTypes ts).lower

theorem View.Scoped.serverContext (h : view.Scoped p) (hx : x ∉ view.names.used)
    (hr : (view.serverContext slot x).result = .ok (e, t)) :
    Admitted e (.func view.state t) ∧ view.SendsAll t := by
  simp only [View.serverContext, Traced.bind_ok, Prod.exists, Traced.pure_ok, Prod.mk.injEq] at hr
  obtain ⟨values, ls, hvalues, _, -, slotted, hfill, hr⟩ := hr
  obtain ⟨rfl, rfl⟩ := hr
  let c : Slice :=
    { view, mode := .lowered, stage := .broadcast, slot, state := some (.ref x view.state) }
  have hlowers : c.Lowers view p [(x, view.state)] := by
    refine h.lowers (by simpa using hx) rfl rfl (fun e he => ?_) (by simp [c]) rfl
    cases he
    exact ⟨scoped_ref (by simp), rfl⟩
  have hsteps : ∀ step ∈ view.broadcasts, ∃ t, step.Sends t ∧
      c.Emits [(x, view.state)] (view.steps.map Step.name) (c.channelValue step) t := by
    intro step hs
    obtain ⟨b, e, t, hb, hhead, he, hsends⟩ := h.broadcast hs
    exact ⟨t, hsends, hlowers.channelValue hb hhead he⟩
  obtain ⟨ts, hts⟩ := exists_forall₂ hsteps
  have hemits := List.forall₂_map_left_iff.mpr (hts.imp fun _ _ h => h.2)
  rw [Slice.channelValues, Slice.mapM_eq] at hvalues
  obtain ⟨hext, hes⟩ := Slice.emits_sequence hemits Slice.emitted_nil hvalues
  have hpack := hasType_pack rfl hes
  exact ⟨fillSlot_admitted hfill (hext.emitted.closeOver hpack), ts,
    hts.imp fun _ _ h => h.1, hpack.ty⟩

theorem Slice.Lowers.broadcastResults {source : Expr} (h : c.Lowers view p Δ)
    (hsource : source.Scoped Δ) (hsends : view.SendsAll source.ty) :
    (view.broadcastResults source c).Lowers view p Δ := by
  obtain ⟨ts, hts, hty⟩ := hsends
  have hmem : ∀ step ∈ view.broadcasts, step ∈ view.steps :=
    fun step hs => (List.mem_filter.mp hs).1
  have indexed :
      source.ty = (Ty.tuple ts).lower → (view.indexedBroadcasts source c).Lowers view p Δ := by
    intro hty
    rw [Ty.lower, Ty.lowerList_eq] at hty
    refine List.foldlRecOn
      (motive := fun c : Slice => c.Lowers view p Δ) _ _ h fun c h pair hpair => ?_
    obtain ⟨step, n⟩ := pair
    have hn := List.mem_zipIdx_iff_getElem?.mp hpair
    obtain ⟨t, ht, m, flag, rfl, hstep⟩ := forall₂_getElem? hts hn
    have hm : (ts.map Ty.lower)[n]? = some m := by simp [ht, Ty.lower]
    exact h.withInput (hmem step (List.mem_of_getElem? hn)) hstep (scoped_field hsource hty hm)
      (ty_field hty hm)
  generalize hb : view.broadcasts = steps at hts
  cases hts with
  | nil =>
    simp only [View.broadcastResults, hb]
    exact indexed hty
  | cons hstep hsteps =>
    cases hsteps with
    | nil =>
      obtain ⟨m, flag, rfl, hvalue⟩ := hstep
      simp only [View.broadcastResults, hb]
      exact h.withInput (hmem _ (by simp [hb])) hvalue hsource hty
    | cons =>
      simp only [View.broadcastResults, hb]
      exact indexed hty

theorem View.Scoped.lowers_participant {own context : Expr} {stage : Stage} (h : view.Scoped p)
    (hΔ : ∀ x ∈ Δ.map Prod.fst, x ∉ view.names.used) (hown : own.Scoped Δ)
    (hty : own.ty = view.data) (hcontext : context.Scoped Δ) (hsends : view.SendsAll context.ty) :
    (view.broadcastResults context { view, mode := .lowered, stage, slot, data := some own }).Lowers
    view p Δ := by
  refine Slice.Lowers.broadcastResults (h.lowers hΔ rfl rfl (by simp) (fun e he => ?_) rfl)
    hcontext hsends
  cases he
  exact ⟨hown, hty⟩

theorem View.Scoped.broadcastParts {parts : Broadcast Expr} (h : view.Scoped p)
    (hr : view.broadcastParts.result = .ok parts) :
    ∃ f c o, Form.BroadcastChecked parts f view.state c view.data o := by
  simp only [View.broadcastParts, Traced.bind_ok] at hr
  obtain ⟨_, -, _, -, hr⟩ := hr
  split at hr
  · exact absurd hr Traced.fail_ok
  rename_i output houtput
  simp only [Traced.bind_ok, Prod.exists] at hr
  obtain ⟨_, -, _, -, context, c, hcontext, _, -, hr⟩ := hr
  split at hr
  · exact absurd hr Traced.fail_ok
  simp only [Traced.bind_ok, Prod.exists, Traced.pure_ok] at hr
  obtain ⟨result, ls, hresult, processing, hprocessing, _, -, rfl⟩ := hr
  obtain ⟨hx, hused⟩ := Names.fresh_avoids "state" (List.Subset.refl view.names.used)
  obtain ⟨hy, -⟩ := Names.fresh_avoids "arg" hused
  obtain ⟨hcontext, hsends⟩ := h.serverContext hx hcontext
  have harg : ∀ y, (ref y (.tuple [c, view.data])).Scoped [(y, .tuple [c, view.data])] :=
    fun y => scoped_ref (by simp)
  obtain ⟨hext, htype⟩ :=
    (h.lowers_participant (by simpa using hy) (scoped_field (n := 1) (harg _) rfl rfl) rfl
    (scoped_field (n := 0) (harg _) rfl rfl) hsends).value ⟨h.result, rfl⟩ Slice.emitted_nil hresult
  have hprocessing := fillSlot_admitted hprocessing (hext.emitted.closeOver htype)
  exact ⟨⟨_, _⟩, c, output, hcontext.part, hprocessing.part, hcontext.ty, hprocessing.ty⟩

/-- A participant's value for an aggregation, of type `t` in the round; nothing if there is no
aggregation. -/
def View.Contributes (view : View) (p : Ty) : Option Step → Ty → Prop
  | none, t => t = .empty
  | some step, t => ∃ b e, step.boundary = some b ∧ b.args.head? = some e ∧ view.Part p e t

/-- The result of an aggregation is `t` at the coordinator. -/
def View.Totals (view : View) (step : Option Step) (t : Ty) : Prop :=
  ∀ a ∈ step, a ∈ view.steps ∧ a.value.ty = .atCoordinator t

theorem View.Aggregates.contributes {op : Crossing} {ts : List Ty}
    (h : view.Aggregates p op step (t :: ts)) :
    view.Contributes p (some step) t := by
  obtain ⟨b, hb, hargs⟩ := h.args
  obtain ⟨e, es, he, -, hargs⟩ := List.forall₂_cons_right_iff.mp hargs
  exact ⟨b, e, hb, by simp [hargs], he⟩

theorem Slice.Lowers.clientValue {step : Option Step} (h : c.Lowers view p Δ)
    (ht : view.Contributes p step t) :
    c.Emits Δ (view.steps.map Step.name) (View.clientValue c step) t := by
  cases step with
  | none =>
    obtain rfl := ht
    exact Slice.emits_pure (hasType_tuple .nil)
  | some step =>
    obtain ⟨b, e, hb, hhead, he⟩ := ht
    exact h.channelValue hb hhead he

theorem View.Scoped.staticArgument {op : Crossing} {ts : List Ty} {n : Nat} (h : view.Scoped p)
    (ha : view.Aggregates p op step ts) (hn : ts[n]? = some t)
    (hr : (Slice.staticArgument view step n slot).result = .ok (e, ls)) :
    (mkBlock ls e).Scoped [] ∧ (mkBlock ls e).ty = t.lower := by
  obtain ⟨b, hb, hargs⟩ := ha.args
  obtain ⟨a, hget, hpart⟩ := forall₂_getElem? hargs.flip hn
  simp only [Slice.staticArgument, hb, Option.bind_some, hget] at hr
  have hlowers : Slice.Lowers { view, mode := .lowered, stage := .aggregation, slot } view p [] :=
    h.lowers (by simp) rfl rfl (by simp) (by simp) rfl
  obtain ⟨hext, htype⟩ := hlowers.value hpart Slice.emitted_nil hr
  exact ⟨hext.emitted.chain.mkBlock htype.inScope, ty_mkBlock.trans htype.ty⟩

structure Aggregation.Admitted (total : Aggregation) (u : Ty) : Prop where
  zero : Round.Admitted total.zero (.thunk total.accumulatorTy)
  accumulate :
    Round.Admitted total.accumulate (.func (.tuple [total.accumulatorTy, u]) total.accumulatorTy)
  merge : Round.Admitted total.merge
    (.func (.tuple [total.accumulatorTy, total.accumulatorTy]) total.accumulatorTy)
  report : Round.Admitted total.report (.func total.accumulatorTy total.reportTy)

theorem View.Scoped.plainAggregation {total : Aggregation} (h : view.Scoped p)
    (hs : view.aggregation? .aggregate = some step)
    (hr : (view.plainAggregation step u).result = .ok total) :
    total.Admitted u ∧ view.Totals (some step) total.reportTy := by
  obtain ⟨ts, hagg⟩ := h.aggregation hs
  obtain ⟨m, flag, z, q, hts, hty, -, -⟩ := aggregateResult_ok hagg.result
  obtain rfl := Ty.tuple.inj hts
  simp only [View.plainAggregation, Traced.bind_ok, Prod.exists, Traced.pure_ok] at hr
  obtain ⟨_, ⟨zero, ls₁, hzero, rfl⟩, _, -, _, hzeroSlot, _, ⟨acc, ls₂, hacc, rfl⟩, _, haccSlot,
    _, ⟨merge, ls₃, hmerge, rfl⟩, _, hmergeSlot, _, ⟨report, ls₄, hreport, rfl⟩, _, -, _,
    hreportSlot, rfl⟩ := hr
  obtain ⟨hzero, -⟩ := h.staticArgument hagg rfl hzero
  obtain ⟨hacc, -⟩ := h.staticArgument hagg rfl hacc
  obtain ⟨hmerge, -⟩ := h.staticArgument hagg rfl hmerge
  obtain ⟨hreport, hreportTy⟩ := h.staticArgument hagg rfl hreport
  refine ⟨⟨fillSlot_admitted hzeroSlot (scoped_delay hzero), fillSlot_admitted haccSlot hacc,
    fillSlot_admitted hmergeSlot hmerge, fillSlot_admitted hreportSlot hreport⟩, ?_⟩
  rintro a ⟨⟩
  have hq : resultOf (mkBlock ls₄ report) = q := by
    simp [resultOf, hreportTy, Ty.lower, Ty.signature?]
  exact ⟨hagg.mem, hty.trans (congrArg Ty.atCoordinator hq.symm)⟩

theorem emptyAggregation_admitted {total : Aggregation}
    (hr : (View.emptyAggregation x).result = .ok total) :
    total.Admitted .empty := by
  simp only [View.emptyAggregation, Traced.bind_ok, Traced.pure_ok] at hr
  obtain ⟨_, -, _, -, _, -, rfl⟩ := hr
  -- these parts are put in as they are, so that nothing has shown them to be sealed
  have admitted : ∀ {e : Expr}, e.Scoped [] → e.Bare → Round.Admitted e e.ty := fun he hbare =>
    ⟨he.typed, leak?_unplaced.mpr ⟨fun _ => he.closed, hbare⟩, rfl⟩
  have hpair : ∀ y, (ref y (.tuple [.empty, .empty])).Scoped [(y, .tuple [.empty, .empty])] :=
      fun y =>
    scoped_ref (by simp)
  have hfirst : Round.Admitted (mkLambda x (.tuple [.empty, .empty])
      ((ref x (.tuple [.empty, .empty])).field 0)) (.func (.tuple [.empty, .empty]) .empty) :=
    admitted (scoped_lambda (scoped_field (hpair x) rfl rfl))
      (bare_lambda.mpr ⟨rfl, bare_select.mpr ⟨rfl, bare_ref.mpr rfl⟩⟩)
  constructor
  · exact admitted (scoped_delay (scoped_tuple (by simp)))
      (bare_lambda.mpr ⟨rfl, bare_tuple.mpr ⟨rfl, by simp⟩⟩)
  · exact hfirst
  · exact hfirst
  · exact admitted (scoped_lambda (scoped_ref (by simp))) (bare_lambda.mpr ⟨rfl, bare_ref.mpr rfl⟩)

theorem View.Scoped.totalAggregation {total : Aggregation} (h : view.Scoped p)
    (hu : view.aggregation? .aggregate = none → u = .empty)
    (hr : (view.totalAggregation u x).result = .ok total) :
    total.Admitted u ∧ view.Totals (view.aggregation? .aggregate) total.reportTy := by
  unfold View.totalAggregation at hr
  split at hr
  · rename_i step hs
    rw [hs]
    exact h.plainAggregation hs hr
  · rename_i hs
    rw [hu hs, hs]
    exact ⟨emptyAggregation_admitted hr, fun _ ha => absurd ha (by simp)⟩

theorem View.Scoped.secureStep {op : Crossing} (h : view.Scoped p) (ho : op.secureChannel?.isSome)
    (hs : view.aggregation? op = some step) :
    ∃ m q flag, view.Aggregates p op step [.placed m .participants flag, q] ∧ m.isInteger = true ∧
      step.value.ty = .atCoordinator m ∧
      ((∃ q' flag', q = .placed q' .coordinator flag' ∧ q'.isInteger = true) ∨
        q.isInteger = true) := by
  obtain ⟨ts, hagg⟩ := h.aggregation hs
  have hr : Intrinsic.secureSumResult op (.tuple ts) = .ok step.value.ty := by
    have := hagg.result
    cases op <;> first | exact this | cases ho
  obtain ⟨m, q, flag, hts, hm, hty, hq⟩ := secureSumResult_ok hr
  obtain rfl := Ty.tuple.inj hts
  exact ⟨m, q, flag, hagg, hm, hty, hq⟩

theorem View.Scoped.secureSum (h : view.Scoped p) (op : Crossing) (ho : op.secureChannel?.isSome) :
    ∃ t, view.Contributes p (view.aggregation? op) t ∧ t.lower.isInteger = true ∧
      view.Totals (view.aggregation? op) t.lower := by
  cases hs : view.aggregation? op with
  | none => exact ⟨.empty, rfl, rfl, fun _ ha => absurd ha (by simp)⟩
  | some step =>
    obtain ⟨m, q, flag, hagg, hm, hty, -⟩ := h.secureStep ho hs
    refine ⟨.placed m .participants flag, hagg.contributes, hm, ?_⟩
    rintro a ⟨⟩
    exact ⟨hagg.mem, hty⟩

theorem View.Scoped.secureParameter {op : Crossing} {name : String} (h : view.Scoped p)
    (ho : op.secureChannel?.isSome) (hr : (view.secureParameter op name).result = .ok e) :
    ∃ t, Admitted e (.thunk t) ∧ t.isInteger = true := by
  unfold View.secureParameter at hr
  split at hr
  · rename_i step hs
    simp only [Traced.bind_ok, Traced.mapError_ok, Prod.exists] at hr
    obtain ⟨a, ls, ha, _, -, hr⟩ := hr
    obtain ⟨m, q, flag, hagg, -, -, hq⟩ := h.secureStep ho hs
    obtain ⟨hscoped, hty⟩ := h.staticArgument hagg rfl ha
    refine ⟨_, fillSlot_admitted hr (scoped_delay hscoped), ?_⟩
    rw [show resultOf (mkDelay (mkBlock ls a)) = q.lower from hty]
    rcases hq with ⟨q, flag', rfl, hq⟩ | hq
    · exact hq
    · rwa [Ty.lower_of_not_isPlaced (Ty.isPlaced_of_isNumeric (isNumeric_of_isInteger hq))]
  · simp only [Traced.bind_ok, Traced.pure_ok] at hr
    obtain ⟨_, rfl, _, -, hr⟩ := hr
    exact ⟨_, fillSlot_admitted hr (scoped_delay (scoped_tuple (by simp))), rfl⟩

theorem Slice.Lowers.withTotal {step : Option Step} (h : c.Lowers view p Δ)
    (ht : view.Totals step t) (he : e.Scoped Δ) (hty : e.ty = t) :
    Slice.Lowers (step.elim c fun a => c.withInput a.name e) view p Δ := by
  cases step with
  | none => exact h
  | some a =>
    obtain ⟨hmem, hvalue⟩ := ht a rfl
    exact h.withInput hmem hvalue he hty

theorem View.Scoped.lowers_update {R V₁ V₂ V₃ : Ty} (h : view.Scoped p) (hx : x ∉ view.names.used)
    (hreport : view.Totals (view.aggregation? .aggregate) R)
    (h₁ : view.Totals (view.aggregation? .bitwidthSum) V₁)
    (h₂ : view.Totals (view.aggregation? .boundedSum) V₂)
    (h₃ : view.Totals (view.aggregation? .modularSum) V₃) :
    (view.updateSlice x R (.tuple [V₁, V₂, V₃])).Lowers view p
      [(x, .tuple [view.state, .tuple [R, .tuple [V₁, V₂, V₃]]])] := by
  let T : Ty := .tuple [view.state, .tuple [R, .tuple [V₁, V₂, V₃]]]
  have hparam : (ref x T).Scoped [(x, T)] := scoped_ref (by simp)
  have htotals := scoped_field (n := 1) hparam rfl rfl
  have hsums := scoped_field (n := 1) htotals rfl rfl
  have hstart : Slice.Lowers
      { view, mode := .lowered, stage := .result, slot := MapReduce.slots.update,
        state := some ((ref x T).field 0) } view p [(x, T)] := by
    refine h.lowers (by simpa using hx) rfl rfl (fun e he => ?_) (by simp) rfl
    cases he
    exact ⟨scoped_field hparam rfl rfl, rfl⟩
  have hplain := hstart.withTotal hreport (scoped_field (n := 0) htotals rfl rfl) rfl
  have hbitwidth := hplain.withTotal h₁ (scoped_field (n := 0) hsums rfl rfl) rfl
  have hbounded := hbitwidth.withTotal h₂ (scoped_field (n := 1) hsums rfl rfl) rfl
  exact hbounded.withTotal h₃ (scoped_field (n := 2) hsums rfl rfl) rfl

theorem View.Scoped.contribution (h : view.Scoped p) :
    ∃ t, view.Contributes p (view.aggregation? .aggregate) t := by
  cases hs : view.aggregation? .aggregate with
  | none => exact ⟨.empty, rfl⟩
  | some step =>
    obtain ⟨ts, hagg⟩ := h.aggregation hs
    obtain ⟨m, flag, z, q, hts, -⟩ := aggregateResult_ok hagg.result
    obtain rfl := Ty.tuple.inj hts
    exact ⟨_, hagg.contributes⟩

theorem View.Scoped.mapReduceParts {parts : MapReduce Expr} (h : view.Scoped p)
    (hr : view.mapReduceParts.result = .ok parts) : ∃ f C U V₁ V₂ V₃ A R X,
    Form.MapReduceChecked parts f view.state C view.data U V₁ V₂ V₃ A R X := by
  simp only [View.mapReduceParts, Traced.bind_ok] at hr
  obtain ⟨_, -, _, -, hr⟩ := hr
  split at hr
  · exact absurd hr Traced.fail_ok
  rename_i output houtput
  simp only [Traced.bind_ok, Prod.exists, Traced.run_bind_ok, Traced.run_pure_ok, Traced.pure_ok,
    Prod.mk.injEq] at hr
  obtain ⟨_, -, _, -, prepare, C, hprepare, _, -, _, _, _, ⟨update, ls₀, hu, channels, ls, hc,
    ⟨rfl, rfl⟩, rfl⟩, _, -, _, -, work, hwork, _, -, _, -, total, htotal, bitwidth, hbitwidth,
    maxInput, hmaxInput, modulus, hmodulus, _, -, e, ls', he, final, hfinal, _, -, rfl⟩ := hr
  obtain ⟨hx₁, hused₁⟩ := Names.fresh_avoids "state" (List.Subset.refl view.names.used)
  obtain ⟨hx₂, hused₂⟩ := Names.fresh_avoids "arg" hused₁
  obtain ⟨-, hused₃⟩ := Names.fresh_avoids "a" hused₂
  obtain ⟨hx₄, -⟩ := Names.fresh_avoids "update" hused₃
  obtain ⟨hprepare, hsends⟩ := h.serverContext hx₁ hprepare
  -- what one participant does
  have harg : ∀ y, (ref y (.tuple [view.data, C])).Scoped [(y, .tuple [view.data, C])] :=
    fun y => scoped_ref (by simp)
  have hlowers : ∀ y, y ∉ view.names.used →
      (view.workSlice y C).Lowers view p [(y, .tuple [view.data, C])] := fun y hy =>
    h.lowers_participant (by simpa using hy) (scoped_field (n := 0) (harg y) rfl rfl) rfl
      (scoped_field (n := 1) (harg y) rfl rfl) hsends
  obtain ⟨t₀, ht₀⟩ := h.contribution
  obtain ⟨t₁, ht₁, hint₁, htotal₁⟩ := h.secureSum .bitwidthSum rfl
  obtain ⟨t₂, ht₂, hint₂, htotal₂⟩ := h.secureSum .boundedSum rfl
  obtain ⟨t₃, ht₃, hint₃, htotal₃⟩ := h.secureSum .modularSum rfl
  have hclient := hlowers _ hx₂
  obtain ⟨hext₀, hupdate⟩ := hclient.clientValue ht₀ Slice.emitted_nil hu
  rw [Slice.mapM_eq] at hc
  obtain ⟨hext, hchannels⟩ := Slice.emits_sequence (.cons (hclient.clientValue ht₁)
    (.cons (hclient.clientValue ht₂) (.cons (hclient.clientValue ht₃) .nil))) hext₀.emitted hc
  have hwork := fillSlot_admitted hwork (hext.emitted.closeOver
    (hasType_tuple (.cons (hext.hasType hupdate) (.cons (hasType_tuple hchannels) .nil))))
  rw [hclient.mode_eq] at hupdate hchannels
  have htypes : tupleType channels = .tuple [t₁.lower, t₂.lower, t₃.lower] := by
    rcases hchannels with - | ⟨hc₁, - | ⟨hc₂, - | ⟨hc₃, ⟨⟩⟩⟩⟩
    simp [tupleType, hc₁.ty, hc₂.ty, hc₃.ty, Mode.type]
  -- how the results are brought together
  have hnothing : view.aggregation? .aggregate = none → update.ty = .empty := by
    intro hs
    rw [hs] at ht₀
    rw [hupdate.ty, ht₀]
    rfl
  obtain ⟨htotal, hreport⟩ := h.totalAggregation hnothing htotal
  obtain ⟨p₁, hbitwidth, hp₁⟩ := h.secureParameter rfl hbitwidth
  obtain ⟨p₂, hmaxInput, hp₂⟩ := h.secureParameter rfl hmaxInput
  obtain ⟨p₃, hmodulus, hp₃⟩ := h.secureParameter rfl hmodulus
  -- what becomes of the state
  rw [htypes] at he hwork hfinal
  obtain ⟨hext', hresult⟩ := (h.lowers_update hx₄ hreport htotal₁ htotal₂ htotal₃).value
    ⟨h.result, rfl⟩ Slice.emitted_nil he
  have hfinal := fillSlot_admitted hfinal (hext'.emitted.closeOver hresult)
  exact ⟨⟨_, _, _, _, _, _, _, _, _, _⟩, C, update.ty, t₁.lower, t₂.lower, t₃.lower,
    total.accumulatorTy, total.reportTy, output, {
      prepare := hprepare.part
      work := hwork.part
      zero := htotal.zero.part
      accumulate := htotal.accumulate.part
      merge := htotal.merge.part
      report := htotal.report.part
      bitwidth := hbitwidth.part
      maxInput := hmaxInput.part
      modulus := hmodulus.part
      update := hfinal.part
      prepareTy := hprepare.ty
      workTy := hwork.ty
      channels := ⟨hint₁, hint₂, hint₃⟩
      zeroTy := htotal.zero.ty
      accumulateTy := ⟨_, htotal.accumulate.ty, Ty.standsFor_self _⟩
      mergeTy := ⟨_, htotal.merge.ty, Ty.standsFor_self _⟩
      reportTy := htotal.report.ty
      bitwidthTy := ⟨p₁, hbitwidth.ty, hp₁⟩
      maxInputTy := ⟨p₂, hmaxInput.ty, hp₂⟩
      modulusTy := ⟨p₃, hmodulus.ty, hp₃⟩
      updateTy := hfinal.ty }⟩

end TwoTier.Round

namespace TwoTier

namespace Form

theorem BroadcastChecked.inputs {parts : Broadcast Expr} {f : Broadcast Block} {s c d o : Ty}
    (h : BroadcastChecked parts f s c d o) : f.stateType = s ∧ f.dataType = d := by
  simp [Broadcast.stateType, Broadcast.dataType, Block.paramElement, Block.paramOrEmpty,
    (h.context.function h.contextTy).1, (h.processing.function h.processingTy).1,
    Ty.elementOrEmpty, Ty.elements?]

theorem MapReduceChecked.inputs {parts : MapReduce Expr} {f : MapReduce Block}
    {s c d u v₁ v₂ v₃ a r x : Ty} (h : MapReduceChecked parts f s c d u v₁ v₂ v₃ a r x) :
    f.stateType = s ∧ f.dataType = d := by
  simp [MapReduce.stateType, MapReduce.dataType, Block.paramElement, Block.paramOrEmpty,
    (h.prepare.function h.prepareTy).1, (h.work.function h.workTy).1,
    Ty.elementOrEmpty, Ty.elements?]

end Form

open Round in
/-- The map-reduce or broadcast parts of a well-typed round make a form, and it has the state and
the data of the round. -/
theorem parts_make_form {r : Expr} {template : Template} {parts : Parts}
    (ht : template = .mapReduce ∨ template = .broadcast) (hclosed : r.isClosed = true)
    (hc : r.check = .ok ()) (hcalled : r.intrinsicsCalled = true)
    (h : (Round.parts r template).result = .ok parts) :
    ∃ f S D flag R, (Form.ofParts parts).result = .ok f ∧
      r.ty = .func (.tuple [.placed S .coordinator flag, .placed D .participants false]) R ∧
      f.stateType = S ∧ f.dataType = D := by
  simp only [Round.parts, Traced.bind_ok] at h
  obtain ⟨view, hview, _, -, h⟩ := h
  obtain ⟨p, hscoped, hty⟩ :=
    View.ofRound_scoped hview (.of_closed ⟨hc, hcalled⟩ fun z => Expr.isClosed_iff.mp hclosed z)
  obtain ⟨flag, rfl⟩ := inputs?_some hscoped.inputs
  rcases ht with rfl | rfl
  · simp only [Traced.bind_ok, Traced.pure_ok] at h
    obtain ⟨parts, hparts, rfl⟩ := h
    obtain ⟨f, C, U, V₁, V₂, V₃, A, R, X, hchecked⟩ := hscoped.mapReduceParts hparts
    have hf := Form.ofMapReduce_ok.mpr ⟨_, _, _, _, _, _, _, _, _, _, hchecked⟩
    refine ⟨.mapReduce f, view.state, view.data, flag, view.result.ty, ?_, hty, hchecked.inputs⟩
    simp only [Form.ofParts, Traced.bind_ok, Traced.pure_ok]
    exact ⟨f, hf, rfl⟩
  · simp only [Traced.bind_ok, Traced.pure_ok] at h
    obtain ⟨parts, hparts, rfl⟩ := h
    obtain ⟨f, C, O, hchecked⟩ := hscoped.broadcastParts hparts
    have hf := Form.ofBroadcast_ok.mpr ⟨_, _, _, _, hchecked⟩
    refine ⟨.broadcast f, view.state, view.data, flag, view.result.ty, ?_, hty, hchecked.inputs⟩
    simp only [Form.ofParts, Traced.bind_ok, Traced.pure_ok]
    exact ⟨f, hf, rfl⟩

theorem parts_make_form_of_int : (∃ parts f, (Round.parts totals .mapReduce).result = .ok parts ∧
      (Form.ofParts parts).result = .ok f ∧ f.stateType = .int32 ∧ f.dataType = .int32) ∧
    ∃ parts f, (Round.parts additions .broadcast).result = .ok parts ∧
      (Form.ofParts parts).result = .ok f ∧ f.stateType = .int32 ∧ f.dataType = .int32 := by
  constructor
  · obtain ⟨parts, hparts⟩ : ∃ parts, (Round.parts totals .mapReduce).result = .ok parts :=
      except_isOk (by decide +kernel)
    obtain ⟨f, S, D, flag, R, hf, hty, hS, hD⟩ :=
      parts_make_form (.inl rfl) (by decide) rfl (by decide) hparts
    cases hty
    exact ⟨parts, f, hparts, hf, hS, hD⟩
  · obtain ⟨parts, hparts⟩ : ∃ parts, (Round.parts additions .broadcast).result = .ok parts :=
      except_isOk (by decide +kernel)
    obtain ⟨f, S, D, flag, R, hf, hty, hS, hD⟩ :=
      parts_make_form (.inr rfl) (by decide) rfl (by decide) hparts
    cases hty
    exact ⟨parts, f, hparts, hf, hS, hD⟩

end TwoTier

import TwoTier.Proofs.Compile.Broadcast
import TwoTier.Proofs.Compile.DistributeAggregate
import Mathlib.Data.Option.Basic

/-! # Map-reduce forms of rounds

Each participant of a compiled round contributes what it contributes to the aggregations of the
round. The functions and parameters of the aggregations do not depend on the inputs of the round, so
the coordinator of the form has the totals that the round has, and makes of them what the round
does.
-/

namespace TwoTier

open Filter

namespace Round

open Expr

variable {s : Setting} {Z : Prop} {C : List Cell} {view : View} {param : Cell}
  {state result : Value} {data : List Value} {e : Expr} {t u : Ty} {x : String}
  {ls : List (String × Expr)} {op : Crossing}

theorem Step.Gathers.argument {step : Step} {g : Gathered} {n : Nat} {tv : Ty × Value}
    (h : step.Gathers s Z param C g) (hn : g.args[n]? = some tv) :
    ∃ b e, step.boundary = some b ∧ b.args[n]? = some e ∧ e.ty = tv.1 ∧
    Means s Z (param :: C) e tv.2 := by
  obtain ⟨b, hb, hargs, -⟩ := h.boundary
  obtain ⟨e, he, hty, hm⟩ := forall₂_getElem? hargs.flip hn
  exact ⟨b, e, hb, he, hty, hm⟩

def Slot.alone (s : Setting) (C : List Cell) : Slot where
  setting := s
  mode := .lowered
  index := 0
  cells := C
  start := fun _ => True

theorem View.Run.staticArgument {step : Step} {g : Gathered} {n : Nat}
    {slot : String} {tv : Ty × Value} (h : view.Run s Z param C state data result)
    (hi : 0 < s.participants ∨ Z) (hg : step.Gathers s Z param C g) (hn : g.args[n]? = some tv)
    (hr : (Slice.staticArgument view step n slot).result = .ok (e, ls)) :
    e.ty = tv.1.lower ∧ ∃ w, Runs s (.expr [] (mkBlock ls e)) w ∧ Lowers s 0 tv.1 tv.2 w := by
  obtain ⟨b, a, hb, ha, hty, hm⟩ := hg.argument hn
  simp only [Slice.staticArgument, hb, Option.bind_some, ha] at hr
  have hsees :
      (Slot.alone s C).Sees Z { view, mode := .lowered, stage := .aggregation, slot } param :=
    View.Run.sees (k := Slot.alone s C) h rfl rfl (fun _ => hi) (by simp) (by simp) rfl
  obtain ⟨-, hl, hs⟩ := hsees.value hm .nil hr
  have hstart : (Slot.alone s C).start [] := trivial
  obtain ⟨env, hbinds, hgood⟩ := hl.binds hstart (fun _ _ _ _ _ => trivial) h.denotes.cells_nodup
  obtain ⟨w, hw, hvw⟩ := hs.runs env hgood
  rw [hty] at hs hvw
  exact ⟨hs.ty, w, runs_mkBlock.mpr ⟨env, hbinds, hw⟩, hvw⟩

/-- The step aggregates by the operation `op`. -/
def Step.Performs (s : Setting) (Z : Prop) (param : Cell) (C : List Cell) (op : Crossing)
    (step : Step) (g : Gathered) : Prop :=
  step.Gathers s Z param C g ∧ step.op? = some op

theorem View.Run.aggregation? (h : view.Run s Z param C state data result) (op : Crossing) :
    ∃ o, Option.Rel (Step.Performs s Z param C op) (view.aggregation? op) o := by
  cases hop : view.aggregation? op with
  | none => exact ⟨none, .none⟩
  | some step =>
    obtain ⟨gs, hgs⟩ := h.denotes.gathers
    obtain ⟨g, -, hg⟩ := forall₂_mem hgs (List.mem_of_find?_eq_some hop)
    exact ⟨some g, .some ⟨hg, by simpa using List.find?_some hop⟩⟩

def contribution : Option Gathered → Ty × Value
  | some g => g.first
  | none => (.empty, .tuple [])

/-- Each participant contributes as in the round. -/
def Contributes (s : Setting) (o : Option Gathered) (ws : List Value) : Prop :=
  ws.length = s.participants ∧
    ∀ (i : Nat) w, ws[i]? = some w → Lowers s i (contribution o).1 (contribution o).2 w

theorem Slot.Sees.clientValue {k : Slot} {c : Slice} {step : Option Step} {o : Option Gathered}
    (h : k.Sees Z c param) (ho : Option.Rel (Step.Performs k.setting Z param k.cells op) step o) :
    k.Yields (View.clientValue c step) (contribution o).1 (contribution o).2 := by
  cases ho with
  | some hg => exact h.yields_first hg.1
  | none => exact Slot.yields_pure (Slot.shows_tuple .nil)

theorem Contributes.similar {g : Gathered} {m : Ty} {flag : Bool} {us ws : List Value}
    (h : Contributes s (some g) ws) (hg : g.first = (.placed m .participants flag, .atClients us))
    (hus : us.length = s.participants) : List.Forall₂ (Similar s m) us ws := by
  refine forall₂_of_getElem? (hus.trans h.1.symm) fun i u w hu hw => ?_
  have hlow := h.2 i w hw
  simp only [contribution, hg, Lowers] at hlow
  obtain ⟨_, u', ⟨⟩, hu', huw⟩ := hlow
  cases hu.symm.trans hu'
  exact huw

theorem Contributes.nothing {ws : List Value} (h : Contributes s none ws) :
    ∀ w ∈ ws, w = .tuple [] := by
  intro w hw
  obtain ⟨i, hi⟩ := List.getElem?_of_mem hw
  obtain ⟨_, _, ⟨⟩, rfl, -, rfl⟩ := h.2 i w hi
  rfl

/-- The coordinator of the form has `w` of type `t` where the round has the result of the step. -/
def Totals (s : Setting) (C : List Cell) (step : Option Step) (t : Ty) (w : Value) : Prop :=
  ∀ a ∈ step, ∃ c ∈ C, c.name = a.name ∧ ∃ m v, c.ty = .atCoordinator m ∧ c.value = .atServer v ∧
    t = m ∧ Similar s m v w

theorem Step.Gathers.participants {step : Step} {g : Gathered} {m : Ty}
    {flag : Bool} {us : List Value} (h : step.Gathers s Z param C g)
    (hg : g.args.head? = some (.placed m .participants flag, .atClients us)) :
    us.length = s.participants ∧ ∀ u ∈ us, Inhabits s m u := by
  obtain ⟨_, e, -, -, hty, hm⟩ := h.argument (n := 0) (List.head?_eq_getElem? ▸ hg)
  have hin := hm.inhabits
  rw [hty] at hin
  obtain ⟨_, _, ⟨⟩, ⟨⟩, hlen, hus⟩ := hin
  exact ⟨hlen, fun u hu => List.forall₂_same.mp hus u hu⟩

theorem Step.Performs.secureSum {step : Step} {g : Gathered}
    (h : step.Performs s Z param C op g) (ho : op.secureChannel?.isSome) :
    ∃ m flag us p y total, g.args = [(.placed m .participants flag, .atClients us), (p, y)] ∧
      m.isInteger = true ∧ us.length = s.participants ∧ (∀ u ∈ us, Inhabits s m u) ∧
      g.cell.ty = .atCoordinator m ∧ g.cell.value = .atServer total ∧
      Value.secureSum op m us y.held = .ok total ∧
      ((∃ q e', p = .placed q .coordinator e' ∧ q.isInteger = true) ∨ p.isInteger = true) := by
  obtain ⟨hg, hop⟩ := h
  obtain ⟨b, hb, hargs, hres, hv⟩ := hg.boundary
  obtain rfl : b.op = op := by simpa [Step.op?, hb] using hop
  have hres' : Intrinsic.secureSumResult b.op (.tuple (g.args.map Prod.fst)) = .ok g.cell.ty := by
    cases hcase : b.op <;> simp [hcase, Crossing.secureChannel?] at ho <;>
      simpa [hcase, Intrinsic.resultType] using hres
  obtain ⟨m, p, flag, htys, hm, hty, hp⟩ := secureSumResult_ok hres'
  obtain ⟨us, y, m', total, hvs, hm', htotal, hvalue⟩ := (runs_secureSum ho).mp hv
  have hzip : g.args = [(.placed m .participants flag, .atClients us), (p, y)] :=
    List.zip_of_prod (Ty.tuple.inj htys) (Value.tuple.inj hvs)
  rw [hty] at hm'
  obtain rfl : m = m' := by simpa [Ty.signature?, Ty.atCoordinator, Ty.place, Ty.member?] using hm'
  obtain ⟨hlen, hus⟩ := hg.participants (congrArg List.head? hzip)
  exact ⟨m, flag, us, p, y, total, hzip, hm, hlen, hus, hty, hvalue, htotal, hp⟩

theorem held_eq_of_lowers {p : Ty} {y w : Value} (h : Lowers s 0 p y w)
    (hp : (∃ q e, p = .placed q .coordinator e ∧ q.isInteger = true) ∨ p.isInteger = true) :
    y.held = w := by
  rcases hp with ⟨q, flag, rfl, hq⟩ | hp
  · obtain ⟨u, rfl, hu⟩ := h
    exact (hu.eq_of_isNumeric (isNumeric_of_isInteger hq)).symm
  · have hnum := isNumeric_of_isInteger hp
    rw [lowers_of_not_isPlaced (Ty.isPlaced_of_isNumeric hnum)] at h
    obtain rfl := h.eq_of_isNumeric hnum
    cases w with
    | atServer v => cases p <;> simp_all [Similar, Value.isScalar, Ty.isNumeric]
    | _ => rfl

theorem secureSum_nothing {ws : List Value} {p : Value} (h : ∀ w ∈ ws, w = .tuple []) :
    Value.secureSum op .empty ws p = .ok (.tuple []) := by
  cases ws with
  | nil => rfl
  | cons w ws =>
    obtain rfl := h w (by simp)
    rfl

theorem View.Run.secureParameter {o : Option Gathered} {ws : List Value} {name : String}
    (h : view.Run s Z param C state data result)
    (hi : 0 < s.participants ∨ Z) (ho : op.secureChannel?.isSome)
    (hop : Option.Rel (Step.Performs s Z param C op) (view.aggregation? op) o)
    (hws : Contributes s o ws) (hr : (view.secureParameter op name).result = .ok e) :
    ∃ p t, Applies s e none p ∧
      Value.secureSum op (contribution o).1.lower ws p = .ok t ∧
      Totals s C (view.aggregation? op) (contribution o).1.lower t := by
  unfold View.secureParameter at hr
  generalize view.aggregation? op = step at hop hr ⊢
  cases hop with
  | @some step g hg =>
    simp only [Traced.bind_ok, Prod.exists, Traced.mapError_ok] at hr
    obtain ⟨e, ls, hstatic, _, -, hfill⟩ := hr
    obtain ⟨rfl, -⟩ := fillSlot_ok hfill
    obtain ⟨m, flag, us, p, y, total, hargs, hm, hlen, hus, hty, hvalue, htotal, hp⟩ :=
      hg.secureSum ho
    have hfirst : g.first = (.placed m .participants flag, .atClients us) := (List.cons.inj hargs).1
    have hsecond : g.args[1]? = some (p, y) := by rw [hargs]; rfl
    obtain ⟨-, w, hw, hyw⟩ := h.staticArgument hi hg.1 hsecond hstatic
    obtain rfl := forall₂_eq_of_isNumeric (hws.similar hfirst hlen) (isNumeric_of_isInteger hm)
    rw [held_eq_of_lowers hyw hp] at htotal
    refine ⟨w, total, applies_delay.mpr hw, by simpa [contribution, hfirst, Ty.lower] using htotal,
      ?_⟩
    rintro _ ⟨⟩
    exact ⟨g.cell, hg.1.mem, hg.1.name, m, total, hty,
      hvalue, by simp [contribution, hfirst, Ty.lower], inhabits_secureSum hm hus htotal⟩
  | none =>
    simp only [Traced.bind_ok, Traced.pure_ok] at hr
    obtain ⟨_, rfl, _, -, hfill⟩ := hr
    obtain ⟨rfl, -⟩ := fillSlot_ok hfill
    exact ⟨.tuple [], .tuple [], applies_delay.mpr (runs_tuple.mpr ⟨[], .nil, rfl⟩),
      secureSum_nothing hws.nothing, by simp [Totals]⟩

theorem Step.Performs.aggregate {step : Step} {g : Gathered}
    (h : step.Performs s Z param C .aggregate g) :
    ∃ m flag z q us zero accumulate merge report total r,
      g.args = [(.placed m .participants flag, .atClients us), (z, zero),
        (.func (.tuple [z, m]) z, accumulate),
        (.func (.tuple [z, z]) z, merge), (.func z q, report)] ∧ z.isPlaced = false ∧
      us.length = s.participants ∧ g.cell.ty = .atCoordinator q ∧ g.cell.value = .atServer r ∧
      Aggregates s us zero accumulate merge total ∧ Runs s (.call report (some total)) r := by
  obtain ⟨hg, hop⟩ := h
  obtain ⟨b, hb, hargs, hres, hv⟩ := hg.boundary
  have hb' : b.op = .aggregate := by simpa [Step.op?, hb] using hop
  rw [hb'] at hres hv
  obtain ⟨m, flag, z, q, htys, hty, hz, -⟩ := aggregateResult_ok hres
  obtain ⟨us, zero, accumulate, merge, report, total, r, hvs, hvalue, htotal, hr⟩ :=
    runs_aggregate.mp hv
  have hzip := List.zip_of_prod (Ty.tuple.inj htys) (Value.tuple.inj hvs)
  obtain ⟨hlen, -⟩ := hg.participants (congrArg List.head? hzip)
  exact ⟨m, flag, z, q, us, zero, accumulate, merge, report, total, r, hzip, hz, hlen, hty,
    hvalue, htotal, hr⟩

/-- The functions of an aggregation, run on the given contributions. -/
def Aggregation.Yields (s : Setting) (a : Aggregation) (ws : List Value) (r : Value) : Prop :=
  ∃ zero accumulate merge total, Applies s a.zero none zero ∧
    Runs s (.expr [] a.accumulate) accumulate ∧
    Runs s (.expr [] a.merge) merge ∧ Aggregates s ws zero accumulate merge total ∧
    Applies s a.report (some total) r

theorem View.Run.plainAggregation {step : Step} {g : Gathered} {ws : List Value}
    {total : Aggregation} (h : view.Run s Z param C state data result) (hi : 0 < s.participants ∨ Z)
    (hg : step.Performs s Z param C .aggregate g) (hws : Contributes s (some g) ws)
    (hr : (view.plainAggregation step u).result = .ok total) :
    ∃ r, total.Yields s ws r ∧ Totals s C (some step) total.reportTy r := by
  simp only [View.plainAggregation, Traced.bind_ok, Prod.exists, Traced.pure_ok] at hr
  obtain ⟨_, ⟨e₁, ls₁, h₁, rfl⟩, _, -, zero, hzero, _, ⟨e₂, ls₂, h₂, rfl⟩, accumulate, haccumulate,
    _, ⟨e₃, ls₃, h₃, rfl⟩, merge, hmerge, _, ⟨e₄, ls₄, h₄, rfl⟩, _, -, report, hreport, rfl⟩ := hr
  obtain ⟨rfl, -⟩ := fillSlot_ok hzero
  obtain ⟨rfl, -⟩ := fillSlot_ok haccumulate
  obtain ⟨rfl, -⟩ := fillSlot_ok hmerge
  obtain ⟨rfl, -⟩ := fillSlot_ok hreport
  obtain ⟨m, flag, z, q, us, zero, accumulate, merge, report, total, r, hargs, hz, hlen, hty,
      hvalue, htotal, hr⟩ :=
    hg.aggregate
  have hus := hws.similar (List.cons.inj hargs).1 hlen
  have hat (n : Nat) := congrArg (fun args : List (Ty × Value) => args[n]?) hargs
  obtain ⟨-, zero', hzero', hz'⟩ := h.staticArgument hi hg.1 (hat 1) h₁
  obtain ⟨-, accumulate', haccumulate', hacc⟩ := h.staticArgument hi hg.1 (hat 2) h₂
  obtain ⟨-, merge', hmerge', hmer⟩ := h.staticArgument hi hg.1 (hat 3) h₃
  obtain ⟨hreportTy, report', hreport', hrep⟩ := h.staticArgument hi hg.1 (hat 4) h₄
  rw [lowers_of_not_isPlaced hz] at hz'
  obtain ⟨total', htotal', ht⟩ := htotal.similar hus hz' hacc hmer
  obtain ⟨r', hr', hrr⟩ := (hrep.2.2 total total' ht).2 r hr
  refine ⟨r', ⟨zero', accumulate', merge', total', applies_delay.mpr hzero', haccumulate', hmerge',
    htotal', report', hreport', hr'⟩, ?_⟩
  rintro _ ⟨⟩
  have hq : resultOf (mkBlock ls₄ e₄) = q := by simp [resultOf, hreportTy, Ty.lower, Ty.signature?]
  exact ⟨g.cell, hg.1.mem, hg.1.name, q, r, hty, hvalue, hq, hrr⟩

theorem runs_fold_of_keeps {f z : Value} (hf : ∀ u, Runs s (.call f (some (.tuple [z, u]))) z)
    (us : List Value) :
    Runs s (.fold f z us) z := by
  induction us with
  | nil => exact .foldNil
  | cons u us ih => exact .foldCons (hf u) ih

theorem aggregates_of_keeps {f z : Value} (hf : ∀ u, Runs s (.call f (some (.tuple [z, u]))) z)
    (us : List Value) :
    Aggregates s us z f f z := by
  refine ⟨(Eval.groups s.groupSize us).map fun _ => z, ?_, ?_⟩
  · rw [List.forall₂_map_right_iff, List.forall₂_same]
    exact fun us _ => runs_fold_of_keeps hf us
  · cases Eval.groups s.groupSize us <;> exact runs_fold_of_keeps hf _

theorem emptyAggregation_yields {total : Aggregation}
    (hr : (View.emptyAggregation x).result = .ok total) (ws : List Value) :
    total.Yields s ws (.tuple []) := by
  simp only [View.emptyAggregation, Traced.bind_ok, Traced.pure_ok] at hr
  obtain ⟨_, -, _, -, _, -, rfl⟩ := hr
  let pair := Ty.tuple [.empty, .empty]
  obtain ⟨f, hf, hkeep⟩ : ∃ f, Runs s (.expr [] (mkLambda x pair ((ref x pair).field 0))) f ∧
      ∀ u, Runs s (.call f (some (.tuple [.tuple [], u]))) (.tuple []) := by
    refine ⟨_, runs_lambda.mpr rfl, fun u => runs_closure.mpr ?_⟩
    have hx : Runs s (.expr (Env.enter (some x) (some (.tuple [.tuple [], u])) []) (ref x pair))
        (.tuple [.tuple [], u]) :=
      runs_ref.mpr (by simp [Env.enter])
    exact runs_field hx rfl
  exact ⟨.tuple [], f, f, .tuple [], applies_delay.mpr (runs_tuple.mpr ⟨[], .nil, rfl⟩), hf, hf,
    aggregates_of_keeps hkeep ws, applies_lambda.mpr (runs_ref.mpr (by simp))⟩

theorem View.Run.totalAggregation {o : Option Gathered} {ws : List Value} {total : Aggregation}
    (h : view.Run s Z param C state data result) (hi : 0 < s.participants ∨ Z)
    (ho : Option.Rel (Step.Performs s Z param C .aggregate) (view.aggregation? .aggregate) o)
    (hws : Contributes s o ws) (hr : (view.totalAggregation u x).result = .ok total) :
    ∃ r, total.Yields s ws r ∧ Totals s C (view.aggregation? .aggregate) total.reportTy r := by
  unfold View.totalAggregation at hr
  generalize view.aggregation? .aggregate = step at ho hr ⊢
  cases ho with
  | some hg => exact h.plainAggregation hi hg hws hr
  | none => exact ⟨_, emptyAggregation_yields hr ws, by simp [Totals]⟩

section Work

variable {tvs : List (Ty × Value)} {context : Value} {update : Expr} {channels : List Expr}
  {ls₀ : List (String × Expr)} {o o₁ o₂ o₃ : Option Gathered}

theorem View.Run.sees_work {k : Slot} (h : view.Run k.setting Z param k.cells state data result)
    (hmode : k.mode = .lowered) (hi : k.index < k.setting.participants ∨ Z)
    (hdel : List.Forall₂ (Step.Delivers k.setting k.cells) view.broadcasts tvs)
    (hcarry : Carries k.setting tvs t context)
    (hstart : ∀ env, k.start env → ∃ d, data[k.index]? = some d ∧
      env.lookup x = some (.pair d context)) :
    k.Sees Z (view.workSlice x t) param := by
  refine View.Run.sees_participant h hmode hi hdel hcarry rfl
    (fun env henv => ?_) rfl fun env henv => ?_
  · obtain ⟨d, -, hx⟩ := hstart env henv
    exact runs_field (n := 1) (runs_ref.mpr hx) rfl
  · obtain ⟨d, hd, hx⟩ := hstart env henv
    exact ⟨d, hd, runs_field (n := 0) (runs_ref.mpr hx) rfl⟩

/-- The aggregations of the round, one of each kind at most. -/
structure View.Gathers (s : Setting) (Z : Prop) (param : Cell) (C : List Cell) (view : View)
    (o o₁ o₂ o₃ : Option Gathered) : Prop where
  plain : Option.Rel (Step.Performs s Z param C .aggregate) (view.aggregation? .aggregate) o
  bitwidth : Option.Rel (Step.Performs s Z param C .bitwidthSum) (view.aggregation? .bitwidthSum) o₁
  bounded : Option.Rel (Step.Performs s Z param C .boundedSum) (view.aggregation? .boundedSum) o₂
  modular : Option.Rel (Step.Performs s Z param C .modularSum) (view.aggregation? .modularSum) o₃

theorem Slot.Sees.clientValues {k : Slot} {c : Slice} (h : k.Sees Z c param)
    (ho : view.Gathers k.setting Z param k.cells o o₁ o₂ o₃)
    (hu : ((View.clientValue c (view.aggregation? .aggregate)).run []).result = .ok (update, ls₀))
    (hc : (((Crossing.secureSums.map view.aggregation?).mapM (View.clientValue c)).run ls₀).result =
      .ok (channels, ls)) :
    k.Locals ls ∧ k.Shows ls update (contribution o).1 (contribution o).2 ∧
      List.Forall₂ (fun e tv => k.Shows ls e tv.1 tv.2) channels
      [contribution o₁, contribution o₂, contribution o₃] := by
  obtain ⟨-, hl₀, hupdate⟩ := h.clientValue ho.plain .nil hu
  obtain ⟨⟨ds, rfl⟩, hl, hchannels⟩ := Slot.yields_mapM (.cons (h.clientValue ho.bitwidth)
    (.cons (h.clientValue ho.bounded) (.cons (h.clientValue ho.modular) .nil))) hl₀ hc
  exact ⟨hl, hupdate.append, hchannels⟩

/-- A slot that is never entered tells the types. -/
def Slot.unentered (s : Setting) (C : List Cell) : Slot where
  setting := s
  mode := .lowered
  index := 0
  cells := C
  start := fun _ => False

/-- What participant `i` contributes in the form is what it contributes in the round. -/
structure Output (s : Setting) (o o₁ o₂ o₃ : Option Gathered) (i : Nat)
    (w : Value × Value × Value × Value) : Prop where
  update : Lowers s i (contribution o).1 (contribution o).2 w.1
  bitwidth : Lowers s i (contribution o₁).1 (contribution o₁).2 w.2.1
  bounded : Lowers s i (contribution o₂).1 (contribution o₂).2 w.2.2.1
  modular : Lowers s i (contribution o₃).1 (contribution o₃).2 w.2.2.2

theorem View.Run.work (h : view.Run s Z param C state data result) (hi : 0 < s.participants ∨ Z)
    (hdel : List.Forall₂ (Step.Delivers s C) view.broadcasts tvs) (hcarry : Carries s tvs t context)
    (ho : view.Gathers s Z param C o o₁ o₂ o₃) (hx : x ∉ view.names.used)
    (hu : ((View.clientValue (view.workSlice x t) (view.aggregation? .aggregate)).run []).result =
    .ok (update, ls₀)) (hc : (((Crossing.secureSums.map view.aggregation?).mapM
    (View.clientValue (view.workSlice x t))).run ls₀).result =
      .ok (channels, ls)) :
    update.ty = (contribution o).1.lower ∧ tupleType channels =
      .tuple [(contribution o₁).1.lower, (contribution o₂).1.lower, (contribution o₃).1.lower] ∧
    ∃ outputs, List.Forall₂ (fun d w => Applies s (closeOver x (.tuple [view.data, t])
        (mkTuple [update, mkTuple channels]) ls) (some (.pair d context))
        (.pair w.1 (.tuple [w.2.1, w.2.2.1, w.2.2.2]))) data outputs ∧ ∀ i w, outputs[i]? = some w →
        Output s o o₁ o₂ o₃ i w := by
  obtain ⟨-, hupdate, hchannels⟩ :=
    (View.Run.sees_work (k := Slot.unentered s C) h rfl hi hdel hcarry fun _ hf =>
    hf.elim).clientValues ho hu hc
  refine ⟨hupdate.ty, (Slot.shows_tuple hchannels).ty, ?_⟩
  have one : ∀ p ∈ data.zipIdx, ∃ w : Value × Value × Value × Value,
      Applies s (closeOver x (.tuple [view.data, t]) (mkTuple [update, mkTuple channels]) ls)
      (some (.pair p.1 context)) (.pair w.1 (.tuple [w.2.1, w.2.2.1, w.2.2.2])) ∧
      Output s o o₁ o₂ o₃ p.2 w := by
    rintro ⟨d, i⟩ hp
    have hd : data[i]? = some d := List.mem_zipIdx_iff_getElem?.mp hp
    let k := Slot.over s .lowered i C x (.pair d context)
    have hsees : k.Sees Z (view.workSlice x t) param := View.Run.sees_work (k := k) h rfl
      (.inl (h.participants ▸ (List.getElem?_eq_some_iff.mp hd).1)) hdel hcarry fun env henv =>
      ⟨d, hd, henv⟩
    obtain ⟨hl, hupdate, hchannels⟩ := hsees.clientValues ho hu hc
    have hpair : List.Forall₂ (fun e tv => k.Shows ls e tv.1 tv.2) [update, mkTuple channels]
        [contribution o, (.tuple [(contribution o₁).1, (contribution o₂).1, (contribution o₃).1],
          .tuple [(contribution o₁).2, (contribution o₂).2, (contribution o₃).2])] :=
      .cons hupdate (.cons (Slot.shows_tuple hchannels) .nil)
    obtain ⟨w, hw, hvw⟩ := Slot.applies_over h.denotes.cells_nodup (h.denotes.not_mem_cells hx) hl
      (Slot.shows_tuple hpair) (.tuple [view.data, t])
    obtain ⟨_, _, ⟨⟩, rfl, _, _, u, _, ⟨⟩, rfl, hu, _, _, v, _, ⟨⟩, rfl, hv, ⟨⟩, rfl⟩ := hvw
    obtain ⟨_, _, ⟨⟩, rfl, _, _, w₁, _, ⟨⟩, rfl, h₁, _, _, w₂, _, ⟨⟩, rfl, h₂, _, _, w₃, _, ⟨⟩, rfl,
      h₃, ⟨⟩, rfl⟩ := hv
    exact ⟨(u, w₁, w₂, w₃), hw, hu, h₁, h₂, h₃⟩
  obtain ⟨outputs, houtputs⟩ := exists_forall₂ one
  obtain ⟨hlen, houtputs⟩ := forall₂_zipIdx houtputs
  refine ⟨outputs, forall₂_of_getElem? hlen fun i d w hd hw => (houtputs i d w hd hw).1,
    fun i w hw => ?_⟩
  obtain ⟨d, hd⟩ : ∃ d, data[i]? = some d :=
    ⟨_, List.getElem?_eq_getElem (hlen ▸ (List.getElem?_eq_some_iff.mp hw).1)⟩
  exact (houtputs i d w hd hw).2

end Work

section Update

variable {k : Slot} {c : Slice} {step : Option Step} {w : Value}

theorem Slot.Sees.withTotal (h : k.Sees Z c param) (hmode : k.mode = .lowered)
    (ht : Totals k.setting k.cells step t w) (hty : e.ty = t)
    (he : ∀ env, k.start env → Runs k.setting (.expr env e) w) :
    k.Sees Z (step.elim c fun a => c.withInput a.name e) param := by
  cases step with
  | none => exact h
  | some a =>
    obtain ⟨cell, hc, hname, m, v, hcty, hcv, rfl, hvw⟩ := ht a rfl
    change k.Sees Z (c.withInput a.name e) param
    rw [← hname]
    refine h.withInput hc ⟨?_, ?_, fun env hg => ⟨w, he env hg.1, ?_⟩⟩
    · simpa [hcty, hmode, Mode.type, Ty.atCoordinator, Ty.place, Ty.lower] using hty
    · simp [hcty, hmode, Mode.admits, Ty.atCoordinator, Ty.place, Ty.isFlat]
    · simp only [Slot.Holds, hmode, Mode.Holds, hcty, hcv, Ty.atCoordinator, Ty.place, Lowers]
      exact ⟨v, rfl, hvw⟩

theorem View.Run.update {R V₁ V₂ V₃ : Ty} {report w₁ w₂ w₃ : Value}
    (h : view.Run s Z param C state data result) (hi : 0 < s.participants ∨ Z)
    (hreport : Totals s C (view.aggregation? .aggregate) R report)
    (h₁ : Totals s C (view.aggregation? .bitwidthSum) V₁ w₁)
    (h₂ : Totals s C (view.aggregation? .boundedSum) V₂ w₂)
    (h₃ : Totals s C (view.aggregation? .modularSum) V₃ w₃) (hx : x ∉ view.names.used)
    (hr : (((view.updateSlice x R (.tuple [V₁, V₂, V₃])).value view.result).run []).result =
      .ok (e, ls))
    (u : Ty) :
    ∃ w, Applies s (closeOver x u e ls)
    (some (.pair state (.pair report (.tuple [w₁, w₂, w₃])))) w ∧
      Lowers s 0 view.result.ty result w := by
  let k := Slot.over s .lowered 0 C x (.pair state (.pair report (.tuple [w₁, w₂, w₃])))
  let totals := ref x (.tuple [view.state, .tuple [R, .tuple [V₁, V₂, V₃]]])
  have hstate (env : Env) (henv : k.start env) : Runs s (.expr env (totals.field 0)) state :=
    runs_field (n := 0) (runs_ref.mpr henv) rfl
  have hglobal (env : Env) (henv : k.start env) :
      Runs s (.expr env (totals.field 1)) (.pair report (.tuple [w₁, w₂, w₃])) :=
    runs_field (n := 1) (runs_ref.mpr henv) rfl
  have hsecure (env : Env) (henv : k.start env) :
      Runs s (.expr env ((totals.field 1).field 1)) (.tuple [w₁, w₂, w₃]) :=
    runs_field (hglobal env henv) rfl
  have hsees : k.Sees Z
      { view, mode := .lowered, stage := .result, slot := MapReduce.slots.update,
        state := some (totals.field 0) }
      param := by
    refine View.Run.sees (k := k) h rfl rfl (fun _ => hi) (fun e he => ?_) (by simp) rfl
    cases he
    exact Slot.shows_over rfl rfl fun env henv => ⟨state, hstate env henv, state, rfl,
      h.state_inhabits⟩
  have hsees : k.Sees Z (view.updateSlice x R (.tuple [V₁, V₂, V₃])) param :=
    (((hsees.withTotal rfl hreport rfl fun env henv => runs_field (hglobal env henv) rfl).withTotal
      rfl h₁ rfl fun env henv => runs_field (hsecure env henv) rfl).withTotal rfl h₂ rfl
      fun env henv => runs_field (hsecure env henv) rfl).withTotal rfl h₃ rfl fun env henv =>
      runs_field (hsecure env henv) rfl
  obtain ⟨-, hl, hs⟩ := hsees.value h.denotes.result .nil hr
  exact Slot.applies_over h.denotes.cells_nodup (h.denotes.not_mem_cells hx) hl hs u

end Update

theorem View.Run.mapReduceParts {parts : MapReduce Expr}
    (h : view.Run s Z param C state data result) (hi : 0 < s.participants ∨ Z)
    (hr : view.mapReduceParts.result = .ok parts) :
    ∃ u v₁ v₂ v₃ v, (∃ p, parts.work.ty = .func p (.tuple [u, .tuple [v₁, v₂, v₃]])) ∧
      parts.Yields s v₁ v₂ v₃ state data v ∧ Similar s view.result.ty result v := by
  simp only [View.mapReduceParts, Traced.bind_ok] at hr
  obtain ⟨_, -, _, -, hr⟩ := hr
  split at hr
  · exact absurd hr Traced.fail_ok
  rename_i output houtput
  simp only [Traced.bind_ok, Prod.exists, Traced.run_bind_ok, Traced.run_pure_ok, Traced.pure_ok,
    Prod.mk.injEq] at hr
  obtain ⟨_, -, _, -, prepare, contextTy, hprepare, _, -, _, _, _, ⟨update, ls₀, hu, channels, ls,
    hc, ⟨rfl, rfl⟩, rfl⟩, _, -, _, -, work, hwork, _, -, _, -, total, htotal, bitwidth, hbitwidth,
    maxInput, hmaxInput, modulus, hmodulus, _, -, e, ls', he, final, hfinal, _, -, rfl⟩ := hr
  obtain ⟨rfl, hworkTy⟩ := fillSlot_ok hwork
  obtain ⟨rfl, -⟩ := fillSlot_ok hfinal
  obtain ⟨hx₁, h₁⟩ := Names.fresh_avoids "state" (List.Subset.refl view.names.used)
  obtain ⟨hx₂, h₂⟩ := Names.fresh_avoids "arg" h₁
  obtain ⟨-, h₃⟩ := Names.fresh_avoids "a" h₂
  obtain ⟨hx₄, -⟩ := Names.fresh_avoids "update" h₃
  obtain ⟨o, ho⟩ := h.aggregation? .aggregate
  obtain ⟨o₁, ho₁⟩ := h.aggregation? .bitwidthSum
  obtain ⟨o₂, ho₂⟩ := h.aggregation? .boundedSum
  obtain ⟨o₃, ho₃⟩ := h.aggregation? .modularSum
  obtain ⟨tvs, context, hdel, hcontext, hcarry⟩ := h.serverContext hi hx₁ hprepare
  obtain ⟨-, hchannels, outputs, houtputs, hlow⟩ :=
    h.work hi hdel hcarry ⟨ho, ho₁, ho₂, ho₃⟩ hx₂ hu hc
  have contributes {o : Option Gathered} (f : Value × Value × Value × Value → Value)
      (hf : ∀ i w, outputs[i]? = some w → Lowers s i (contribution o).1 (contribution o).2 (f w)) :
      Contributes s o (outputs.map f) := by
    refine ⟨by simpa using houtputs.length_eq.symm.trans h.participants, fun i w hw => ?_⟩
    obtain ⟨w', hw', rfl⟩ := Option.map_eq_some_iff.mp (List.getElem?_map ▸ hw)
    exact hf i w' hw'
  obtain ⟨report, ⟨zero, accumulate, merge, r, hzero, haccumulate, hmerge, hr, hreport⟩, hplain⟩ :=
    h.totalAggregation hi ho (contributes (fun w => w.1) fun i w hw => (hlow i w hw).update) htotal
  obtain ⟨p₁, t₁, hp₁, ht₁, hsum₁⟩ :=
    h.secureParameter hi rfl ho₁
      (contributes (fun w => w.2.1) fun i w hw => (hlow i w hw).bitwidth) hbitwidth
  obtain ⟨p₂, t₂, hp₂, ht₂, hsum₂⟩ :=
    h.secureParameter hi rfl ho₂
      (contributes (fun w => w.2.2.1) fun i w hw => (hlow i w hw).bounded) hmaxInput
  obtain ⟨p₃, t₃, hp₃, ht₃, hsum₃⟩ :=
    h.secureParameter hi rfl ho₃
      (contributes (fun w => w.2.2.2) fun i w hw => (hlow i w hw).modular) hmodulus
  rw [hchannels] at he
  obtain ⟨w, hw, hvw⟩ := h.update hi hplain hsum₁ hsum₂ hsum₃ hx₄ he
    (.tuple [view.state, .tuple [total.reportTy, tupleType channels]])
  obtain ⟨flag, hty⟩ := View.output?_some houtput
  rw [hty] at hvw ⊢
  obtain ⟨_, _, newState, x, rfl, rfl, ⟨a, rfl, ha⟩, b, rfl, hb⟩ := hvw.pair
  refine ⟨_, _, _, _, _, ⟨_, hworkTy.trans (by rw [hchannels])⟩,
    .intro hcontext houtputs hzero haccumulate hmerge hr hreport hp₁ hp₂ hp₃ ht₁ ht₂ ht₃ hw, ?_⟩
  exact similar_pair ⟨a, newState, rfl, rfl, ha⟩ ⟨b, x, rfl, rfl, hb⟩

end Round

/-- Compiling to the map-reduce form preserves meaning, unless the round zips nothing and nobody
participates. -/
theorem mapReduce_compile_preserves {r : Expr} {f : Form} {S D R : Ty} {n g : Nat} {state v : Value}
    {data : List Value} (hr : r.intrinsicsCalled = true)
    (hf : (compile r .mapReduce).result = .ok f) (hty : r.ty = roundType S D R)
    (hstate : Inhabits { participants := data.length, groupSize := g } S state)
    (hdata : ∀ d ∈ data, Inhabits { participants := data.length, groupSize := g } D d)
    (hzip : data ≠ [] ∨ r.zipsNothing = false) (hv : (Eval.round n g r state data).result = .ok v)
    (hvd : v.isData = true) :
    ∃ m₀, ∀ m ≥ m₀, (Eval.form m g f state data).result = .ok v := by
  obtain ⟨hc, parts, hparts, hform⟩ := compile_ok hf
  simp only [Round.parts, Traced.bind_ok, Traced.pure_ok] at hparts
  obtain ⟨view, hview, _, -, p, hp, rfl⟩ := hparts
  simp only [Form.ofParts, Traced.bind_ok, Traced.pure_ok] at hform
  obtain ⟨f, hform, rfl⟩ := hform
  have hempty : data = [] → r.zipsNothing = false := fun hd => hzip.resolve_left (not_not.mpr hd)
  obtain ⟨param, C, hrun⟩ := Round.View.run_of_round hview hc hr hempty hty hstate hdata hv
  obtain ⟨_, v₁, v₂, v₃, w, ⟨_, hwork⟩, hw, hsim⟩ := hrun.mapReduceParts
    ((Nat.eq_zero_or_pos _).symm.imp_right List.length_eq_zero_iff.mp) hp
  obtain rfl := hsim.eq_of_isData hvd
  obtain ⟨_, _, _, _, _, _, _, _, _, _, hchecked⟩ := Form.ofMapReduce_ok.mp hform
  cases hwork.symm.trans hchecked.workTy
  exact eventually_atTop.mp (hchecked.eval hw)

theorem mapReduce_compile_preserves_totals : ∃ f, (compile totals .mapReduce).result = .ok f ∧
    ∃ m₀, ∀ m ≥ m₀, (Eval.form m 2 f (.int 1) [.int 2, .int 3]).result =
      .ok (.pair (.atServer (.int 7)) (.atServer (.int 1))) := by
  have hint (n : Int) : Inhabits { participants := 2, groupSize := 2 } .int32 (.int n) :=
    inhabits_int.mpr ⟨n, rfl⟩
  obtain ⟨f, hf⟩ : ∃ f, (compile totals .mapReduce).result = .ok f :=
    except_isOk (by decide +kernel)
  exact ⟨f, hf, mapReduce_compile_preserves (n := 20) (by decide) hf rfl (hint 1) (by simp [hint])
    (.inl (by decide)) rfl (by decide)⟩

/-- Without participants nobody adds up too much in the round, but the coordinator does in the
form. -/
theorem mapReduce_compile_beside_overflow :
    ∃ f, (compile (totalsOf besideOverflow) .mapReduce).result = .ok f ∧
    (∀ n, (Eval.round (n + 20) 2 (totalsOf besideOverflow) (.int 1) []).result =
      .ok (.pair (.atServer (.int 0)) (.atServer (.int 1)))) ∧
    ∃ fault, (Eval.form 20 2 f (.int 1) []).result = .error (.fault fault) := by
  obtain ⟨f, hf, hfault⟩ : ∃ f, (compile (totalsOf besideOverflow) .mapReduce).result = .ok f ∧
      (Eval.form 20 2 f (.int 1) []).fault?.isSome = true := except_any (by decide +kernel)
  obtain ⟨fault, hfault⟩ := Option.isSome_iff_exists.mp hfault
  exact ⟨f, hf, fun _ => rfl, fault, Eval.fault?_some hfault⟩

end TwoTier

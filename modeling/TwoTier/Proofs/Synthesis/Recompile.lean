import TwoTier.Proofs.Synthesis.Slots

/-! # Synthesized rounds compile

The round of a map-reduce or broadcast form can be taken apart again, into a form of the same type.
What a round does not move is not found again: without anything to aggregate, no map-reduce form is
found.
-/

namespace TwoTier

namespace Synthesis

open Expr Round

variable {Γ Δ : List (String × Ty)} {ns ls k K avail cs : List (String × Expr)} {e : Expr}
  {t u s d : Ty} {x y : String} {v : View} {template : Template} {w : Wiring} {r : Expr}
  {site : Placement} {b : Bool} {c : Slice} {op : Crossing} {step : Step}

theorem inert_mkDelay (h : e.Inert) : (mkDelay e).Inert :=
  ⟨scoped_delay h.typed, bare_lambda.mpr ⟨h.bare.unplaced, h.bare⟩⟩

section Channels

variable {o : Option Step} {parts : MapReduce Expr} {a p : Ty}

theorem Sums.offers (h : Sums [(y, inputsType s d)] w op t k) (hk : List.Forall₂ Stepped o.toList k)
    (hs : Serves v s d Δ w.locals w.locals .participants c) (hw : Netted [(y, inputsType s d)] w cs)
    (hv : Lists v y s d w.locals r) : Offers Δ w.locals w.locals (View.clientValue c o) t := by
  cases h with
  | nothing ht =>
    cases o with
    | none => exact ht ▸ offers_pure (fit_inert inert_unit)
    | some step => cases hk
  | integers _ he =>
    cases o with
    | none => cases hk
    | some step =>
      obtain ⟨hstep, -⟩ := List.forall₂_cons.mp hk
      exact hs.channelValue hw hv hstep rfl he.2 he.1.1 he.1.2

theorem secureParameter_ok (name : String) (h : Sums Γ w op t k)
    (hk : List.Forall₂ Stepped (v.aggregation? op).toList k) :
    ∃ F, (v.secureParameter op name).result = .ok F ∧ F.Inert ∧ ∃ p, F.ty = .thunk p ∧
    p.isInteger = true := by
  have fills : ∀ {e : Expr}, e.Inert → e.ty.isInteger = true → ∃ F, (fillSlot (mkDelay e)
      (.thunk (resultOf (mkDelay e))) .unplaced (aggregationSlot op)).result = .ok F ∧
        F.Inert ∧ ∃ p, F.ty = .thunk p ∧ p.isInteger = true := fun he hi =>
    ⟨_, fillSlot_inert (inert_mkDelay he) rfl, inert_mkDelay he, _, rfl, hi⟩
  cases h with
  | nothing ht =>
    cases hstep : v.aggregation? op with
    | none =>
      obtain ⟨F, hF, h⟩ := fills inert_unit rfl
      simp only [View.secureParameter, hstep, Traced.bind_ok]
      exact ⟨F, ⟨(Expr.unit, []), rfl, (), rfl, hF⟩, h⟩
    | some step => simp [hstep] at hk
  | @integers y e a' _ _ ha hi =>
    cases hstep : v.aggregation? op with
    | none => simp [hstep] at hk
    | some step =>
      obtain ⟨hstepped, -⟩ := List.forall₂_cons.mp (hstep ▸ hk)
      obtain ⟨F, hF, h⟩ := fills ha hi
      simp only [View.secureParameter, hstep, Traced.bind_ok]
      exact ⟨F, ⟨(a', []), Traced.mapError_ok.mpr (staticArgument_inert hstepped rfl ha),
        (), rfl, hF⟩, h⟩

/-- The functions of an aggregation fit together. -/
structure Combines (g : Aggregation) (u a t : Ty) : Prop where
  zero : g.zero.Inert ∧ g.zero.ty = .thunk a
  accumulate : g.accumulate.Inert ∧ g.accumulate.ty = .func (.tuple [a, u]) a
  merge : g.merge.Inert ∧ g.merge.ty = .func (.tuple [a, a]) a
  report : g.report.Inert ∧ g.report.ty = .func a t
  reportTy : g.reportTy = t

theorem emptyAggregation_ok (x : String) :
    ∃ g, (View.emptyAggregation x).result = .ok g ∧ Combines g .empty .empty .empty := by
  have slot : ∀ {t u e}, t.isPlaced = false → Fit [(x, t)] [] e u →
      (closeOver x t e []).Inert ∧ (closeOver x t e []).ty = .func t u :=
    fun ht he => Kept.closeOver (kept_nil : Kept _ [] []) he ht
  have hfirst :=
    slot rfl ((fit_param (x := x) (t := .tuple [.empty, .empty]) rfl).field (i := 0) rfl)
  exact ⟨_, rfl, ⟨inert_mkDelay inert_unit, rfl⟩, hfirst, hfirst,
    slot rfl (fit_param (t := .empty) rfl), rfl⟩

theorem plainAggregation_ok {zero : Expr} (hstep : Stepped step (x, gate (.crossing .aggregate)
      (mkTuple [e, zero, parts.accumulate, parts.merge, parts.report]) (.atCoordinator t)))
    (hzero : zero.Inert ∧ zero.ty = a)
    (haccumulate : parts.accumulate.Inert ∧ parts.accumulate.ty = .func (.tuple [a, u]) a)
    (hmerge : parts.merge.Inert ∧ parts.merge.ty = .func (.tuple [a, a]) a)
    (hreport : parts.report.Inert ∧ parts.report.ty = .func a t) :
    ∃ g, (v.plainAggregation step u).result = .ok g ∧ Combines g u a t := by
  obtain ⟨hzero, rfl⟩ := hzero
  have hresult : resultOf parts.report = t := by simp [resultOf, hreport.2, Ty.signature?]
  subst hresult
  simp only [View.plainAggregation, Traced.bind_ok, bind_assoc, pure_bind]
  exact ⟨_, ⟨(zero, []), staticArgument_inert hstep rfl hzero, (), rfl,
    _, fillSlot_inert (inert_mkDelay hzero) rfl, (parts.accumulate, []),
    staticArgument_inert hstep rfl haccumulate.1, _, fillSlot_inert haccumulate.1 haccumulate.2,
    (parts.merge, []), staticArgument_inert hstep rfl hmerge.1, _, fillSlot_inert hmerge.1 hmerge.2,
    (parts.report, []), staticArgument_inert hstep rfl hreport.1, (), rfl, _,
    fillSlot_inert hreport.1 hreport.2, rfl⟩, ⟨inert_mkDelay hzero, rfl⟩, haccumulate,
    hmerge, hreport, rfl⟩

theorem Aggregates.offers (x : String) (h : Aggregates [(y, inputsType s d)] w parts u a t k)
    (hk : List.Forall₂ Stepped (v.aggregation? .aggregate).toList k)
    (hs : Serves v s d Δ w.locals w.locals .participants c) (hw : Netted [(y, inputsType s d)] w cs)
    (hv : Lists v y s d w.locals r)
    (haccumulate : parts.accumulate.Inert ∧ parts.accumulate.ty = .func (.tuple [a, u]) a)
    (hmerge : parts.merge.Inert ∧ parts.merge.ty = .func (.tuple [a, a]) a)
    (hreport : parts.report.Inert ∧ parts.report.ty = .func a t) :
    ∃ u', Offers Δ w.locals w.locals (View.clientValue c (v.aggregation? .aggregate)) u' ∧
      ∃ g, (v.totalAggregation u' x).result = .ok g ∧ Combines g u' a t := by
  unfold View.totalAggregation
  cases h with
  | nothing ha ht =>
    subst ha ht
    cases hstep : v.aggregation? .aggregate with
    | none => exact ⟨.empty, offers_pure (fit_inert inert_unit), emptyAggregation_ok x⟩
    | some step => simp [hstep] at hk
  | updates _ he hzero hzeroTy =>
    cases hstep : v.aggregation? .aggregate with
    | none => simp [hstep] at hk
    | some step =>
      obtain ⟨hstepped, -⟩ := List.forall₂_cons.mp (hstep ▸ hk)
      exact ⟨u, hs.channelValue hw hv hstepped rfl he.2 he.1.1 he.1.2,
        plainAggregation_ok hstepped ⟨hzero, hzeroTy⟩ haccumulate hmerge hreport⟩

end Channels

section MapReduce

variable {parts : MapReduce Expr} {ctx v₁ v₂ v₃ a o : Ty}
  {sent total sums₁ sums₂ sums₃ : List (String × Expr)} {newState output : Expr}

theorem MapReduceNet.crossingsBy
    (h : MapReduceNet Γ w parts s ctx u v₁ v₂ v₃ a t o sent total
      sums₁ sums₂ sums₃ newState output) :
    Synthesis.crossingsBy .broadcast w.locals = sent ∧
      Synthesis.crossingsBy .aggregate w.locals = total ∧
      Synthesis.crossingsBy .bitwidthSum w.locals = sums₁ ∧
      Synthesis.crossingsBy .boundedSum w.locals = sums₂ ∧
      Synthesis.crossingsBy .modularSum w.locals = sums₃ := by
  simp [h.net.crossingsBy, crossingsBy_append, h.sends.crossingsBy, h.aggregates.crossingsBy,
    h.bitwidth.crossingsBy, h.bounded.crossingsBy, h.modular.crossingsBy]

theorem MapReduceNet.once
    (h : MapReduceNet Γ w parts s ctx u v₁ v₂ v₃ a t o sent total sums₁ sums₂ sums₃ newState output)
    (hop : op.isAggregation = true) : (Synthesis.crossingsBy op w.locals).length ≤ 1 := by
  obtain ⟨-, h₀, h₁, h₂, h₃⟩ := h.crossingsBy
  have sums : ∀ {op v k}, Sums Γ w op v k → k.length ≤ 1 := fun h => by cases h <;> simp
  cases op with
  | broadcast => cases hop
  | aggregate =>
    rw [h₀]
    cases h.aggregates <;> simp
  | bitwidthSum => exact h₁ ▸ sums h.bitwidth
  | boundedSum => exact h₂ ▸ sums h.bounded
  | modularSum => exact h₃ ▸ sums h.modular

theorem aggregatesOnce_ok (hv : Lists v y s d w.locals r)
    (honce : ∀ op, op.isAggregation = true → (crossingsBy op w.locals).length ≤ 1)
    (hne : v.aggregations ≠ []) :
    v.aggregatesOnce.result = .ok () := by
  have hcount : ∀ op, op.isAggregation = true →
      v.aggregations.countP (fun step => step.op? == some op) ≤ 1 := by
    intro op hop
    refine le_trans ?_ (honce op hop)
    rw [← (hv.stepsBy op).length_eq, List.countP_eq_length_filter]
    exact (List.filter_sublist.filter _).length_le
  have hfind : (Crossing.all.filter Crossing.isAggregation).find?
      (fun op => decide (1 < v.aggregations.countP fun step => step.op? == some op)) = none := by
    rw [List.find?_eq_none]
    intro op hop
    simpa using hcount op (List.mem_filter.mp hop).2
  have hempty : v.aggregations.isEmpty = false := by simpa using hne
  simp only [View.aggregatesOnce, hempty, hfind]
  rfl

theorem aggregatesOnce_error (h : v.aggregations = []) : v.aggregatesOnce.result =
    .error (.shape .mapReduce .aggregation MapReduce.slots.zero .noAggregation) := by
  simp only [View.aggregatesOnce, h]
  rfl

theorem work_ok {first : SliceM Expr} {rest : List (SliceM Expr)} {ts : List Ty}
    (hfirst : Offers [(x, t)] ns avail first u)
    (hrest : List.Forall₂ (Offers [(x, t)] ns avail) rest ts) (ht : t.isPlaced = false) :
    ∃ e es ls,
      ((do let e ← first; return (e, ← Slice.sequence rest) :
        SliceM (Expr × List Expr)).run []).result = .ok ((e, es), ls) ∧
        e.ty = u ∧ es.map ty = ts ∧
        (closeOver x t (mkTuple [e, mkTuple es]) ls).Inert ∧
        (closeOver x t (mkTuple [e, mkTuple es]) ls).ty = .func t (.tuple [u, .tuple ts]) := by
  have hgives : Gives [(x, t)] ns avail
      (do let e ← first; return (e, ← Slice.sequence rest) : SliceM (Expr × List Expr))
      [] fun p ls => Fit [(x, t)] ls p.1 u ∧ List.Forall₂ (Fit [(x, t)] ls) p.2 ts := by
    refine gives_bind ((hfirst [] kept_nil).mono fun e ls hk _ he => ?_)
    refine gives_bind ((gives_sequence hrest hk).mono fun es ls' hk' hls hes => ?_)
    exact gives_pure hk' ⟨he.mono hk' hls, hes⟩
  obtain ⟨⟨e, es⟩, ls, hrun, -, hk, he, hes⟩ := hgives
  have htuple := fit_mkTuple hes
  exact ⟨e, es, ls, hrun, he.ty, Ty.tuple.inj htuple.ty,
    hk.closeOver (fit_mkTuple (.cons he (.cons htuple .nil))) ht⟩

theorem MapReduceNet.serves_coordinator
    (h : MapReduceNet [(y, inputsType s d)] w parts s ctx u v₁ v₂ v₃ a t o sent total
      sums₁ sums₂ sums₃ newState output)
    (hv : Lists v y s d w.locals r) (hx : x ∉ w.locals.map Prod.fst)
    (hplaced : (Ty.tuple [s, .tuple [t, .tuple [v₁, v₂, v₃]]]).isPlaced = false) :
    Serves v s d [(x, .tuple [s, .tuple [t, .tuple [v₁, v₂, v₃]]])] w.locals w.locals .coordinator
      (v.updateSlice x t (.tuple [v₁, v₂, v₃])) := by
  obtain ⟨-, h₀, h₁, h₂, h₃⟩ := h.crossingsBy
  have hparam := fit_param (x := x) hplaced
  have htotals := hparam.field (i := 1) rfl
  have hsums := htotals.field (i := 1) rfl
  have found : ∀ {op k}, op.isAggregation = true → Synthesis.crossingsBy op w.locals = k →
      List.Forall₂ Stepped (v.aggregation? op).toList k :=
      fun hop hk => hk ▸ hv.aggregation? hop (h.once hop)
  have mem : ∀ {op k}, Synthesis.crossingsBy op w.locals = k → ∀ l ∈ k, l ∈ w.locals :=
      fun hk l hl =>
    (List.mem_filter.mp (hk ▸ hl)).1
  have sums : ∀ {op v k}, Sums [(y, inputsType s d)] w op v k →
      ∀ l ∈ k, ∃ b, l.2.ty = .placed v .coordinator b := by
    rintro op v k (_ | _) l hl
    · cases hl
    · obtain rfl := List.mem_singleton.mp hl
      exact ⟨true, rfl⟩
  have aggregate : ∀ l ∈ total, ∃ b, l.2.ty = .placed t .coordinator b := by
    intro l hl
    cases h.aggregates with
    | nothing => cases hl
    | updates =>
      obtain rfl := List.mem_singleton.mp hl
      exact ⟨true, rfl⟩
  have hK : ∀ l ∈ w.locals, (crossing? l.2).isSome = true →
      (∃ m b, l.2.ty = .placed m .coordinator b) →
      l ∈ sums₃ ++ (sums₂ ++ (sums₁ ++ (total ++ []))) := by
    rintro l hl hcross ⟨m, b, hty⟩
    obtain ⟨op, hop⟩ := Option.isSome_iff_exists.mp hcross
    have hby : l ∈ Synthesis.crossingsBy op w.locals := List.mem_filter.mpr ⟨hl, by simp [hop]⟩
    rcases (h.net.kind l hl).crosses hop hty with ⟨-, hsite⟩ | ⟨hagg, -⟩
    · cases hsite
    · cases op <;> simp_all [Crossing.isAggregation, Crossing.isBroadcast]
  obtain rfl := hv.state
  have supplied := (⟨rfl, rfl, ⟨_, rfl, hparam.field rfl⟩, by simp, by simp⟩ : Supplies v v.state d
      [(x, .tuple [v.state, .tuple [t, .tuple [v₁, v₂, v₃]]])] w.locals .coordinator {
        view := v, mode := .lowered, stage := .result, slot := MapReduce.slots.update
        state :=
          some ((Expr.ref x (.tuple [v.state, .tuple [t, .tuple [v₁, v₂, v₃]]])).field 0) } [])
    |>.withInput (found rfl h₀) (htotals.field (i := 0) rfl)
        (fun l hl => ⟨mem h₀ l hl, aggregate l hl⟩)
    |>.withInput (found rfl h₁) (hsums.field (i := 0) rfl)
        (fun l hl => ⟨mem h₁ l hl, sums h.bitwidth l hl⟩)
    |>.withInput (found rfl h₂) (hsums.field (i := 1) rfl)
        (fun l hl => ⟨mem h₂ l hl, sums h.bounded l hl⟩)
    |>.withInput (found rfl h₃) (hsums.field (i := 2) rfl)
        (fun l hl => ⟨mem h₃ l hl, sums h.modular l hl⟩)
  exact supplied.serves (by simpa using hx) (List.prefix_refl _) hK

/-- Parts without a tier that fit together as a map-reduce form. -/
structure Fitted (p : MapReduce Expr) (s c d u v₁ v₂ v₃ a t o : Ty) : Prop where
  prepare : p.prepare.Inert ∧ p.prepare.ty = .func s c
  work : p.work.Inert ∧ p.work.ty = .func (.tuple [d, c]) (.tuple [u, .tuple [v₁, v₂, v₃]])
  channels : v₁.isInteger = true ∧ v₂.isInteger = true ∧ v₃.isInteger = true
  total : Combines ⟨p.zero, p.accumulate, p.merge, p.report, a, t⟩ u a t
  bitwidth : p.bitwidth.Inert ∧ ∃ q, p.bitwidth.ty = .thunk q ∧ q.isInteger = true
  maxInput : p.maxInput.Inert ∧ ∃ q, p.maxInput.ty = .thunk q ∧ q.isInteger = true
  modulus : p.modulus.Inert ∧ ∃ q, p.modulus.ty = .thunk q ∧ q.isInteger = true
  update : p.update.Inert ∧ p.update.ty = .func (.tuple [s, .tuple [t, .tuple [v₁, v₂, v₃]]])
    (.tuple [s, o])

theorem fitted_of_checked {f : MapReduce Block}
    (h : Form.MapReduceChecked parts f s ctx d u v₁ v₂ v₃ a t o)
    (hcalled : ∀ e ∈ parts.toList, e.intrinsicsCalled = true) :
    Fitted parts s ctx d u v₁ v₂ v₃ a t o := by
  simp only [MapReduce.toList, List.forall_mem_cons] at hcalled
  obtain ⟨hprepare, hwork, hzero, haccumulate, hmerge, hreport, hbitwidth, hmaxInput, hmodulus,
    hupdate, -⟩ := hcalled
  exact {
    prepare := ⟨h.prepare.inert hprepare, h.prepareTy⟩
    work := ⟨h.work.inert hwork, h.workTy⟩
    channels := h.channels
    total := ⟨⟨h.zero.inert hzero, h.zeroTy⟩, ⟨h.accumulate.inert haccumulate, h.accumulate_exact⟩,
      ⟨h.merge.inert hmerge, h.merge_exact⟩, ⟨h.report.inert hreport, h.reportTy⟩, rfl⟩
    bitwidth := ⟨h.bitwidth.inert hbitwidth, h.bitwidthTy⟩
    maxInput := ⟨h.maxInput.inert hmaxInput, h.maxInputTy⟩
    modulus := ⟨h.modulus.inert hmodulus, h.modulusTy⟩
    update := ⟨h.update.inert hupdate, h.updateTy⟩ }

theorem part_of_inert (h : e.Inert) : Form.Part e .unplaced ⟨e.ty, e, .unplaced⟩ :=
  ⟨h.typed.typed.1, h.sealed, rfl⟩

theorem Fitted.checked (h : Fitted parts s ctx d u v₁ v₂ v₃ a t o) :
    ∃ f, Form.MapReduceChecked parts f s ctx d u v₁ v₂ v₃ a t o := by
  let block (e : Expr) : Block := ⟨e.ty, e, .unplaced⟩
  refine ⟨⟨block parts.prepare, block parts.work, block parts.zero, block parts.accumulate,
    block parts.merge, block parts.report, block parts.bitwidth, block parts.maxInput,
    block parts.modulus, block parts.update⟩, ?_⟩
  exact {
    prepare := part_of_inert h.prepare.1
    work := part_of_inert h.work.1
    zero := part_of_inert h.total.zero.1
    accumulate := part_of_inert h.total.accumulate.1
    merge := part_of_inert h.total.merge.1
    report := part_of_inert h.total.report.1
    bitwidth := part_of_inert h.bitwidth.1
    maxInput := part_of_inert h.maxInput.1
    modulus := part_of_inert h.modulus.1
    update := part_of_inert h.update.1
    prepareTy := h.prepare.2
    workTy := h.work.2
    channels := h.channels
    zeroTy := h.total.zero.2
    accumulateTy := ⟨a, h.total.accumulate.2, Ty.standsFor_self a⟩
    mergeTy := ⟨a, h.total.merge.2, Ty.standsFor_self a⟩
    reportTy := h.total.report.2
    bitwidthTy := h.bitwidth.2
    maxInputTy := h.maxInput.2
    modulusTy := h.modulus.2
    updateTy := h.update.2 }

theorem MapReduceNet.found
    (h : MapReduceNet Γ w parts s ctx u v₁ v₂ v₃ a t o sent total sums₁ sums₂ sums₃ newState output)
    (hv : Lists v y s d w.locals r) (hop : op.isAggregation = true)
    (hk : Synthesis.crossingsBy op w.locals = k) :
    List.Forall₂ Stepped (v.aggregation? op).toList k :=
  hk ▸ hv.aggregation? hop (h.once hop)

theorem MapReduceNet.contributions (accumulator : String)
    (h : MapReduceNet [(y, inputsType s d)] w parts s ctx u v₁ v₂ v₃ a t o sent total
      sums₁ sums₂ sums₃ newState output)
    (hfit : Fitted parts s ctx d u v₁ v₂ v₃ a t o) (hv : Lists v y s d w.locals r)
    (hx : x ∉ w.locals.map Prod.fst) :
    ∃ update channels ls u' g, ((do
          let update ← View.clientValue (v.workSlice x ctx) (v.aggregation? .aggregate)
          return (update, ← (Crossing.secureSums.map v.aggregation?).mapM
            (View.clientValue (v.workSlice x ctx))) :
            SliceM (Expr × List Expr)).run []).result = .ok ((update, channels), ls) ∧
      update.ty = u' ∧ tupleType channels = .tuple [v₁, v₂, v₃] ∧
      (closeOver x (.tuple [d, ctx]) (mkTuple [update, mkTuple channels]) ls).Inert ∧
      (closeOver x (.tuple [d, ctx]) (mkTuple [update, mkTuple channels]) ls).ty =
        .func (.tuple [d, ctx]) (.tuple [u', .tuple [v₁, v₂, v₃]]) ∧
      (v.totalAggregation u' accumulator).result = .ok g ∧ Combines g u' a t := by
  obtain ⟨hsent, h₀, h₁, h₂, h₃⟩ := h.crossingsBy
  have hargs : (Ty.tuple [d, ctx]).isPlaced = false :=
    (Ty.isPlaced_func.mp (hfit.work.2 ▸ hfit.work.1.bare.unplaced)).1
  have hparam := fit_param (x := x) hargs
  obtain rfl := hv.data
  have hserves : Serves v s v.data [(x, .tuple [v.data, ctx])] w.locals w.locals .participants
      (v.workSlice x ctx) :=
    serves_participants h.net hv h.sends hsent ⟨rfl, rfl,
      ⟨_, rfl, hparam.field rfl⟩, by simp, by simp⟩ (by simpa using hx) (hparam.field (i := 1) rfl)
  obtain ⟨u', hoffers, g, hg, hcombines⟩ := h.aggregates.offers accumulator
    (h.found hv rfl h₀) hserves h.net hv hfit.total.accumulate hfit.total.merge hfit.total.report
  obtain ⟨update, channels, ls, hrun, hu, hchannels, hwork⟩ := work_ok hoffers
    (.cons (h.bitwidth.offers (h.found hv rfl h₁) hserves h.net hv)
      (.cons (h.bounded.offers (h.found hv rfl h₂) hserves h.net hv)
        (.cons (h.modular.offers (h.found hv rfl h₃) hserves h.net hv) .nil))) hargs
  refine ⟨update, channels, ls, u', g, ?_, hu, congrArg Ty.tuple hchannels, hwork.1, hwork.2,
    hg, hcombines⟩
  rw [Slice.mapM_eq]
  exact hrun

theorem MapReduceNet.output?
    (h : MapReduceNet Γ w parts s ctx u v₁ v₂ v₃ a t o sent total sums₁ sums₂ sums₃ newState output)
    (hv : Lists v y s d w.locals (mkTuple [newState, output])) : v.output? = some o := by
  rw [View.output?, hv.result, hv.state, mkTuple, ty_tuple, List.map_cons, List.map_cons,
    h.newState.1.2, h.output.1.2]
  exact if_pos rfl

theorem mapReduceParts_ok
    (h : MapReduceNet [(y, inputsType s d)] w parts s ctx u v₁ v₂ v₃ a t o sent total
      sums₁ sums₂ sums₃ newState output)
    (hfit : Fitted parts s ctx d u v₁ v₂ v₃ a t o)
    (hv : Lists v y s d w.locals (mkTuple [newState, output])) (hne : v.aggregations ≠ []) :
    ∃ parts' u', v.mapReduceParts.result = .ok parts' ∧
    Fitted parts' s ctx d u' v₁ v₂ v₃ a t o := by
  obtain ⟨hstate, hused⟩ := Names.fresh_avoids "state" hv.used
  obtain ⟨harg, hused⟩ := Names.fresh_avoids "arg" hused
  obtain ⟨-, hused⟩ := Names.fresh_avoids "a" hused
  obtain ⟨hupdate, -⟩ := Names.fresh_avoids "update" hused
  obtain ⟨hsent, h₀, h₁, h₂, h₃⟩ := h.crossingsBy
  have hs : s.isPlaced = false :=
    (Ty.isPlaced_func.mp (hfit.prepare.2 ▸ hfit.prepare.1.bare.unplaced)).1
  have htotals := (Ty.isPlaced_func.mp (hfit.update.2 ▸ hfit.update.1.bare.unplaced)).1
  have hnet : Netted [(y, inputsType s d)] w (sent ++ (total ++ sums₁ ++ sums₂ ++ sums₃)) := by
    simpa using h.net
  obtain ⟨prepare, hprepare, hprepareFit⟩ :=
    serverContext_ok MapReduce.slots.prepare hnet hv h.sends hsent hs hstate
  obtain ⟨update, channels, ls, _, g, hrun, rfl, hchannels, hworkInert, hworkTy, hg, hcombines⟩ :=
    h.contributions (((v.names.fresh "state").2.fresh "arg").2.fresh "a").1 hfit hv harg
  obtain ⟨p₁, hp₁, hp₁Fit⟩ := secureParameter_ok "P1" h.bitwidth (h.found hv rfl h₁)
  obtain ⟨p₂, hp₂, hp₂Fit⟩ := secureParameter_ok "P2" h.bounded (h.found hv rfl h₂)
  obtain ⟨p₃, hp₃, hp₃Fit⟩ := secureParameter_ok "P3" h.modular (h.found hv rfl h₃)
  obtain ⟨result, ls', hrun', -, hupdateInert, hupdateTy⟩ :=
    ((h.serves_coordinator hv hupdate htotals).tuple h.net hv (by simp)
      (.cons ⟨true, h.newState⟩ (.cons ⟨true, h.output⟩ .nil))).closed htotals
  refine ⟨⟨prepare, _, g.zero, g.accumulate, g.merge, g.report, p₁, p₂, p₃, _⟩, update.ty, ?_, {
    prepare := hprepareFit
    work := ⟨hworkInert, hworkTy⟩
    channels := hfit.channels
    total := ⟨hcombines.zero, hcombines.accumulate, hcombines.merge, hcombines.report, rfl⟩
    bitwidth := hp₁Fit
    maxInput := hp₂Fit
    modulus := hp₃Fit
    update := ⟨hupdateInert, hupdateTy⟩ }⟩
  simp only [View.mapReduceParts, h.output? hv, hv.data, hv.state, hv.result, Traced.bind_ok]
  refine ⟨(), rfl, (), rfl, (), rfl, (), broadcastsFirst_ok _ hnet hv h.sends hsent,
    (prepare, ctx), hprepare, (), rfl, ((update, channels), ls), hrun, (), rfl, (), rfl, _,
    fillSlot_inert hworkInert ?_, (), rfl, (), aggregatesOnce_ok hv (fun op hop => h.once hop) hne,
    g, hg, p₁, hp₁, p₂, hp₂, p₃, hp₃, (), rfl, (result, ls'), ?_, _, ?_, (), rfl, rfl⟩
  · rw [hchannels]
    exact hworkTy
  · rw [hcombines.reportTy, hchannels]
    exact hrun'
  · rw [hcombines.reportTy, hchannels]
    exact fillSlot_inert hupdateInert hupdateTy

theorem mapReduceParts_error
    (h : MapReduceNet [(y, inputsType s d)] w parts s ctx u v₁ v₂ v₃ a t o sent total
      sums₁ sums₂ sums₃ newState output)
    (hfit : Fitted parts s ctx d u v₁ v₂ v₃ a t o)
    (hv : Lists v y s d w.locals (mkTuple [newState, output])) (hnil : v.aggregations = []) :
    v.mapReduceParts.result =
    .error (.shape .mapReduce .aggregation MapReduce.slots.zero .noAggregation) := by
  obtain ⟨hstate, hused⟩ := Names.fresh_avoids "state" hv.used
  obtain ⟨harg, -⟩ := Names.fresh_avoids "arg" hused
  obtain ⟨hsent, -⟩ := h.crossingsBy
  have hs : s.isPlaced = false :=
    (Ty.isPlaced_func.mp (hfit.prepare.2 ▸ hfit.prepare.1.bare.unplaced)).1
  have hnet : Netted [(y, inputsType s d)] w (sent ++ (total ++ sums₁ ++ sums₂ ++ sums₃)) := by
    simpa using h.net
  obtain ⟨prepare, hprepare, -⟩ :=
    serverContext_ok MapReduce.slots.prepare hnet hv h.sends hsent hs hstate
  obtain ⟨update, channels, ls, _, g, hrun, rfl, hchannels, hworkInert, hworkTy, -⟩ :=
    h.contributions "a" hfit hv harg
  simp only [View.mapReduceParts, h.output? hv, hv.data, hv.state]
  refine (Traced.bind_result rfl).trans
    ((Traced.bind_result rfl).trans ((Traced.bind_result rfl).trans ?_))
  refine (Traced.bind_result (broadcastsFirst_ok _ hnet hv h.sends hsent)).trans ?_
  refine (Traced.bind_result hprepare).trans
    ((Traced.bind_result rfl).trans ((Traced.bind_result hrun).trans ?_))
  refine (Traced.bind_result rfl).trans ((Traced.bind_result rfl).trans ?_)
  rw [hchannels]
  refine (Traced.bind_result (fillSlot_inert hworkInert hworkTy)).trans
    ((Traced.bind_result rfl).trans ?_)
  exact Traced.bind_error (aggregatesOnce_error hnil)

theorem MapReduceNet.aggregations_eq_nil
    (h : MapReduceNet Γ w parts s ctx u v₁ v₂ v₃ a t o sent total sums₁ sums₂ sums₃ newState output)
    (hv : Lists v y s d w.locals r) :
    v.aggregations = [] ↔ (a = .empty ∧ t = .empty) ∧ v₁ = .empty ∧ v₂ = .empty ∧ v₃ = .empty := by
  obtain ⟨-, h₀, h₁, h₂, h₃⟩ := h.crossingsBy
  have sums : ∀ {op v k}, Sums Γ w op v k → (k = [] ↔ v = .empty) := by
    rintro op v k (hv | hv)
    · simp [hv]
    · simp [hv]
  have aggregate : total = [] ↔ a = .empty ∧ t = .empty := by
    rcases h.aggregates with ⟨ha, ht⟩ | hne
    · simp [ha, ht]
    · simp [hne]
  rw [hv.aggregations_eq_nil, ← aggregate, ← sums h.bitwidth, ← sums h.bounded, ← sums h.modular]
  constructor
  · intro hop
    exact ⟨h₀ ▸ hop .aggregate rfl, h₁ ▸ hop .bitwidthSum rfl, h₂ ▸ hop .boundedSum rfl,
      h₃ ▸ hop .modularSum rfl⟩
  · rintro ⟨ha, hb, hc, hd⟩ op hop
    cases op with
    | broadcast => cases hop
    | aggregate => exact h₀.trans ha
    | bitwidthSum => exact h₁.trans hb
    | boundedSum => exact h₂.trans hc
    | modularSum => exact h₃.trans hd

end MapReduce

end Synthesis

open Synthesis Expr

/-- The round of a form aggregates something, if it is meant to. -/
def Form.Gathers : Form → Prop
  | .mapReduce f => ¬ (f.accumulatorType = .empty ∧ f.reportType = .empty) ∨
      ∃ channel < 3, f.secureType.elementOrEmpty channel ≠ .empty
  | _ => True

theorem compile_error {r : Expr} {template : Template} {e : CompileError} (hc : r.check = .ok ())
    (htiers : ∃ tiers, r.classify = .ok tiers) (hcalls : ∃ calls, r.boundaries = .ok calls)
    (he : (Round.parts r template).result = .error e) : (compile r template).result = .error e := by
  obtain ⟨tiers, htiers⟩ := htiers
  obtain ⟨calls, hcalls⟩ := hcalls
  refine (Traced.bind_result (a := ()) (by simp [hc])).trans ?_
  refine (Traced.bind_result (a := tiers) (by simp [htiers])).trans
    ((Traced.bind_result rfl).trans ?_)
  refine (Traced.bind_result (a := calls) (by simp [hcalls])).trans
    ((Traced.bind_result rfl).trans ?_)
  exact Traced.bind_error he

theorem Form.MapReduceChecked.gathers {parts : MapReduce Expr} {f : MapReduce Block}
    {s c d u v₁ v₂ v₃ a t o : Ty} (h : Form.MapReduceChecked parts f s c d u v₁ v₂ v₃ a t o) :
    Form.Gathers (.mapReduce f) ↔
      ¬ ((a = .empty ∧ t = .empty) ∧ v₁ = .empty ∧ v₂ = .empty ∧ v₃ = .empty) := by
  have ha : f.accumulatorType = a := h.zero.value h.zeroTy
  have ht : f.reportType = t := (h.report.function h.reportTy).2
  have hv : f.secureType = .tuple [v₁, v₂, v₃] := by
    simp [MapReduce.secureType, Block.resultElement, (h.work.function h.workTy).2,
      Ty.elementOrEmpty, Ty.elements?]
  have hchannels : (∃ channel < 3, (Ty.tuple [v₁, v₂, v₃]).elementOrEmpty channel ≠ .empty) ↔
      v₁ ≠ .empty ∨ v₂ ≠ .empty ∨ v₃ ≠ .empty := by
    constructor
    · rintro ⟨channel, hlt, hne⟩
      rcases channel with _ | _ | _ | channel
      · exact .inl hne
      · exact .inr (.inl hne)
      · exact .inr (.inr hne)
      · omega
    · rintro (h | h | h)
      · exact ⟨0, by decide, h⟩
      · exact ⟨1, by decide, h⟩
      · exact ⟨2, by decide, h⟩
  rw [Form.Gathers, ha, ht, hv, hchannels]
  tauto

theorem broadcast_recompiles {parts : Broadcast Expr} {f : Broadcast Block} {s c d o : Ty}
    (h : Form.BroadcastChecked parts f s c d o)
    (hcalled : ∀ e ∈ parts.toList, e.intrinsicsCalled = true) :
    ∃ r, (Form.synthesize (.broadcast f)).result = .ok r ∧
      ∃ f', (compile r .broadcast).result = .ok f' ∧
      f'.signature = Form.signature (.broadcast f) := by
  simp only [Broadcast.toList, List.forall_mem_cons] at hcalled
  have hcontext := (h.context.inert hcalled.1).bare.unplaced
  have hprocessing := (h.processing.inert hcalled.2.1).bare.unplaced
  rw [h.contextTy, Ty.isPlaced_func] at hcontext
  rw [h.processingTy, Ty.isPlaced_func, Ty.isPlaced_tuple] at hprocessing
  obtain ⟨y, e, w, sent, hclose, hnet, hsends, he⟩ :=
    broadcast_round h (by simpa [Broadcast.toList] using hcalled)
  obtain ⟨hround, hty⟩ := hnet.round he.1
  obtain ⟨v, hview, hlists⟩ := hnet.view .broadcast he.2.quiet
    (by rintro _ _ _ rfl; cases he.2)
  obtain ⟨parts', hparts, hin, hin', hty', hty''⟩ :=
    broadcastParts_ok hnet hlists hsends he hcontext.1 (hprocessing.1 _ (by simp)) hcontext.2
  have hchecked : Form.BroadcastChecked parts' ⟨_, _⟩ s c d o :=
    ⟨part_of_inert hin, part_of_inert hin', hty', hty''⟩
  have hsig := h.signature
  refine ⟨_, Form.synthesize_ok.mpr ⟨hclose, hty.trans hsig.symm, hround.typed.1⟩, .broadcast _,
    compile_eq_ok.mpr ⟨hround.typed.1, classify_admitted (hnet.admitted he.2.quiet),
    hnet.boundaries he.2.quiet,
      .broadcast parts', ?_, ?_, ?_⟩, hchecked.signature.trans hsig.symm⟩
  · simp [Round.parts, hview, Traced.bind_ok, hparts]
  · exact Traced.map_ok.mpr ⟨_, Form.ofBroadcast_ok.mpr ⟨s, c, d, o, hchecked⟩, rfl⟩
  · exact hchecked.signature.trans hty.symm

theorem mapReduce_recompiles {parts : MapReduce Expr} {f : MapReduce Block}
    {s c d u v₁ v₂ v₃ a t o : Ty} (h : Form.MapReduceChecked parts f s c d u v₁ v₂ v₃ a t o)
    (hcalled : ∀ e ∈ parts.toList, e.intrinsicsCalled = true) :
    ∃ r, (Form.synthesize (.mapReduce f)).result = .ok r ∧
      (Form.Gathers (.mapReduce f) →
        ∃ f', (compile r .mapReduce).result = .ok f' ∧
        f'.signature = Form.signature (.mapReduce f)) ∧
      (¬ Form.Gathers (.mapReduce f) → (compile r .mapReduce).result =
        .error (.shape .mapReduce .aggregation MapReduce.slots.zero .noAggregation)) := by
  obtain ⟨y, w, sent, total, sums₁, sums₂, sums₃, newState, output, hclose, hnet⟩ :=
    mapReduce_round h hcalled
  have hfit := fitted_of_checked h hcalled
  have hquiet : (mkTuple [newState, output]).Quiet :=
    quiet_mkTuple (by simpa using ⟨hnet.newState.2.quiet, hnet.output.2.quiet⟩)
  obtain ⟨hround, hty⟩ := hnet.net.round (hnet.newState.1.pair hnet.output.1)
  obtain ⟨v, hview, hlists⟩ := hnet.net.view .mapReduce hquiet (by simp [mkTuple])
  have hgathers : Form.Gathers (.mapReduce f) ↔ v.aggregations ≠ [] := by
    rw [h.gathers, ← hnet.aggregations_eq_nil hlists]
  refine ⟨_, Form.synthesize_ok.mpr ⟨hclose, hty.trans h.signature.symm, hround.typed.1⟩,
    fun hne => ?_, fun hnil => ?_⟩
  · obtain ⟨parts', u', hparts, hfit'⟩ := mapReduceParts_ok hnet hfit hlists (hgathers.mp hne)
    obtain ⟨f', hf'⟩ := hfit'.checked
    refine ⟨.mapReduce f', compile_eq_ok.mpr ⟨hround.typed.1,
      classify_admitted (hnet.net.admitted hquiet), hnet.net.boundaries hquiet, .mapReduce parts',
      ?_, ?_, ?_⟩, hf'.signature.trans h.signature.symm⟩
    · simp [Round.parts, hview, Traced.bind_ok, hparts]
    · exact Traced.map_ok.mpr
        ⟨f', Form.ofMapReduce_ok.mpr ⟨s, c, d, u', v₁, v₂, v₃, a, t, o, hf'⟩, rfl⟩
    · exact hf'.signature.trans hty.symm
  · refine compile_error hround.typed.1 (classify_admitted (hnet.net.admitted hquiet))
      (hnet.net.boundaries hquiet) ?_
    refine (Traced.bind_result hview).trans ((Traced.bind_result rfl).trans ?_)
    exact Traced.bind_error
      (mapReduceParts_error hnet hfit hlists (not_not.mp (hgathers.not.mp hnil)))

/-- A form's round compiles to a form of the same type, provided that there is something to
aggregate. -/
theorem compile_synthesize {parts : Parts} {f : Form} (hf : (Form.ofParts parts).result = .ok f)
    (hcalled : ∀ e ∈ parts.toList, e.intrinsicsCalled = true)
    (ht : f.template ≠ .distributeAggregate) :
    ∃ r, f.synthesize.result = .ok r ∧
      ((∃ f', (compile r f.template).result = .ok f' ∧ f'.signature = f.signature) ↔ f.Gathers) ∧
      (¬ f.Gathers → (compile r f.template).result =
        .error (.shape .mapReduce .aggregation "zero" .noAggregation)) := by
  rcases Form.ofParts_ok hf with ⟨p, g, rfl, rfl, hg⟩ | ⟨p, g, rfl, rfl, -⟩ | ⟨p, g, rfl, rfl, hg⟩
  · obtain ⟨s, c, d, u, v₁, v₂, v₃, a, t, o, h⟩ := Form.ofMapReduce_ok.mp hg
    obtain ⟨r, hr, hok, herror⟩ := mapReduce_recompiles h hcalled
    refine ⟨r, hr, ⟨?_, hok⟩, herror⟩
    rintro ⟨f', hf', -⟩
    by_contra hnot
    cases hf'.symm.trans (herror hnot)
  · exact absurd rfl ht
  · obtain ⟨s, c, d, o, h⟩ := Form.ofBroadcast_ok.mp hg
    obtain ⟨r, hr, hok⟩ := broadcast_recompiles h hcalled
    exact ⟨r, hr, iff_of_true hok trivial, fun hnot => absurd trivial hnot⟩

/-- Parts that add up the participants' data, aggregated in plain and in secure. -/
def tallying : MapReduce Expr :=
  let pair := Ty.tuple [.int32, .int32]
  let totals := Ty.tuple [.int32, .tuple [.int32, .tuple [.int32, .empty, .empty]]]
  let datum := (Expr.ref "a" pair).field 0
  let result := (Expr.ref "r" totals).field 1
  { prepare := mkLambda "s" .int32 (.ref "s" .int32)
    work := mkLambda "a" pair (mkTuple [datum, mkTuple [datum, unit, unit]])
    zero := mkDelay (.int 0)
    accumulate := .builtin .add (.func pair .int32)
    merge := .builtin .add (.func pair .int32)
    report := mkLambda "t" .int32 (.ref "t" .int32)
    bitwidth := mkDelay (.int 8)
    maxInput := mkDelay (.int 100)
    modulus := mkDelay (.int 7)
    update := mkLambda "r" totals (mkTuple [result.field 0, (result.field 1).field 0]) }

theorem compile_synthesize_tallying : ∃ f, (Form.ofParts (.mapReduce tallying)).result = .ok f ∧
    ∃ r, f.synthesize.result = .ok r ∧
      ∃ f', (compile r .mapReduce).result = .ok f' ∧ f'.signature = f.signature := by
  obtain ⟨g, hg, hplain⟩ : ∃ g, (Form.ofMapReduce tallying).result = .ok g ∧
      decide (g.accumulatorType ≠ .empty) = true := except_any (by decide +kernel)
  have hf : (Form.ofParts (.mapReduce tallying)).result = .ok (.mapReduce g) :=
    Traced.map_ok.mpr ⟨g, hg, rfl⟩
  obtain ⟨r, hr, hiff, -⟩ := compile_synthesize hf (by decide) (by rintro ⟨⟩)
  exact ⟨_, hf, r, hr, hiff.mpr (.inl fun h => of_decide_eq_true hplain h.1)⟩

end TwoTier

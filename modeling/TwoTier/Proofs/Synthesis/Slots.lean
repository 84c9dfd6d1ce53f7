import TwoTier.Proofs.Synthesis.Slices

/-! # Slots of a netlist

What the slots of a form need is found in the netlist of a round: the context that is sent, and
every wire that a slot at one of the sites may use. For broadcast rounds that is all of the form.
-/

namespace TwoTier

namespace Synthesis

open Expr Round

variable {Γ Δ : List (String × Ty)} {ns ls k K avail cs : List (String × Expr)} {e : Expr}
  {t u s d : Ty} {x y : String} {v : View} {template : Template} {w : Wiring} {r : Expr}
  {site : Placement} {b : Bool} {c : Slice} {op : Crossing} {step : Step}

theorem Fit.field {ts : List Ty} {i : Nat} (h : Fit Δ ls e (.tuple ts)) (ht : ts[i]? = some t) :
    Fit Δ ls (e.field i) t := by
  have hty : e.ty.elementOrEmpty i = t := ty_field h.ty ht
  have hplaced : t.isPlaced = false :=
    Ty.isPlaced_tuple.mp (h.ty ▸ h.bare.unplaced) t (List.mem_of_getElem? ht)
  unfold Expr.field
  rw [hty]
  exact ⟨scoped_select h.typed h.ty ht, bare_select.mpr ⟨hplaced, h.bare⟩, rfl⟩

theorem fit_param (ht : t.isPlaced = false) : Fit [(x, t)] [] (.ref x t) t :=
  ⟨scoped_ref (by simp [scope]), bare_ref.mpr ht, rfl⟩

/-- The inputs of a slot at `site` are values of locals of the netlist, those of `K` among them. -/
structure Supplies (v : View) (s d : Ty) (Δ : List (String × Ty)) (ns : List (String × Expr))
    (site : Placement) (c : Slice) (K : List (String × Expr)) : Prop where
  view : c.view = v
  mode : c.mode = .lowered
  own : ∃ e, ownInput c site = some e ∧ Fit Δ [] e (ownType s d site)
  inputs : ∀ x e, c.inputs.lookup x = some e → ∃ g b, (x, g) ∈ ns ∧ g.ty = .placed e.ty site b ∧
    Fit Δ [] e e.ty
  supplied : ∀ l ∈ K, ∃ e, c.inputs.lookup l.1 = some e

theorem Supplies.withInput {o : Option Step}
    (h : Supplies v s d Δ ns site c K) (hk : List.Forall₂ Stepped o.toList k)
    (he : Fit Δ [] e t) (hns : ∀ l ∈ k, l ∈ ns ∧ ∃ b, l.2.ty = .placed t site b) :
    Supplies v s d Δ ns site (o.elim c fun step => c.withInput step.name e) (k ++ K) := by
  cases o with
  | none =>
    cases hk
    exact h
  | some step =>
    obtain ⟨l, rest, hl, hrest, rfl⟩ := List.forall₂_cons_left_iff.mp hk
    obtain rfl := List.forall₂_nil_left_iff.mp hrest
    obtain ⟨hmem, b, hb⟩ := hns l (by simp)
    refine ⟨h.view, h.mode, ?_, fun z e' hz => ?_, fun l' hl' => ?_⟩
    · cases site <;> exact h.own
    · simp only [Option.elim_some, Slice.withInput, Subst.lookup_insert] at hz
      split at hz
      · rename_i hname
        cases hz
        exact ⟨l.2, b, by simpa [hname, hl.name] using hmem, he.ty ▸ hb, he.ty ▸ he⟩
      · exact h.inputs z e' hz
    · simp only [Option.elim_some, Slice.withInput, Subst.lookup_insert]
      split
      · exact ⟨e, rfl⟩
      · rename_i hname
        rcases List.mem_cons.mp hl' with rfl | hl'
        · exact absurd hl.name.symm hname
        · exact h.supplied l' hl'

theorem Supplies.serves (h : Supplies v s d Δ w.locals site c K)
    (hapart : ∀ x ∈ Δ.map Prod.fst, x ∉ w.locals.map Prod.fst) (hpre : avail <+: w.locals)
    (hK : ∀ l ∈ avail, (crossing? l.2).isSome = true → (∃ m b, l.2.ty = .placed m site b) → l ∈ K) :
    Serves v s d Δ w.locals avail site c :=
  ⟨h.view, h.mode, hapart, h.own, h.inputs, hpre,
    fun l hl hcross hty => h.supplied l (hK l hl hcross hty)⟩

theorem Lists.length (hv : Lists v y s d w.locals r) : v.steps.length = w.locals.length :=
  hv.steps.length_eq

theorem Serves.value (hs : Serves v s d Δ w.locals avail site c)
    (hw : Netted [(y, inputsType s d)] w cs) (hv : Lists v y s d w.locals r) (hwire : IsWire e)
    (he : e.Scoped (scope [(y, inputsType s d)] avail)) (hty : e.ty = .placed t site b) :
    Offers Δ w.locals avail (c.value e) t := by
  refine hs.wire hw hv (List.prefix_refl avail) ?_ hwire he hty
  rw [hs.view, hv.length]
  exact hs.initial.length_le

theorem Serves.tuple {es : List Expr} {ts : List Ty} (hs : Serves v s d Δ w.locals w.locals site c)
    (hw : Netted [(y, inputsType s d)] w cs) (hv : Lists v y s d w.locals r) (hne : es ≠ [])
    (hes : List.Forall₂ (fun e t => ∃ b, w.Wire [(y, inputsType s d)] e (.placed t site b)) es ts) :
    Offers Δ w.locals w.locals (c.value (mkTuple es)) (.tuple ts) := by
  have hwires : ∀ e ∈ es, ∃ t b, w.Wire [(y, inputsType s d)] e (.placed t site b) := fun e he => by
    obtain ⟨t, -, ht⟩ := forall₂_mem hes he
    exact ⟨t, ht⟩
  have hplaced : (mkTuple es).ty.isPlaced = true := by
    by_contra hne'
    obtain ⟨e, he⟩ := List.exists_mem_of_ne_nil es hne
    obtain ⟨t, b, hwire⟩ := hwires e he
    have := Ty.isPlaced_tuple.mp (Bool.eq_false_iff.mpr hne') e.ty (List.mem_map_of_mem he)
    simp [hwire.1.2] at this
  have hquiet : (mkTuple es).Quiet := quiet_mkTuple fun e he => by
    obtain ⟨t, b, hwire⟩ := hwires e he
    exact hwire.2.quiet
  have hvalue : c.value (mkTuple es) = (do return mkTuple (← Slice.sequence (es.map c.value))) := by
    refine (unlessInert_placed hplaced (classify_admitted fun e he =>
      admitted_of_calm (hquiet e he))).trans ?_
    rw [Slice.valuesWith_eq]
    rfl
  rw [hvalue]
  refine offers_tuple (List.forall₂_map_left_iff.mpr (hes.imp fun e t hwire => ?_))
  obtain ⟨b, hwire⟩ := hwire
  exact hs.value hw hv hwire.2 hwire.1.1 hwire.1.2

theorem Serves.channelValue {a : Expr} (hs : Serves v s d Δ w.locals avail site c)
    (hw : Netted [(y, inputsType s d)] w cs) (hv : Lists v y s d w.locals r)
    (hstep : Stepped step (x, gate (.crossing op) a u)) (ha : a.unpack.head? = some e)
    (hwire : IsWire e) (he : e.Scoped (scope [(y, inputsType s d)] avail))
    (hty : e.ty = .placed t site b) :
    Offers Δ w.locals avail (c.channelValue step) t := by
  have hboundary : step.boundary = some ⟨op, a.unpack, u⟩ := by
    simpa using hstep.boundary.symm
  have hvalue : c.channelValue step = c.value e := by
    simp [Slice.channelValue, hboundary, ha]
  rw [hvalue]
  exact hs.value hw hv hwire he hty

theorem staticArgument_inert {slot : String} {a : Expr} {i : Nat}
    (hstep : Stepped step (x, gate (.crossing op) a u)) (ha : a.unpack[i]? = some e)
    (he : e.Inert) : (Slice.staticArgument v step i slot).result = .ok (e, []) := by
  have hboundary : step.boundary = some ⟨op, a.unpack, u⟩ := by
    simpa using hstep.boundary.symm
  simp [Slice.staticArgument, hboundary, ha, Slice.value, valueWith_inert he]

def crossingsBy (op : Crossing) (ls : List (String × Expr)) : List (String × Expr) :=
  ls.filter fun l => crossing? l.2 == some op

theorem crossingsBy_append : crossingsBy op (k ++ K) = crossingsBy op k ++ crossingsBy op K :=
  List.filter_append k K

theorem Netted.crossingsBy (hw : Netted Γ w cs) :
    Synthesis.crossingsBy op w.locals = Synthesis.crossingsBy op cs := by
  rw [← hw.crossings, Synthesis.crossingsBy, Synthesis.crossingsBy, List.filter_filter]
  refine List.filter_congr fun l _ => ?_
  cases crossing? l.2 <;> simp

theorem Sends.crossingsBy {c : Ty} (h : Sends Γ w c k) :
    Synthesis.crossingsBy op k = if op = .broadcast then k else [] := by
  cases h <;> cases op <;> simp [Synthesis.crossingsBy]

theorem Aggregates.crossingsBy {f : MapReduce Expr} {a : Ty} (h : Aggregates Γ w f u a t k) :
    Synthesis.crossingsBy op k = if op = .aggregate then k else [] := by
  cases h <;> cases op <;> simp [Synthesis.crossingsBy]

theorem Sums.crossingsBy {op' : Crossing} (h : Sums Γ w op' t k) :
    Synthesis.crossingsBy op k = if op = op' then k else [] := by
  cases h <;> cases op <;> cases op' <;> simp [Synthesis.crossingsBy]

theorem Lists.stepsBy (hv : Lists v y s d w.locals r) (op : Crossing) :
    List.Forall₂ Stepped (v.steps.filter fun step => step.op? == some op)
    (crossingsBy op w.locals) :=
  List.rel_filter (fun step l h => by simp [h.op]) hv.steps

theorem Lists.broadcasts (hv : Lists v y s d w.locals r) :
    List.Forall₂ Stepped v.broadcasts (crossingsBy .broadcast w.locals) := by
  have hby : v.broadcasts = v.steps.filter fun step => step.op? == some .broadcast := by
    refine List.filter_congr fun step _ => ?_
    rw [Step.isBroadcast]
    cases step.op? <;> simp [Crossing.isBroadcast]
  exact hby ▸ hv.stepsBy .broadcast

theorem Lists.aggregation? (hv : Lists v y s d w.locals r) (hop : op.isAggregation = true)
    (hlen : (crossingsBy op w.locals).length ≤ 1) :
    List.Forall₂ Stepped (v.aggregation? op).toList (crossingsBy op w.locals) := by
  have hfind : v.aggregation? op = (v.steps.filter fun step => step.op? == some op).head? := by
    rw [View.aggregation?, ← List.head?_filter, View.aggregations, List.filter_filter]
    refine congrArg _ (List.filter_congr fun step _ => ?_)
    rw [Step.isAggregation]
    cases step.op? <;> grind
  rw [hfind]
  have hsteps := hv.stepsBy op
  revert hlen hsteps
  generalize crossingsBy op w.locals = ls
  generalize (v.steps.filter fun step => step.op? == some op) = steps
  intro hlen hsteps
  cases hsteps with
  | nil => exact .nil
  | cons h hrest =>
    cases hrest with
    | nil => exact .cons h .nil
    | cons => simp at hlen

theorem Lists.aggregations_eq_nil (hv : Lists v y s d w.locals r) :
    v.aggregations = [] ↔ ∀ op, op.isAggregation = true → crossingsBy op w.locals = [] := by
  simp only [View.aggregations, crossingsBy, List.filter_eq_nil_iff, Step.isAggregation]
  constructor
  · intro h op hop l hl hcross
    obtain ⟨step, hstep, hl⟩ := forall₂_mem hv.steps.flip hl
    exact h step hstep (by simp [hl.op, beq_iff_eq.mp hcross, hop])
  · intro h step hstep hagg
    obtain ⟨l, hl, hl'⟩ := forall₂_mem hv.steps hstep
    cases hop : step.op? with
    | none => simp [hop] at hagg
    | some op => exact h op (by simpa [hop] using hagg) l hl (by simp [← hl'.op, hop])

theorem Netted.first {l : String × Expr} {rest : List (String × Expr)}
    (hw : Netted Γ w (l :: rest)) :
    ∃ p q, w.locals = p ++ l :: q ∧ ∀ l' ∈ p, crossing? l'.2 = none := by
  obtain ⟨p, q, hsplit, hnone, -, -⟩ := List.filter_eq_cons_iff.mp hw.crossings
  exact ⟨p, q, hsplit, fun l' hl' => by simpa using hnone l' hl'⟩

/-- The broadcast is not late, as it comes before every aggregation. -/
theorem broadcastsFirst_ok (slot : String) {sent rest : List (String × Expr)} {c : Ty}
    (hw : Netted Γ w (sent ++ rest)) (hv : Lists v y s d w.locals r) (hsends : Sends Γ w c sent)
    (hby : crossingsBy .broadcast w.locals = sent) : (v.broadcastsFirst slot).result = .ok () := by
  have hnone : v.broadcasts.find? Step.late = none := by
    have hsteps := hby ▸ hv.broadcasts
    cases hsends with
    | nothing =>
      rw [List.forall₂_nil_right_iff.mp hsteps]
      rfl
    | @context z e _ _ =>
      obtain ⟨step, rest', hstep, hrest, hbroadcasts⟩ := List.forall₂_cons_right_iff.mp hsteps
      obtain rfl := List.forall₂_nil_right_iff.mp hrest
      rw [hbroadcasts, List.find?_eq_none]
      rintro step' hstep' hlate
      obtain rfl := List.mem_singleton.mp hstep'
      obtain ⟨p, q, hsplit, hp⟩ := hw.first
      -- The steps up to the broadcast, which are those of the locals up to it.
      have hpre := List.forall₂_take_append v.steps (p ++ [_]) q (by simpa [hsplit] using hv.steps)
      obtain ⟨first, hfirst, hbroadcast⟩ :=
        forall₂_mem hpre.flip (List.mem_append_right p (List.mem_singleton_self _))
      have hsame : first ∈ v.broadcasts := by
        refine List.mem_filter.mpr ⟨List.mem_of_mem_take hfirst, ?_⟩
        simp [Step.isBroadcast, hbroadcast.op, Crossing.isBroadcast]
      rw [hbroadcasts, List.mem_singleton] at hsame
      subst hsame
      obtain ⟨a, ha, hagg⟩ := hv.prompt _ (List.take_prefix _ _) ⟨first, hfirst, hlate⟩
      obtain ⟨l, hl, hal⟩ := forall₂_mem hpre ha
      rcases List.mem_append.mp hl with hl | hl
      · simp [Step.isAggregation, hal.op, hp l hl] at hagg
      · obtain rfl := List.mem_singleton.mp hl
        simp [Step.isAggregation, hal.op, Crossing.isAggregation, Crossing.isBroadcast] at hagg
  simp [View.broadcastsFirst, hnone]

theorem unpack_wire (h : IsWire e) (hty : e.ty = .placed t site b) : e.unpack = [e] := by
  cases h <;> simp_all [unpack]

theorem kept_nil : Kept Δ ns [] :=
  ⟨trivial, by simp, by simp⟩

theorem Offers.closed {a : SliceM Expr} (h : Offers [(x, t)] ns avail a u)
    (ht : t.isPlaced = false) :
    ∃ e ls, (a.run []).result = .ok (e, ls) ∧ e.ty = u ∧ (closeOver x t e ls).Inert ∧
      (closeOver x t e ls).ty = .func t u := by
  obtain ⟨e, ls, hrun, -, hkept, hfit⟩ := h [] kept_nil
  exact ⟨e, ls, hrun, hfit.ty, hkept.closeOver hfit ht⟩

theorem serverContext_ok (slot : String) {sent rest : List (String × Expr)} {c : Ty}
    (hw : Netted [(y, inputsType s d)] w (sent ++ rest)) (hv : Lists v y s d w.locals r)
    (hsends : Sends [(y, inputsType s d)] w c sent) (hby : crossingsBy .broadcast w.locals = sent)
    (hs : s.isPlaced = false) (hx : x ∉ w.locals.map Prod.fst) :
    ∃ F, (v.serverContext slot x).result = .ok (F, c) ∧ F.Inert ∧ F.ty = .func s c := by
  have hsteps := hby ▸ hv.broadcasts
  cases hsends with
  | nothing hc =>
    have hbroadcasts := List.forall₂_nil_right_iff.mp hsteps
    subst hc
    have hkept : Kept [(x, s)] w.locals [] := kept_nil
    obtain ⟨hinert, hty⟩ := hkept.closeOver (e := mkTuple []) (fit_mkTuple .nil) hs
    refine ⟨_, ?_, hinert, hty⟩
    simp only [View.serverContext, Traced.bind_ok, Prod.exists, Traced.pure_ok,
      hbroadcasts, hv.state]
    exact ⟨[], [], by simp [Slice.channelValues], (), Traced.note_ok, _,
      fillSlot_inert hinert hty, rfl⟩
  | @context z e hc he =>
    obtain ⟨step, rest', hstep, hrest, hbroadcasts⟩ := List.forall₂_cons_right_iff.mp hsteps
    obtain rfl := List.forall₂_nil_right_iff.mp hrest
    obtain ⟨p, q, hsplit, hp⟩ := hw.first
    have hchain := hw.chain
    rw [hsplit, chain_append] at hchain
    have hscoped : e.Scoped (scope [(y, inputsType s d)] p) :=
      fun Δ hΔ => (typed_call.mp (hchain.2.2.1 Δ hΔ)).1
    let slice : Slice :=
      { view := v, mode := .lowered, stage := .broadcast, slot, state := some (.ref x s) }
    have hserves : Serves v s d [(x, s)] w.locals p .coordinator slice := by
      have hsupplies : Supplies v s d [(x, s)] w.locals .coordinator slice [] :=
        ⟨rfl, rfl, ⟨_, rfl, fit_param hs⟩, by simp [slice], by simp⟩
      refine hsupplies.serves (by simpa using hx) ⟨_, hsplit.symm⟩ fun l hl hcross => ?_
      simp [hp l hl] at hcross
    have hhead : e.unpack.head? = some e := by rw [unpack_wire he.2 he.1.2]; rfl
    obtain ⟨context, ls, hrun, rfl, hinert, hty⟩ :=
      (hserves.channelValue hw hv hstep hhead he.2 hscoped he.1.2).closed hs
    refine ⟨_, ?_, hinert, hty⟩
    simp only [View.serverContext, Traced.bind_ok, Prod.exists, Traced.pure_ok,
      hbroadcasts, hv.state]
    refine ⟨[context], ls, ?_, (), Traced.note_ok, _, fillSlot_inert hinert hty, rfl⟩
    simp only [Slice.channelValues, List.mapM_cons, List.mapM_nil, Traced.run_bind_ok,
      Traced.run_pure_ok]
    exact ⟨context, ls, hrun, [], ls, rfl, rfl⟩

theorem Gate.crosses {g : Expr} (h : Gate g) (hcross : crossing? g = some op)
    (hty : g.ty = .placed t site b) :
    (op = .broadcast ∧ site = .participants) ∨ (op.isAggregation = true ∧ site = .coordinator) := by
  cases h with
  | map | zip | nothing => simp at hcross
  | broadcast =>
    obtain ⟨-, rfl, -⟩ := Ty.placed.inj hty
    exact .inl ⟨by simpa using hcross.symm, rfl⟩
  | aggregation hop =>
    obtain ⟨-, rfl, -⟩ := Ty.placed.inj hty
    obtain rfl : _ = op := by simpa using hcross
    exact .inr ⟨hop, rfl⟩

theorem serves_participants {sent : List (String × Expr)} {ctx : Ty} {source : Expr}
    (hw : Netted [(y, inputsType s d)] w cs) (hv : Lists v y s d w.locals r)
    (hsends : Sends [(y, inputsType s d)] w ctx sent) (hby : crossingsBy .broadcast w.locals = sent)
    (hc : Supplies v s d Δ w.locals .participants c [])
    (hapart : ∀ x ∈ Δ.map Prod.fst, x ∉ w.locals.map Prod.fst) (hsource : Fit Δ [] source ctx) :
    Serves v s d Δ w.locals w.locals .participants (v.broadcastResults source c) := by
  have hK : ∀ l ∈ w.locals, (crossing? l.2).isSome = true →
      (∃ m b, l.2.ty = .placed m .participants b) → l ∈ sent := by
    rintro l hl hcross ⟨m, b, hty⟩
    obtain ⟨op, hop⟩ := Option.isSome_iff_exists.mp hcross
    rcases (hw.kind l hl).crosses hop hty with ⟨rfl, -⟩ | ⟨-, hsite⟩
    · rw [← hby]
      exact List.mem_filter.mpr ⟨hl, by simp [hop]⟩
    · cases hsite
  have hsteps := hby ▸ hv.broadcasts
  cases hsends with
  | nothing =>
    have hresults : v.broadcastResults source c = c := by
      simp [View.broadcastResults, View.indexedBroadcasts, List.forall₂_nil_right_iff.mp hsteps]
    rw [hresults]
    exact hc.serves hapart (List.prefix_refl _) hK
  | context =>
    obtain ⟨step, rest', hstep, hrest, hbroadcasts⟩ := List.forall₂_cons_right_iff.mp hsteps
    obtain rfl := List.forall₂_nil_right_iff.mp hrest
    have hresults : v.broadcastResults source c = (some step).elim c fun step =>
        c.withInput step.name source := by
      simp [View.broadcastResults, hbroadcasts]
    rw [hresults]
    refine (hc.withInput (o := some step) (.cons hstep .nil) hsource ?_).serves hapart
      (List.prefix_refl _) (by simpa using hK)
    simp only [List.forall_mem_singleton]
    exact ⟨(List.mem_filter.mp (hby ▸ List.mem_singleton_self _)).1, true, rfl⟩

theorem broadcastParts_ok {sent : List (String × Expr)}
    {ctx o : Ty} (hw : Netted [(y, inputsType s d)] w sent)
    (hv : Lists v y s d w.locals e) (hsends : Sends [(y, inputsType s d)] w ctx sent)
    (he : w.Wire [(y, inputsType s d)] e (.atParticipants o)) (hs : s.isPlaced = false)
    (hd : d.isPlaced = false) (hc : ctx.isPlaced = false) :
    ∃ parts, v.broadcastParts.result = .ok parts ∧ parts.context.Inert ∧ parts.processing.Inert ∧
      parts.context.ty = .func s ctx ∧ parts.processing.ty = .func (.tuple [ctx, d]) o := by
  have hby : crossingsBy .broadcast w.locals = sent := by
    rw [hw.crossingsBy, hsends.crossingsBy, if_pos rfl]
  obtain ⟨hstate, hused⟩ := Names.fresh_avoids "state" hv.used
  obtain ⟨harg, -⟩ := Names.fresh_avoids "arg" hused
  have hw' : Netted [(y, inputsType s d)] w (sent ++ []) := by simpa using hw
  obtain ⟨context, hcontext, hinert, hty⟩ :=
    serverContext_ok Broadcast.slots.context hw' hv hsends hby hs hstate
  have hnone : v.aggregations = [] := hv.aggregations_eq_nil.mpr fun op hop => by
    rw [hw.crossingsBy, hsends.crossingsBy, if_neg (by rintro rfl; cases hop)]
  have hargs : (Ty.tuple [ctx, d]).isPlaced = false := Ty.isPlaced_tuple.mpr (by simp [hc, hd])
  generalize hname : ((v.names.fresh "state").2.fresh "arg").1 = arg at harg
  have hparam := fit_param (x := arg) hargs
  let slice : Slice := {
    view := v, mode := .lowered, stage := .work, slot := Broadcast.slots.processing
    data := some ((Expr.ref arg (.tuple [ctx, d])).field 1) }
  have hserves := serves_participants (c := slice) hw hv hsends hby
    ⟨rfl, rfl, ⟨_, rfl, hparam.field rfl⟩, by simp [slice], by simp⟩ (by simpa using harg)
    (hparam.field (i := 0) rfl)
  obtain ⟨result, ls, hrun, -, hinert', hty'⟩ :=
    (hserves.value hw hv he.2 he.1.1 he.1.2).closed hargs
  have hmember : e.ty.memberAt? .participants = some o := by
    rw [he.1.2]
    rfl
  refine ⟨⟨context, closeOver arg (.tuple [ctx, d]) result ls⟩, ?_, hinert, hinert', hty, hty'⟩
  simp only [View.broadcastParts, hv.data, hv.result, hmember, hname, hnone, Traced.bind_ok,
    List.head?_nil]
  exact ⟨(), rfl, (), rfl, (), rfl, (), broadcastsFirst_ok _ hw' hv hsends hby, (context, ctx),
    hcontext, (), rfl, (result, ls), hrun, _, fillSlot_inert hinert' hty', (), rfl, rfl⟩

end Synthesis

end TwoTier

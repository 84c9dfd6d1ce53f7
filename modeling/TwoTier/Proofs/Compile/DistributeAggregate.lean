import TwoTier.Proofs.Factoring

/-! # Distribute-aggregate forms of rounds

The five functions of a compiled round pass the values of the round on: what is broadcast, what is
carried over, what the participants contribute, and the aggregates. The last one has the result of
the round.
-/

namespace TwoTier

open Filter

namespace Round

open Expr

variable {s : Setting} {Z : Prop} {C : List Cell} {view : View} {param : Cell}
  {state result : Value} {data : List Value} {e : Expr} {t b u : Ty} {x : String}
  {ls : List (String × Expr)}

theorem Slot.shows_halves {t₁ t₂ : Ty} {v₁ v₂ w₁ w₂ : Value} (h₁ : Similar s t₁ v₁ w₁)
    (h₂ : Similar s t₂ v₂ w₂) : (Slot.over s .placed 0 C x (.pair w₁ w₂)).Shows []
    ((Expr.ref x (.tuple [t₁, t₂])).field 0) t₁ v₁ ∧
      (Slot.over s .placed 0 C x (.pair w₁ w₂)).Shows []
      ((Expr.ref x (.tuple [t₁, t₂])).field 1) t₂ v₂ :=
  ⟨Slot.shows_over rfl rfl fun _ henv => ⟨w₁, runs_field (n := 0) (runs_ref.mpr henv) rfl, h₁⟩,
    Slot.shows_over rfl rfl fun _ henv => ⟨w₂, runs_field (n := 1) (runs_ref.mpr henv) rfl, h₂⟩⟩

theorem Slot.Sees.withState {k : Slot} {c : Slice}
    (hrun : view.Run k.setting Z param k.cells state data result)
    (h : k.Sees Z c param) (he : k.Shows [] e (.atCoordinator view.state) (.atServer state)) :
    k.Sees Z { c with state := some e } param where
  mode := h.mode
  index := h.index
  param_name := h.param_name
  steps := h.steps
  nodup := h.nodup
  inputs := h.inputs
  select := by
    intro n ts vs t v e' hts hvs ht hv he'
    by_cases hn : n = 0
    · subst hn
      obtain rfl := Ty.tuple.inj (hrun.ty.symm.trans hts)
      obtain rfl := Value.tuple.inj (hrun.value.symm.trans hvs)
      simp only [List.getElem?_cons_zero, Option.some.injEq, if_pos] at ht hv he'
      exact ht ▸ hv ▸ he' ▸ he
    · exact h.select hts hvs ht hv (by simpa [hn] using he')

/-- A tuple of the given type that has the values of the round. -/
def Bundles (s : Setting) (tvs : List (Ty × Value)) (t : Ty) (w : Value) : Prop :=
  t = .tuple (tvs.map Prod.fst) ∧
    Similar s (.tuple (tvs.map Prod.fst)) (.tuple (tvs.map Prod.snd)) w

theorem View.Denotes.bundles {a : Value} {es : List Expr}
    {tvs : List (Ty × Value)} (h : view.Denotes s Z param C result)
    (hx : x ∉ view.names.used) (hl : (Slot.over s .placed 0 C x a).Locals ls)
    (hes : List.Forall₂ (fun e tv => (Slot.over s .placed 0 C x a).Shows ls e tv.1 tv.2) es tvs)
    (u : Ty) :
    ∃ w, Applies s (closeOver x u (mkTuple es) ls) (some a) w ∧ Bundles s tvs (tupleType es) w := by
  have hs := Slot.shows_tuple hes
  obtain ⟨w, hw, hvw⟩ := Slot.applies_over h.cells_nodup (h.not_mem_cells hx) hl hs u
  exact ⟨w, hw, hs.ty, hvw⟩

/-- The coordinator has a carried value as `tv`. -/
def Carried.Denotes (C : List Cell) (view : View) (state : Value) (gs : List Gathered) :
    Carried → Ty × Value → Prop
  | .state, tv => tv = (.atCoordinator view.state, .atServer state)
  | .step a, tv => ∃ c ∈ C, c.name = a.name ∧ tv = (c.ty, c.value)
  | .argument j n _, tv => ∃ g, gs[j]? = some g ∧ g.args[n]? = some tv

theorem View.mem_carried_argument {j n : Nat} (h : .argument j n e ∈ view.carried) :
    ∃ step b, view.aggregations[j]? = some step ∧ step.boundary = some b ∧ b.args[n]? = some e := by
  simp only [View.carried, List.mem_append, List.mem_map, reduceCtorEq, and_false, exists_false,
    or_false, List.mem_flatMap, Prod.exists] at h
  obtain h | ⟨step, j', hj, h⟩ := h
  · split at h <;> simp at h
  split at h
  · simp at h
  rename_i b hb
  simp only [List.mem_filterMap, Prod.exists] at h
  obtain ⟨e', n', hn, h⟩ := h
  split at h
  · cases h
    exact ⟨step, b, List.mem_zipIdx_iff_getElem?.mp hj, hb,
      List.mem_zipIdx_iff_getElem?.mp (List.mem_of_mem_drop hn)⟩
  · cases h

theorem View.mem_carried_step {step : Step} (h : .step step ∈ view.carried) :
    step ∈ view.steps := by
  simp only [View.carried, List.mem_append, List.mem_map, Carried.step.injEq, exists_eq_right,
    List.mem_filter, List.mem_flatMap, Prod.exists] at h
  obtain (h | h) | ⟨_, _, -, h⟩ := h
  · split at h <;> simp at h
  · exact h.1
  · split at h
    · simp at h
    · simp only [List.mem_filterMap, Prod.exists] at h
      obtain ⟨_, _, -, h⟩ := h
      split at h <;> cases h

theorem View.Run.carried {k : Slot} {c : Slice} {gs : List Gathered}
    (h : view.Run k.setting Z param k.cells state data result) (hsees : k.Sees Z c param)
    (hgs : List.Forall₂ (Step.Gathers k.setting Z param k.cells) view.aggregations gs)
    (he : k.Shows [] e (.atCoordinator view.state) (.atServer state)) :
    ∀ item ∈ view.carried, ∃ tv, item.Denotes k.cells view state gs tv ∧ k.Yields (match item with
      | .state => pure e
      | .step s => c.value (.ref s.name s.value.ty)
      | .argument _ _ e => c.value e) tv.1 tv.2 := by
  intro item hitem
  cases item with
  | state => exact ⟨_, rfl, Slot.yields_pure he⟩
  | step step =>
    obtain ⟨cell, hc, hd⟩ := h.denotes.mem_steps (View.mem_carried_step hitem)
    refine ⟨_, ⟨cell, hc, hd.name.symm, rfl⟩, ?_⟩
    change k.Yields (c.value (.ref step.name step.value.ty)) cell.ty cell.value
    rw [hd.name, hd.ty]
    exact hsees.value (.ref (List.mem_cons_of_mem _ hc) (hd.ty ▸ hd.means.inhabits))
  | argument j n e =>
    obtain ⟨step, b, hstep, hb, he⟩ := View.mem_carried_argument hitem
    obtain ⟨g, hg, hgather⟩ := forall₂_getElem? hgs hstep
    obtain ⟨_, hb', hargs, -⟩ := hgather.boundary
    cases hb.symm.trans hb'
    obtain ⟨tv, htv, hty, hm⟩ := forall₂_getElem? hargs he
    exact ⟨tv, ⟨g, hg, htv⟩, hty ▸ hsees.value hm⟩

theorem View.Run.serverPrepare {gs : List Gathered} (h : view.Run s Z param C state data result)
    (hgs : List.Forall₂ (Step.Gathers s Z param C) view.aggregations gs) (hx : x ∉ view.names.used)
    (hr : (view.serverPrepare x).result = .ok (e, b, t)) : ∃ bvs tvs sent carried,
      List.Forall₂ (Step.Delivers s C) view.broadcasts bvs ∧
      List.Forall₂ (Carried.Denotes C view state gs) view.carried tvs ∧
      Applies s e (some (.atServer state)) (.pair sent carried) ∧ Bundles s bvs b sent ∧
      Bundles s tvs t carried := by
  simp only [View.serverPrepare, Traced.bind_ok, Prod.exists, Traced.pure_ok, Prod.mk.injEq,
    Traced.run_bind_ok, Traced.run_pure_ok] at hr
  obtain ⟨bs, cs, ls, ⟨bs', ls₁, hbs, cs', ls₂, hcs, ⟨rfl, rfl⟩, rfl⟩, _, -, _, -, slotted, hfill,
    rfl, rfl, rfl⟩ := hr
  obtain ⟨rfl, -⟩ := fillSlot_ok hfill
  let k := Slot.over s .placed 0 C x (.atServer state)
  have hstate : k.Shows [] (.ref x (.atCoordinator view.state)) (.atCoordinator view.state)
      (.atServer state) :=
    Slot.shows_over rfl rfl fun env henv => ⟨_, runs_ref.mpr henv, state, state, rfl, rfl,
      h.state_inhabits⟩
  have hsees : k.Sees Z
      { view, mode := .placed, stage := .broadcast, slot := DistributeAggregate.slots.serverPrepare,
        state := some (.ref x (.atCoordinator view.state)) } param :=
    View.Run.sees (k := k) h rfl rfl (by simp [k, Slot.over])
      (fun e he => Option.some.inj he ▸ hstate) (by simp) rfl
  obtain ⟨bvs, hdel, -, hl₁, hbs⟩ := View.Denotes.channelValues (k := k) h.denotes hsees .nil hbs
  obtain ⟨tvs, htvs⟩ := exists_forall₂ (View.Run.carried (k := k) h hsees hgs hstate)
  obtain ⟨⟨ds, rfl⟩, hl₂, hcs⟩ := Slot.yields_mapM (htvs.imp fun _ _ h => h.2) hl₁ hcs
  have hb : k.Shows (ls₁ ++ ds) _ _ _ := Slot.shows_tuple (hbs.imp fun _ _ h => h.append)
  have hc := Slot.shows_tuple hcs
  have hpair : List.Forall₂ (fun e tv => k.Shows (ls₁ ++ ds) e tv.1 tv.2)
      [mkTuple bs', mkTuple cs'] [(.tuple (bvs.map Prod.fst), .tuple (bvs.map Prod.snd)),
      (.tuple (tvs.map Prod.fst), .tuple (tvs.map Prod.snd))] :=
    .cons hb (.cons hc .nil)
  obtain ⟨w, hw, hvw⟩ := Slot.applies_over h.denotes.cells_nodup (h.denotes.not_mem_cells hx) hl₂
    (Slot.shows_tuple hpair) (.atCoordinator view.state)
  obtain ⟨_, _, ⟨⟩, rfl, _, _, sent, _, ⟨⟩, rfl, hsent, _, _, carried, _, ⟨⟩, rfl, hcarried,
    ⟨⟩, rfl⟩ := hvw
  exact ⟨bvs, tvs, sent, carried, hdel, htvs.imp fun _ _ h => h.1, hw, ⟨hb.ty, hsent⟩,
    hc.ty, hcarried⟩

def Step.HasCell (C : List Cell) (step : Step) (c : Cell) : Prop :=
  c ∈ C ∧ c.name = step.name

def contents (cs : List Cell) : List (Ty × Value) :=
  cs.map fun c => (c.ty, c.value)

theorem View.Run.broadcastAll {bvs : List (Ty × Value)}
    {sent : Value} (h : view.Run s Z param C state data result)
    (hdel : List.Forall₂ (Step.Delivers s C) view.broadcasts bvs) (hsent : Bundles s bvs b sent)
    (hx : x ∉ view.names.used) (hr : (view.broadcastAll x b).result = .ok (e, t)) :
    ∃ cs received, List.Forall₂ (Step.HasCell C) view.broadcasts cs ∧
    Applies s e (some sent) received ∧
      Bundles s (contents cs) t received := by
  simp only [View.broadcastAll, Traced.bind_ok, Traced.mapM_ok, Traced.pure_ok, Prod.mk.injEq] at hr
  obtain ⟨ls, hls, _, -, slotted, hfill, rfl, rfl⟩ := hr
  obtain ⟨rfl, -⟩ := fillSlot_ok hfill
  let k := Slot.over s .placed 0 C x sent
  have hparam : k.Shows [] (.ref x b) (.tuple (bvs.map Prod.fst)) (.tuple (bvs.map Prod.snd)) :=
    Slot.shows_over hsent.1 rfl fun env henv => ⟨sent, runs_ref.mpr henv, hsent.2⟩
  obtain ⟨hlen, hls⟩ := forall₂_zipIdx hls
  obtain ⟨cs, hcs, hlocals⟩ := forall₂_choose_getElem? (Q := Step.HasCell C) (S := fun l c =>
    l ∈ ls ∧ c ∈ C ∧ c.name = l.1 ∧ k.Shows [] l.2 c.ty c.value) hlen fun i step l hstep hl => by
      obtain ⟨tv, htv, m, flag, u, rfl, c, hc, hname, hcty, hcv⟩ := forall₂_getElem? hdel hstep
      have hl' := hls i step l hstep hl
      split at hl'
      · rename_i call hcall
        obtain rfl := Traced.pure_ok.mp hl'
        refine ⟨c, ⟨hc, hname⟩, List.mem_of_getElem? hl, hc, hname, ?_⟩
        rw [hcty, hcv]
        exact Slot.shows_intrinsic rfl rfl (Slot.shows_field hparam htv)
          (runs_broadcast.mpr ⟨u, rfl, rfl⟩) hcall
      · exact absurd hl' Traced.fail_ok
  have hl : k.Locals ls := Slot.locals_of_forall fun l hl => by
    obtain ⟨c, -, -, hc⟩ := forall₂_mem hlocals hl
    exact ⟨c, hc⟩
  have hout : List.Forall₂ (fun e tv => k.Shows ls e tv.1 tv.2) (ls.map fun l => .ref l.1 l.2.ty)
      (contents cs) := by
    rw [contents, List.forall₂_map_left_iff, List.forall₂_map_right_iff]
    refine hlocals.imp fun l c h => ?_
    obtain ⟨hl, hc, hname, hs⟩ := h
    rw [← hname]
    exact Slot.shows_ref hc (hname ▸ List.mem_map_of_mem hl) hs.ty hs.admits
  obtain ⟨w, hw, hbundle⟩ := h.denotes.bundles hx hl hout b
  exact ⟨cs, w, hcs, hw, hbundle⟩

theorem Slot.Sees.withBundle {k : Slot} {c : Slice} {steps : List Step} {cs : List Cell}
    (h : k.Sees Z c param) (hcs : List.Forall₂ (Step.HasCell k.cells) steps cs)
    (he : k.Shows [] e
      (.tuple ((contents cs).map Prod.fst)) (.tuple ((contents cs).map Prod.snd))) :
    k.Sees Z (steps.zipIdx.foldl (fun c (s, n) => c.withInput s.name (e.field n)) c) param := by
  refine Slot.Sees.withInputs h (fun n step hn => ?_ : ∀ n step, steps[n]? = some step →
    ∃ cell ∈ k.cells, cell.name = step.name ∧ k.Shows [] (e.field n) cell.ty cell.value)
  obtain ⟨c, hc, hmem, hname⟩ := forall₂_getElem? hcs hn
  have hn : (contents cs)[n]? = some (c.ty, c.value) := by simp [contents, hc]
  exact ⟨c, hmem, hname, Slot.shows_field he hn⟩

theorem View.Run.clientWork {gs : List Gathered} {cs : List Cell} {received : Value}
    (h : view.Run s Z param C state data result)
    (hgs : List.Forall₂ (Step.Gathers s Z param C) view.aggregations gs)
    (hcs : List.Forall₂ (Step.HasCell C) view.broadcasts cs)
    (hreceived : Bundles s (contents cs) b received)
    (hx : x ∉ view.names.used) (hr : (view.clientWork x b).result = .ok (e, t)) :
    ∃ values, Applies s e (some (.pair (.atClients data) received)) values ∧
      Bundles s (gs.map Gathered.first) t values := by
  simp only [View.clientWork, Traced.bind_ok, Prod.exists, Traced.pure_ok, Prod.mk.injEq] at hr
  obtain ⟨es, ls, hes, _, -, slotted, hfill, rfl, rfl⟩ := hr
  obtain ⟨rfl, -⟩ := fillSlot_ok hfill
  obtain ⟨rfl, hreceived⟩ := hreceived
  have hdata : Inhabits s (.atParticipants view.data) (.atClients data) :=
    ⟨data, data, rfl, rfl, h.participants, List.forall₂_same.mpr h.data_inhabits⟩
  let k := Slot.over s .placed 0 C x (.pair (.atClients data) received)
  obtain ⟨hfst, hsnd⟩ := Slot.shows_halves (C := C) (x := x) hdata hreceived
  have hsees :
    k.Sees Z { view, mode := .placed, stage := .work, slot := DistributeAggregate.slots.clientWork,
                          data := some _ } param :=
    View.Run.sees (k := k) h rfl rfl (by simp [k, Slot.over]) (by simp)
      (fun e he => Option.some.inj he ▸ hfst) rfl
  have hfirst := hgs.imp fun _ _ hg => (hsees.withBundle hcs hsnd).yields_first hg
  obtain ⟨-, hl, hes⟩ := Slot.yields_mapM (List.forall₂_map_right_iff.mpr hfirst) .nil hes
  exact h.denotes.bundles hx hl hes _

section Carry

variable {k : Slot} {c : Slice} {gs : List Gathered} {tvs : List (Ty × Value)} {source : Expr}

theorem View.Run.sees_carried (h : view.Run k.setting Z param k.cells state data result)
    (hsees : k.Sees Z c param)
    (htvs : List.Forall₂ (Carried.Denotes k.cells view state gs) view.carried tvs)
    (hs : k.Shows [] source (.tuple (tvs.map Prod.fst)) (.tuple (tvs.map Prod.snd))) :
    k.Sees Z (view.withCarried source c) param := by
  refine List.foldlRecOn (motive := fun c => k.Sees Z c param) _ _ hsees fun c hsees p hmem => ?_
  obtain ⟨item, n⟩ := p
  obtain ⟨tv, htv, hd⟩ := forall₂_getElem? htvs (List.mem_zipIdx_iff_getElem?.mp hmem)
  have hshow := Slot.shows_field hs htv
  cases item with
  | state =>
    cases hd
    exact hsees.withState h hshow
  | step step =>
    obtain ⟨cell, hc, hname, rfl⟩ := hd
    change k.Sees Z (c.withInput step.name (source.field n)) param
    exact hname ▸ hsees.withInput hc hshow
  | argument => exact hsees

theorem Gathered.others {g : Gathered} {b : BoundaryCall}
    (hargs : List.Forall₂ (fun e tv => e.ty = tv.1 ∧ Means s Z (param :: C) e tv.2) b.args g.args) :
    List.Forall₂ (fun p tv => p.1.ty = tv.1 ∧ Means s Z (param :: C) p.1 tv.2 ∧
    g.args[p.2]? = some tv)
      (b.args.zipIdx.drop 1) g.rest := by
  obtain ⟨e, es, -, hes, hb⟩ := List.forall₂_cons_right_iff.mp hargs
  rw [hb]
  refine List.forall₂_iff_get.mpr ⟨by simpa using hes.length_eq, fun n hn hn' => ?_⟩
  have hn : n < es.length := by simpa using hn
  obtain ⟨hty, hm⟩ := (List.forall₂_iff_get.mp hes).2 n hn hn'
  simpa [Gathered.args, Nat.add_comm 1 n] using ⟨hty, hm⟩

theorem Carried.shows_argument {j n position : Nat} {g : Gathered}
    {tv : Ty × Value} (hj : gs[j]? = some g) (hn : g.args[n]? = some tv)
    (htvs : List.Forall₂ (Carried.Denotes k.cells view state gs) view.carried tvs)
    (hs : k.Shows [] source (.tuple (tvs.map Prod.fst)) (.tuple (tvs.map Prod.snd)))
    (h : view.carried.findIdx? (Carried.isArgument j n) = some position) :
    k.Shows [] (source.field position) tv.1 tv.2 := by
  obtain ⟨hlt, his, -⟩ := List.findIdx?_eq_some_iff_getElem.mp h
  obtain ⟨tv', htv', hd⟩ := forall₂_getElem? htvs (List.getElem?_eq_getElem hlt)
  generalize view.carried[position] = item at his hd
  cases item with
  | argument j' n' e =>
    simp only [Carried.isArgument, Bool.and_eq_true, beq_iff_eq] at his
    obtain ⟨rfl, rfl⟩ := his
    obtain ⟨g', hg', hn'⟩ := hd
    cases hj.symm.trans hg'
    cases hn.symm.trans hn'
    exact Slot.shows_field hs htv'
  | _ => cases his

theorem Slot.Sees.aggregationCall {values : Expr} {step : Step} {j : Nat} {g : Gathered}
    {o : Option Expr} {ls' : List (String × Expr)} (h : k.Sees Z c param) (hmode : k.mode = .placed)
    (htvs : List.Forall₂ (Carried.Denotes k.cells view state gs) view.carried tvs)
    (hs : k.Shows [] source (.tuple (tvs.map Prod.fst)) (.tuple (tvs.map Prod.snd)))
    (hg : step.Gathers k.setting Z param k.cells g) (hj : gs[j]? = some g)
    (hfirst : k.Shows [] (values.field j) g.first.1 g.first.2) (hl : k.Locals ls)
    (hr : ((view.aggregationCall c values source step j).run ls).result = .ok (o, ls')) :
    (∃ ds, ls' = ls ++ ds) ∧ k.Locals ls' ∧ ∃ e, o = some e ∧
    k.Shows ls' e g.cell.ty g.cell.value := by
  obtain ⟨b, hb, hargs, hres, hv⟩ := hg.boundary
  simp only [View.aggregationCall, hb, Traced.run_bind_ok, Slice.typed_ok, Slice.bind,
    Traced.run_modify_ok, Traced.run_pure_ok, Prod.mk.injEq] at hr
  obtain ⟨es, ls₁, hes, call, _, ⟨hcall, rfl⟩, _, _, ⟨_, _, ⟨-, rfl⟩, rfl, rfl⟩, rfl, rfl⟩ := hr
  have hextras : (∃ ds, ls₁ = ls ++ ds) ∧ k.Locals ls₁ ∧
      List.Forall₂ (fun e tv => k.Shows ls₁ e tv.1 tv.2) es g.rest := by
    refine Slot.yields_mapM ((Gathered.others hargs).imp fun p tv hp => ?_) hl hes
    obtain ⟨hty, hm, hn⟩ := hp
    split
    · rename_i position hposition
      exact Slot.yields_pure (Carried.shows_argument hj hn htvs hs hposition)
    · exact hty ▸ h.value hm
  obtain ⟨⟨ds, rfl⟩, hl₁, hes⟩ := hextras
  have hne : es ≠ [] := by
    rintro rfl
    exact hg.rest (List.forall₂_nil_left_iff.mp hes)
  have hparts := Slot.shows_tuple (.cons hfirst.of_nil hes)
  have hc := Slot.shows_intrinsic hmode hres hparts hv (by simpa [hne] using hcall)
  obtain ⟨hl₂, hshow⟩ := Slot.locals_bind hl₁ hg.mem hc
  exact ⟨⟨ds ++ [(step.name, call)], by simp⟩, hg.name ▸ hl₂, _, rfl, hg.name ▸ hshow⟩

end Carry

variable {gs : List Gathered} {tvs : List (Ty × Value)} {carried : Value}

theorem View.Run.aggregateAll {values : Value} (h : view.Run s Z param C state data result)
    (hgs : List.Forall₂ (Step.Gathers s Z param C) view.aggregations gs)
    (htvs : List.Forall₂ (Carried.Denotes C view state gs) view.carried tvs)
    (hcarried : Bundles s tvs t carried) (hvalues : Bundles s (gs.map Gathered.first) b values)
    (hx : x ∉ view.names.used) (hr : (view.aggregateAll x t b).result = .ok (e, u)) :
    ∃ aggregates, Applies s e (some (.pair carried values)) aggregates ∧
      Bundles s (contents (gs.map Gathered.cell)) u aggregates := by
  simp only [View.aggregateAll, Traced.bind_ok, Prod.exists, Traced.pure_ok, Prod.mk.injEq] at hr
  obtain ⟨os, ls, hos, _, -, slotted, hfill, rfl, rfl⟩ := hr
  obtain ⟨rfl, -⟩ := fillSlot_ok hfill
  obtain ⟨rfl, hcarried⟩ := hcarried
  obtain ⟨rfl, hvalues⟩ := hvalues
  let k := Slot.over s .placed 0 C x (.pair carried values)
  obtain ⟨hfst, hsnd⟩ := Slot.shows_halves (C := C) (x := x) hcarried hvalues
  have hsees : k.Sees Z
      { view, mode := .placed, stage := .aggregation,
        slot := DistributeAggregate.slots.aggregation }
      param :=
    View.Run.sees (k := k) h rfl rfl (by simp [k, Slot.over]) (by simp) (by simp) rfl
  have hsees := View.Run.sees_carried (k := k) h hsees htvs hfst
  obtain ⟨-, hl, hos⟩ := Slot.run_mapM (k := k)
    (P := fun ls p o => ∃ g e, gs[p.2]? = some g ∧ o = some e ∧ k.Shows ls e g.cell.ty g.cell.value)
    (by rintro _ _ _ _ ⟨g, e, hg, ho, hs⟩; exact ⟨g, e, hg, ho, hs.append⟩) (by
      rintro ⟨step, j⟩ hp ls ls' o hl hr
      obtain ⟨g, hj, hg⟩ := forall₂_getElem? hgs (List.mem_zipIdx_iff_getElem?.mp hp)
      have hfirst : (gs.map Gathered.first)[j]? = some g.first := by simp [hj]
      obtain ⟨hds, hl, e, ho, hs⟩ :=
        hsees.aggregationCall rfl htvs hfst hg hj (Slot.shows_field hsnd hfirst) hl hr
      exact ⟨hds, hl, g, e, hj, ho, hs⟩) .nil hos
  have hres : List.Forall₂ (fun e tv => k.Shows ls e tv.1 tv.2) (os.filterMap id)
      (contents (gs.map Gathered.cell)) := by
    obtain ⟨hlen, hos⟩ := forall₂_zipIdx hos
    refine forall₂_somes
      (forall₂_of_getElem? (by simpa [contents] using hlen.symm.trans hgs.length_eq) ?_)
    intro i o tv ho htv
    obtain ⟨step, hstep⟩ : ∃ step, view.aggregations[i]? = some step :=
      ⟨_, List.getElem?_eq_getElem (hlen ▸ (List.getElem?_eq_some_iff.mp ho).1)⟩
    obtain ⟨g, e, hg, he, hs⟩ := hos i step o hstep ho
    obtain rfl : (g.cell.ty, g.cell.value) = tv := by simpa [contents, hg] using htv
    exact ⟨e, he, hs⟩
  exact h.denotes.bundles hx hl hres _

theorem View.Run.serverResult {output : Ty} {aggregates : Value}
    (h : view.Run s Z param C state data result)
    (hgs : List.Forall₂ (Step.Gathers s Z param C) view.aggregations gs)
    (htvs : List.Forall₂ (Carried.Denotes C view state gs) view.carried tvs)
    (hcarried : Bundles s tvs t carried)
    (haggregates : Bundles s (contents (gs.map Gathered.cell)) b aggregates)
    (hx : x ∉ view.names.used) (hr : (view.serverResult x t b output).result = .ok e) :
    ∃ v, Applies s e (some (.pair carried aggregates)) v ∧ Similar s view.result.ty result v := by
  simp only [View.serverResult, Traced.bind_ok, Prod.exists] at hr
  obtain ⟨e, ls, he, hfill⟩ := hr
  obtain ⟨rfl, -⟩ := fillSlot_ok hfill
  obtain ⟨rfl, hcarried⟩ := hcarried
  obtain ⟨rfl, haggregates⟩ := haggregates
  let k := Slot.over s .placed 0 C x (.pair carried aggregates)
  obtain ⟨hfst, hsnd⟩ := Slot.shows_halves (C := C) (x := x) hcarried haggregates
  have hsees : k.Sees Z
      { view, mode := .placed, stage := .result, slot := DistributeAggregate.slots.serverResult }
      param :=
    View.Run.sees (k := k) h rfl rfl (by simp [k, Slot.over]) (by simp) (by simp) rfl
  have hcells : List.Forall₂ (Step.HasCell C) view.aggregations (gs.map Gathered.cell) :=
    List.forall₂_map_right_iff.mpr (hgs.imp fun _ _ hg => ⟨hg.mem, hg.name⟩)
  have hsees := (View.Run.sees_carried (k := k) h hsees htvs hfst).withBundle hcells hsnd
  obtain ⟨-, hl, hs⟩ := hsees.value h.denotes.result .nil he
  exact Slot.applies_over h.denotes.cells_nodup (h.denotes.not_mem_cells hx) hl hs _

theorem View.Run.distributeAggregateParts {parts : DistributeAggregate Expr}
    (h : view.Run s Z param C state data result)
    (hr : view.distributeAggregateParts.result = .ok parts) :
    ∃ v, parts.Yields s state data v ∧ Similar s view.result.ty result v := by
  simp only [View.distributeAggregateParts, Traced.bind_ok] at hr
  obtain ⟨_, -, _, -, hr⟩ := hr
  split at hr
  · exact absurd hr Traced.fail_ok
  simp only [Traced.bind_ok, Prod.exists] at hr
  obtain ⟨_, -, _, -, _, -, prepare, b, t, hprepare, broadcast, b', hbroadcast, _, -, work, a,
    hwork, _, -, hr⟩ := hr
  split at hr
  · exact absurd hr Traced.fail_ok
  simp only [Traced.bind_ok, Prod.exists, Traced.pure_ok] at hr
  obtain ⟨aggregation, a', haggregation, _, -, final, hfinal, _, -, rfl⟩ := hr
  obtain ⟨gs, hgs⟩ := h.denotes.gathers
  obtain ⟨hx₁, h₁⟩ := Names.fresh_avoids "server_state" (List.Subset.refl view.names.used)
  obtain ⟨hx₂, h₂⟩ := Names.fresh_avoids "broadcast_input" h₁
  obtain ⟨hx₃, h₃⟩ := Names.fresh_avoids "client_input" h₂
  obtain ⟨hx₄, h₄⟩ := Names.fresh_avoids "aggregation_input" h₃
  obtain ⟨hx₅, -⟩ := Names.fresh_avoids "result_input" h₄
  obtain ⟨bvs, tvs, sent, carried, hdel, htvs, hprepare, hsent, hcarried⟩ :=
    h.serverPrepare hgs hx₁ hprepare
  obtain ⟨cs, received, hcs, hbroadcast, hreceived⟩ := h.broadcastAll hdel hsent hx₂ hbroadcast
  obtain ⟨values, hwork, hvalues⟩ := h.clientWork hgs hcs hreceived hx₃ hwork
  obtain ⟨aggregates, haggregation, haggregates⟩ :=
    h.aggregateAll hgs htvs hcarried hvalues hx₄ haggregation
  obtain ⟨v, hfinal, hv⟩ := h.serverResult hgs htvs hcarried haggregates hx₅ hfinal
  exact ⟨v, ⟨sent, carried, received, values, aggregates, hprepare, hbroadcast, hwork,
    haggregation, hfinal⟩, hv⟩

end Round

/-- Compiling to the distribute-aggregate form preserves meaning. -/
theorem distributeAggregate_compile_preserves {r : Expr} {f : Form} {S D R : Ty}
    {n g : Nat} {state v : Value} {data : List Value} (hr : r.intrinsicsCalled = true)
    (hf : (compile r .distributeAggregate).result = .ok f) (hty : r.ty = roundType S D R)
    (hstate : Inhabits { participants := data.length, groupSize := g } S state)
    (hdata : ∀ d ∈ data, Inhabits { participants := data.length, groupSize := g } D d)
    (hv : (Eval.round n g r state data).result = .ok v) (hvd : v.isData = true) :
    ∃ m₀, ∀ m ≥ m₀, (Eval.form m g f state data).result = .ok v := by
  obtain ⟨hc, parts, hparts, hform⟩ := compile_ok hf
  simp only [Round.parts, Traced.bind_ok, Traced.pure_ok] at hparts
  obtain ⟨view, hview, _, -, p, hp, rfl⟩ := hparts
  simp only [Form.ofParts, Traced.bind_ok, Traced.pure_ok] at hform
  obtain ⟨f, hform, rfl⟩ := hform
  obtain ⟨param, C, hrun⟩ :=
    Round.View.run_of_round (Z := False) hview hc hr False.elim hty hstate hdata hv
  obtain ⟨w, hw, hsim⟩ := hrun.distributeAggregateParts hp
  obtain rfl := hsim.eq_of_isData hvd
  obtain ⟨_, _, _, _, _, _, _, _, hchecked⟩ := Form.ofDistributeAggregate_ok hform
  exact eventually_atTop.mp (hchecked.eval hw)

/-- A round that adds what the coordinator sends to the value of each participant and sums up over
the participants. -/
def totalsOf (send : Expr → Expr) : Expr :=
  let pair := Ty.tuple [.int32, .int32]
  let inputs := Ty.tuple [.atCoordinator .int32, .atParticipants .int32]
  let call := fun uri a t => Expr.call (.intrinsic uri (.func (Expr.ty a) t)) a t
  let state := Expr.select (.ref "p" inputs) 0 (.atCoordinator .int32)
  let data := Expr.select (.ref "p" inputs) 1 (.atParticipants .int32)
  let received := call "federated_broadcast" (send state) (.place .int32 .participants true)
  let rows := call "federated_zip_at_clients" (Expr.mkTuple [received, data]) (.atParticipants pair)
  let add := Expr.builtin .add (.func pair .int32)
  let sums := call "federated_map" (Expr.mkTuple [add, rows]) data.ty
  let total := call "federated_secure_sum" (Expr.mkTuple [sums, .int 100]) state.ty
  Expr.mkLambda "p" inputs (Expr.mkTuple [total, state])

def totals : Expr := totalsOf id

theorem distributeAggregate_compile_preserves_totals :
    ∃ f, (compile totals .distributeAggregate).result = .ok f ∧
    ∃ m₀, ∀ m ≥ m₀, (Eval.form m 2 f (.int 1) [.int 2, .int 3]).result =
      .ok (.pair (.atServer (.int 7)) (.atServer (.int 1))) := by
  have hint (n : Int) : Inhabits { participants := 2, groupSize := 2 } .int32 (.int n) :=
    inhabits_int.mpr ⟨n, rfl⟩
  obtain ⟨f, hf⟩ : ∃ f, (compile totals .distributeAggregate).result = .ok f :=
    except_isOk (by decide +kernel)
  exact ⟨f, hf, distributeAggregate_compile_preserves (n := 20) (by decide) hf rfl (hint 1)
    (by simp [hint]) rfl (by decide)⟩

end TwoTier

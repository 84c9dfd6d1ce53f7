import TwoTier.Proofs.Elaboration
import TwoTier.Proofs.Factoring

/-! # The type of a round and of its form

Taking a round apart keeps the type of its result, also where it calls intrinsics at types that they
do not have. So the signature of the form can be read off the type of the round.
-/

namespace TwoTier

namespace Expr

variable {e r : Expr} {t : Ty} {Γ : List (String × Ty)} {m : Subst} {avoid scope : List String}

/-- A tuple literal has the types of its elements, also inside of itself. -/
inductive Tupled : Expr → Prop where
  | tuple {es : List Expr} (h : ∀ e ∈ es, Tupled e) : Tupled (.tuple es (.tuple (es.map ty)))
  | other {e : Expr} (h : ∀ es t, e ≠ .tuple es t) : Tupled e

theorem Tupled.selectOf {i : Nat} {ts : List Ty} (h : e.Tupled) (hts : e.ty = .tuple ts)
    (ht : ts[i]? = some t) :
    (e.selectOf i t).ty = t ∧ (e.selectOf i t).Tupled := by
  unfold Expr.selectOf
  split
  · rename_i es _
    cases h with
    | tuple h =>
      cases hts
      obtain ⟨e, he, rfl⟩ := Option.map_eq_some_iff.mp (List.getElem?_map ▸ ht)
      simpa [List.getD_eq_getElem?_getD, he] using h e (List.mem_of_getElem? he)
    | other h => exact absurd rfl (h _ _)
  · exact ⟨rfl, .other (by simp)⟩

theorem tupled_mkBlock {ls : List (String × Expr)} (h : r.Tupled) : (mkBlock ls r).Tupled := by
  cases ls with
  | nil => exact h
  | cons => exact .other (by simp [mkBlock])

end Expr

/-- Replacements have the types of what they replace. -/
def Subst.Fits (m : Subst) (Γ : List (String × Ty)) : Prop :=
  ∀ z r, m.lookup z = some r → Γ.lookup z = some r.ty ∧ r.Tupled

namespace Expr

variable {e r : Expr} {t : Ty} {Γ : List (String × Ty)} {m m' : Subst}
    {avoid avoid' scope : List String} {x y : String}

theorem fits_underBinder (h : m.Fits Γ) (hu : underBinder m avoid x t scope = (m', avoid', y)) :
    m'.Fits ((x, t) :: Γ) := by
  have kept : ∀ z r, (m.erase x).lookup z = some r → ((x, t) :: Γ).lookup z = some r.ty ∧
      r.Tupled := by
    intro z r hz
    rw [Subst.lookup_erase] at hz
    split at hz
    · cases hz
    · rename_i hne
      obtain ⟨hty, hr⟩ := h z r hz
      exact ⟨by grind, hr⟩
  unfold underBinder at hu
  simp only at hu
  split at hu
  · obtain ⟨rfl, rfl, rfl⟩ := hu
    intro z r hz
    rw [Subst.lookup_insert] at hz
    split at hz
    · cases hz
      rename_i hzx
      exact ⟨by simp [hzx], .other (by simp)⟩
    · exact kept z r hz
  · obtain ⟨rfl, rfl, rfl⟩ := hu
    exact kept

theorem ty_replace (he : e.checkIn Γ = .ok ()) (hm : m.Fits Γ) :
    (e.replace m avoid).ty = e.ty ∧ (e.replace m avoid).Tupled := by
  induction e generalizing Γ m avoid with
  | ref x t =>
    simp only [Expr.replace]
    cases hx : m.lookup x with
    | none => exact ⟨rfl, .other (by simp)⟩
    | some r =>
      obtain ⟨hty, hr⟩ := hm x r hx
      simp only [checkIn, hty, agrees_ok, ty_ref] at he
      exact ⟨he, hr⟩
  | tuple es t ih =>
    simp only [checkIn, except_seq_ok, checkList_ok, agrees_ok, ty_tuple] at he
    obtain ⟨hes, rfl⟩ := he
    have hparts : ∀ e ∈ es, (e.replace m avoid).ty = e.ty ∧ (e.replace m avoid).Tupled :=
      fun e he' => ih e he' (hes e he') hm
    have htys : es.map ty = (es.map (replace m avoid)).map ty := by
      simpa using fun e he' => (hparts e he').1.symm
    simp only [Expr.replace, replaceList_eq, htys]
    exact ⟨rfl, .tuple (by simpa using fun e he' => (hparts e he').2)⟩
  | select e i t ih =>
    simp only [checkIn, except_seq_ok] at he
    obtain ⟨he, hsel⟩ := he
    obtain ⟨_, hsel, hty⟩ := except_bind_ok.mp hsel
    obtain ⟨ts, u, hts, hu, rfl⟩ := mkSelect_ok.mp hsel
    obtain rfl : u = t := agrees_ok.mp hty
    obtain ⟨hty', htup⟩ : (e.replace m avoid).ty = e.ty ∧ (e.replace m avoid).Tupled := ih he hm
    exact htup.selectOf (hty'.trans hts) hu
  | block ls r t ihl ihr =>
    obtain ⟨Δ, hls, hr, rfl⟩ := checkIn_block.mp he
    have hfits : ∀ scope, (replaceLocals m avoid scope ls).2.1.Fits Δ := by
      intro scope
      clear he
      induction ls generalizing Γ m avoid with
      | nil =>
        cases hls
        exact hm
      | cons l ls ih =>
        obtain ⟨x, e⟩ := l
        simp only [checkLocals, except_seq_ok] at hls
        obtain ⟨m', avoid', y, hu⟩ : ∃ m' avoid' y,
            underBinder m avoid x (e.replace m avoid).ty scope = (m', avoid', y) := ⟨_, _, _, rfl⟩
        rw [replaceLocals_cons hu]
        rw [(ihl (x, e) (by simp) hls.1 hm).1] at hu
        exact ih (fun l hl => ihl l (by simp [hl])) (fits_underBinder hm hu) hls.2
    simp only [Expr.replace, ty_mkBlock]
    constructor
    · exact (ihr hr (hfits _)).1
    · exact tupled_mkBlock (ihr hr (hfits _)).2
  | lambda x e t => cases x <;> exact ⟨rfl, .other (by simp [Expr.replace])⟩
  | lit | call | force | intrinsic | builtin => exact ⟨rfl, .other (by simp [Expr.replace])⟩

theorem tupled_of_check (he : e.checkIn Γ = .ok ()) : e.Tupled := by
  induction e with
  | tuple es t ih =>
    simp only [checkIn, except_seq_ok, checkList_ok, agrees_ok, ty_tuple] at he
    obtain ⟨hes, rfl⟩ := he
    exact .tuple fun e he' => ih e he' (hes e he')
  | _ => exact .other (by simp)

theorem ty_subst (he : e.checkIn Γ = .ok ()) (hm : m.Fits Γ) :
    (e.subst m).ty = e.ty ∧ (e.subst m).Tupled := by
  unfold Expr.subst
  split
  · exact ⟨rfl, tupled_of_check he⟩
  · exact ty_replace he hm

end Expr

namespace Round

open Expr

variable {e e' r : Expr} {t : Ty} {Γ Δ : List (String × Ty)} {m m' : Subst} {x : String}
    {flow flow' : Flow}

theorem settle_ok {top : Bool} (h : ((FlowM.settle top e).run flow).result = .ok (e', flow')) :
    e' = e ∨ ∃ x, e' = .ref x e.ty := by
  unfold FlowM.settle at h
  split at h
  · split at h
    · simp only [Traced.run_bind_ok, Traced.run_pure_ok, Prod.mk.injEq] at h
      obtain ⟨_, _, -, _, _, -, _, _, -, _, _, -, rfl, -⟩ := h
      exact .inr ⟨_, rfl⟩
    · exact .inl (Prod.mk.inj (Traced.run_pure_ok.mp h)).1.symm
  · exact .inl (Prod.mk.inj (Traced.run_pure_ok.mp h)).1.symm

theorem ty_settle {top : Bool} (he : ∀ es t, e ≠ .tuple es t)
    (h : ((FlowM.settle top e).run flow).result = .ok (e', flow')) : e'.ty = e.ty ∧ e'.Tupled := by
  rcases settle_ok h with rfl | ⟨x, rfl⟩
  · exact ⟨rfl, .other he⟩
  · exact ⟨rfl, .other (by simp)⟩

theorem ty_lift {top : Bool} (he : e.Tupled)
    (h : ((FlowM.lift top e).run flow).result = .ok (e', flow')) :
    e'.ty = e.ty ∧ e'.Tupled := by
  induction e generalizing top flow flow' e' with
  | tuple es t ih =>
    simp only [FlowM.lift, Traced.run_bind_ok] at h
    obtain ⟨es', flow₁, hl, hr⟩ := h
    obtain ⟨rfl, rfl⟩ := Prod.mk.inj (Traced.run_pure_ok.mp hr)
    cases he with
    | other he => exact absurd rfl (he _ _)
    | tuple he =>
      have hparts : es'.map ty = es.map ty ∧ ∀ e ∈ es', e.Tupled := by
        clear hr
        induction es generalizing es' flow with
        | nil =>
          obtain ⟨rfl, rfl⟩ := Prod.mk.inj (Traced.run_pure_ok.mp hl)
          simp
        | cons e es ihs =>
          simp only [FlowM.liftList, Traced.run_bind_ok] at hl
          obtain ⟨e₁, flow₁, hl, es₁, flow₂, hls, hr⟩ := hl
          obtain ⟨rfl, rfl⟩ := Prod.mk.inj (Traced.run_pure_ok.mp hr)
          obtain ⟨hty, htup⟩ := ih e (by simp) (he e (by simp)) hl
          obtain ⟨htys, htups⟩ :=
            ihs (fun e h => ih e (by simp [h])) es₁ hls fun e h => he e (by simp [h])
          exact ⟨by simp [hty, htys], by simpa using ⟨htup, htups⟩⟩
      rw [ty_tuple, ← hparts.1]
      exact ⟨rfl, .tuple hparts.2⟩
  | select e i t =>
    simp only [FlowM.lift, Traced.run_bind_ok] at h
    obtain ⟨e₁, flow₁, -, hr⟩ := h
    obtain ⟨rfl, rfl⟩ := Prod.mk.inj (Traced.run_pure_ok.mp hr)
    exact ⟨rfl, .other (by simp)⟩
  | call f a t =>
    simp only [FlowM.lift, Traced.run_bind_ok] at h
    obtain ⟨a', flow₁, -, hs⟩ := h
    simpa using ty_settle (by simp) hs
  | force f t => exact ty_settle (by simp) h
  | ref | lit | lambda | block | intrinsic | builtin =>
    obtain ⟨rfl, rfl⟩ := Prod.mk.inj (Traced.run_pure_ok.mp h)
    exact ⟨rfl, he⟩

theorem fits_locals {bound : List String} {ls : List (String × Expr)}
    (hls : checkLocals Γ ls = .ok Δ) (hm : m.Fits Γ)
    (hbound : ∀ z r, m.lookup z = some r → z ∈ bound)
    (hfirst : firstRepeated? bound (ls.map Prod.fst) = none)
    (h : ((FlowM.locals m ls).run flow).result = .ok (m', flow')) : m'.Fits Δ := by
  induction ls generalizing Γ m bound flow with
  | nil =>
    obtain ⟨rfl, rfl⟩ := Prod.mk.inj (Traced.run_pure_ok.mp h)
    cases hls
    exact hm
  | cons l ls ih =>
    obtain ⟨x, e⟩ := l
    simp only [checkLocals, except_seq_ok] at hls
    simp only [List.map_cons, firstRepeated?] at hfirst
    split at hfirst
    · cases hfirst
    rename_i hx
    simp only [FlowM.locals, Traced.run_bind_ok] at h
    obtain ⟨e', flow₁, hlift, h⟩ := h
    obtain ⟨hty, htup⟩ := ty_subst hls.1 hm
    obtain ⟨hty', htup'⟩ := ty_lift htup hlift
    split at h
    · -- a step stays, under a name that replaces nothing
      simp only [Traced.run_bind_ok] at h
      obtain ⟨_, flow₂, -, h⟩ := h
      refine ih hls.2 (fun z r hz => ?_)
        (fun z r hz => List.mem_cons_of_mem x (hbound z r hz)) hfirst h
      have hzx : z ≠ x := fun hzx => hx (hzx ▸ hbound z r hz)
      obtain ⟨hzty, hztup⟩ := hm z r hz
      exact ⟨by grind, hztup⟩
    · simp only [Traced.run_bind_ok] at h
      obtain ⟨_, flow₂, -, h⟩ := h
      refine ih hls.2 (fun z r hz => ?_) (fun z r hz => ?_) hfirst h
      · rw [Subst.lookup_insert] at hz
        split at hz
        · cases hz
          rename_i hzx
          exact ⟨by simp [hzx, hty', hty], htup'⟩
        · obtain ⟨hzty, hztup⟩ := hm z r hz
          exact ⟨by grind, hztup⟩
      · rw [Subst.lookup_insert] at hz
        split at hz
        · rename_i hzx
          simp [hzx]
        · exact List.mem_cons_of_mem x (hbound z r hz)

theorem checkIn_bodyParts {body : Expr} (h : body.checkIn Γ = .ok ()) :
    ∃ Δ, checkLocals Γ (bodyParts body).1 = .ok Δ ∧ (bodyParts body).2.checkIn Δ = .ok () ∧
      (bodyParts body).2.ty = body.ty := by
  unfold bodyParts
  split
  · obtain ⟨Δ, hls, hr, ht⟩ := checkIn_block.mp h
    exact ⟨Δ, hls, hr, ht.symm⟩
  · exact ⟨Γ, rfl, h, rfl⟩

theorem View.ofRound_ty {round : Expr} {template : Template} {view : View}
    (hc : round.check = .ok ()) (h : (View.ofRound round template).result = .ok view) :
    ∃ p, round.ty = .func p view.result.ty ∧ inputs? p = some (view.state, view.data) := by
  unfold View.ofRound at h
  simp only at h
  split at h
  · rename_i x body p t
    split at h
    · exact absurd h Traced.fail_ok
    rename_i state data hinputs
    split at h
    · exact absurd h Traced.fail_ok
    rename_i hfirst
    simp only [Traced.bind_ok, Traced.run_bind_ok, Traced.pure_ok] at h
    obtain ⟨⟨e', flow'⟩, ⟨m, flow, hl, hlift⟩, rfl⟩ := h
    simp only [check, checkIn, except_seq_ok] at hc
    obtain ⟨hbody, hres⟩ := hc
    split at hres
    · rename_i ht
      obtain ⟨Δ, hls, hr, hrt⟩ := checkIn_bodyParts hbody
      have hfits := fits_locals hls (by simp [Subst.Fits]) (by simp) hfirst hl
      obtain ⟨hty, htup⟩ := ty_subst hr hfits
      obtain ⟨hty', -⟩ := ty_lift htup hlift
      exact ⟨p, by rw [hty', hty, hrt, ht, ty_lambda], hinputs⟩
    · cases hres
  · exact absurd h Traced.fail_ok

section Parts

variable {view : View}

theorem View.serverContext_ty {slot stateName : String}
    (h : (view.serverContext slot stateName).result = .ok (e, t)) :
    e.ty = .func view.state t := by
  simp only [View.serverContext, Traced.bind_ok, Prod.exists, Traced.pure_ok, Prod.mk.injEq] at h
  obtain ⟨_, _, -, _, -, slotted, hslot, rfl, rfl⟩ := h
  obtain ⟨rfl, hty⟩ := fillSlot_ok hslot
  exact hty

theorem View.mapReduceParts_ty {parts : MapReduce Expr}
    (h : view.mapReduceParts.result = .ok parts) :
    ∃ c o p q flag, parts.prepare.ty = .func view.state c ∧
    parts.work.ty = .func (.tuple [view.data, c]) p ∧
      parts.update.ty = .func q (.tuple [view.state, o]) ∧
      view.result.ty = .tuple [.atCoordinator view.state, .placed o .coordinator flag] := by
  simp only [View.mapReduceParts, Traced.bind_ok] at h
  obtain ⟨_, -, _, -, h⟩ := h
  split at h
  · exact absurd h Traced.fail_ok
  rename_i output houtput
  simp only [Traced.bind_ok, Prod.exists, Traced.pure_ok] at h
  obtain ⟨_, -, _, -, prepare, c, hprepare, _, -, _, _, _, -, _, -, _, -, work, hwork, _, -, _, -,
    total, -, _, -, _, -, _, -, _, -, _, _, -, update, hupdate, _, -, rfl⟩ := h
  obtain ⟨rfl, hworkTy⟩ := fillSlot_ok hwork
  obtain ⟨rfl, hupdateTy⟩ := fillSlot_ok hupdate
  obtain ⟨flag, hresult⟩ := View.output?_some houtput
  exact ⟨c, output, _, _, flag, View.serverContext_ty hprepare, hworkTy, hupdateTy, hresult⟩

theorem View.broadcastParts_ty {parts : Broadcast Expr}
    (h : view.broadcastParts.result = .ok parts) :
    ∃ c o flag, parts.context.ty = .func view.state c ∧ parts.processing.ty =
    .func (.tuple [c, view.data]) o ∧
      view.result.ty = .placed o .participants flag := by
  simp only [View.broadcastParts, Traced.bind_ok] at h
  obtain ⟨_, -, _, -, h⟩ := h
  split at h
  · exact absurd h Traced.fail_ok
  rename_i output houtput
  simp only [Traced.bind_ok, Prod.exists] at h
  obtain ⟨_, -, _, -, context, c, hcontext, _, -, h⟩ := h
  split at h
  · exact absurd h Traced.fail_ok
  simp only [Traced.bind_ok, Prod.exists, Traced.pure_ok] at h
  obtain ⟨_, _, -, processing, hprocessing, _, -, rfl⟩ := h
  obtain ⟨rfl, hty⟩ := fillSlot_ok hprocessing
  obtain ⟨flag, hresult⟩ := memberAt?_eq houtput
  exact ⟨c, output, flag, View.serverContext_ty hcontext, hty, hresult⟩

theorem View.distributeAggregateParts_ty {parts : DistributeAggregate Expr}
    (h : view.distributeAggregateParts.result = .ok parts) :
    ∃ o p b q r flag, parts.serverPrepare.ty = .func (.atCoordinator view.state) p ∧
      parts.clientWork.ty = .func (.tuple [.atParticipants view.data, b]) q ∧
      parts.serverResult.ty = .func r (.tuple [.atCoordinator view.state, .atCoordinator o]) ∧
      view.result.ty = .tuple [.atCoordinator view.state, .placed o .coordinator flag] := by
  simp only [View.distributeAggregateParts, Traced.bind_ok] at h
  obtain ⟨_, -, _, -, h⟩ := h
  split at h
  · exact absurd h Traced.fail_ok
  rename_i output houtput
  simp only [Traced.bind_ok, Prod.exists] at h
  obtain ⟨_, -, _, -, _, -, prepare, b, t, hprepare, broadcast, sent, -, _, -, work, values,
    hwork, _, -, h⟩ := h
  split at h
  · exact absurd h Traced.fail_ok
  simp only [Traced.bind_ok, Prod.exists, Traced.pure_ok] at h
  obtain ⟨_, _, -, _, -, result, hresult, _, -, rfl⟩ := h
  simp only [View.serverPrepare, Traced.bind_ok, Prod.exists, Traced.pure_ok,
    Prod.mk.injEq] at hprepare
  obtain ⟨_, _, _, -, _, -, _, -, slotted, hslot, rfl, rfl, rfl⟩ := hprepare
  simp only [View.clientWork, Traced.bind_ok, Prod.exists, Traced.pure_ok, Prod.mk.injEq] at hwork
  obtain ⟨_, _, -, _, -, slotted', hslot', rfl, rfl⟩ := hwork
  simp only [View.serverResult, Traced.bind_ok, Prod.exists] at hresult
  obtain ⟨_, _, -, hresult⟩ := hresult
  obtain ⟨rfl, hprepareTy⟩ := fillSlot_ok hslot
  obtain ⟨rfl, hworkTy⟩ := fillSlot_ok hslot'
  obtain ⟨rfl, hresultTy⟩ := fillSlot_ok hresult
  obtain ⟨flag, houtput⟩ := View.output?_some houtput
  exact ⟨output, _, _, _, _, flag, hprepareTy, hworkTy, hresultTy, houtput⟩

end Parts

theorem inputs?_some {p s d : Ty} (h : inputs? p = some (s, d)) :
    ∃ flag, p = .tuple [.placed s .coordinator flag, .placed d .participants false] := by
  unfold inputs? at h
  split at h <;> cases h
  exact ⟨_, rfl⟩

end Round

open Round in
/-- A form has the type of its round. Only a round to the participants may have another one, if it
says that its results are equal for all. -/
theorem signature_eq_iff {r : Expr} {template : Template}
    {parts : Parts} {f : Form} (hc : r.check = .ok ())
    (hreg : r.ty.Regular) (hparts : (Round.parts r template).result = .ok parts)
    (hf : (Form.ofParts parts).result = .ok f) :
    f.signature = r.ty ↔ (template = .broadcast → r.ty.resultOrEmpty.isAllEqual = false) := by
  simp only [Round.parts, Traced.bind_ok] at hparts
  obtain ⟨view, hview, _, -, hparts⟩ := hparts
  obtain ⟨p, hty, hinputs⟩ := View.ofRound_ty hc hview
  obtain ⟨flag, rfl⟩ := inputs?_some hinputs
  rw [hty] at hreg ⊢
  cases hreg with
  | func hp hr =>
  obtain rfl : flag = true := by
    cases hp.elements (.placed view.state .coordinator flag) (by simp) with
    | placed _ h => exact h rfl
  have hround : ∀ o, (∃ flag, view.result.ty =
      .tuple [.atCoordinator view.state, .placed o .coordinator flag]) →
      roundType view.state view.data (.tuple [.atCoordinator view.state, .atCoordinator o]) =
        .func (.tuple [.placed view.state .coordinator true, .placed view.data .participants false])
        view.result.ty := by
    rintro o ⟨flag, ho⟩
    rw [ho] at hr ⊢
    cases hr.elements (.placed o .coordinator flag) (by simp) with
    | placed _ h => rw [h rfl]; rfl
  cases template with
  | mapReduce =>
    simp only [Traced.bind_ok, Traced.pure_ok] at hparts
    obtain ⟨p, hp, rfl⟩ := hparts
    rcases Form.ofParts_ok hf with ⟨_, g, ⟨⟩, rfl, hg⟩ | ⟨_, _, ⟨⟩, -, -⟩ | ⟨_, _, ⟨⟩, -, -⟩
    obtain ⟨_, _, _, _, _, _, _, _, _, _, hchecked⟩ := Form.ofMapReduce_ok.mp hg
    obtain ⟨c, o, _, _, flag, hprepare, hwork, hupdate, hresult⟩ := View.mapReduceParts_ty hp
    cases hchecked.prepareTy.symm.trans hprepare
    cases hchecked.workTy.symm.trans hwork
    cases hchecked.updateTy.symm.trans hupdate
    simpa [Form.signature, hchecked.signature] using hround _ ⟨flag, hresult⟩
  | distributeAggregate =>
    simp only [Traced.bind_ok, Traced.pure_ok] at hparts
    obtain ⟨p, hp, rfl⟩ := hparts
    rcases Form.ofParts_ok hf with ⟨_, _, ⟨⟩, -, -⟩ | ⟨_, g, ⟨⟩, rfl, hg⟩ | ⟨_, _, ⟨⟩, -, -⟩
    obtain ⟨_, _, _, _, _, _, _, _, hchecked⟩ := Form.ofDistributeAggregate_ok hg
    obtain ⟨o, _, _, _, _, flag, hprepare, hwork, hserver, hresult⟩ :=
      View.distributeAggregateParts_ty hp
    obtain ⟨_, hprepareTy⟩ := hchecked.serverPrepareTy
    cases hprepareTy.symm.trans hprepare
    cases hchecked.clientWorkTy.symm.trans hwork
    cases hchecked.serverResultTy.symm.trans hserver
    simpa [Form.signature, hchecked.signature] using hround _ ⟨flag, hresult⟩
  | broadcast =>
    simp only [Traced.bind_ok, Traced.pure_ok] at hparts
    obtain ⟨p, hp, rfl⟩ := hparts
    rcases Form.ofParts_ok hf with ⟨_, _, ⟨⟩, -, -⟩ | ⟨_, _, ⟨⟩, -, -⟩ | ⟨_, g, ⟨⟩, rfl, hg⟩
    obtain ⟨_, _, _, _, hchecked⟩ := Form.ofBroadcast_ok.mp hg
    obtain ⟨c, o, flag, hcontext, hprocessing, hresult⟩ := View.broadcastParts_ty hp
    cases hchecked.contextTy.symm.trans hcontext
    cases hchecked.processingTy.symm.trans hprocessing
    rw [hresult]
    simp only [Form.signature, hchecked.signature, roundType, Ty.place, Ty.atParticipants,
      Ty.resultOrEmpty, Ty.signature?, Ty.isAllEqual, Ty.func.injEq, Ty.placed.injEq]
    exact ⟨fun h _ => h.2.2.2.symm, fun h => ⟨rfl, trivial, trivial, (h trivial).symm⟩⟩

end TwoTier

import TwoTier.Proofs.Scope
import TwoTier.Proofs.Steps

/-! # How steps are collected

What collecting the steps of a round can do is a relation on expressions and lists of steps: a call
in an expression moves to a new step behind the ones before it, and a local becomes a step or a
replacement. The name of a step is always a new one. Every fact about views is an induction over
these relations; of types, that all the steps of a well-typed round are in scope where they stand.
-/

namespace TwoTier.Round

open Expr

/-- The step is a call with a placed result, and its boundary is the one that the call crosses. -/
structure Step.Valid (step : Step) : Prop where
  placed : isStep step.value = true
  boundary : step.value.boundary? = .ok step.boundary

def bindings (steps : List Step) : List (String × Expr) :=
  steps.map fun step => (step.name, step.value)

@[simp] theorem bindings_append {steps steps' : List Step} :
    bindings (steps ++ steps') = bindings steps ++ bindings steps' :=
  List.map_append

@[simp] theorem map_fst_bindings {steps : List Step} :
    (bindings steps).map Prod.fst = steps.map Step.name := by
  simp [bindings]

/-- Moving calls in the first expression to steps behind `steps` can leave the second, with the
steps listed last. -/
inductive Lifts (param : String) : List Step → Expr → Expr → List Step → Prop where
  | stay {steps : List Step} {e : Expr} : Lifts param steps e e steps
  | element {steps steps₁ steps₂ : List Step} {e e' : Expr} {es es' : List Expr} {t : Ty} :
      Lifts param steps e e' steps₁ →
      Lifts param steps₁ (.mkTuple es) (.tuple es' (.tuple (es.map ty))) steps₂ →
      Lifts param steps (.tuple (e :: es) t) (.tuple (e' :: es') t) steps₂
  | select {steps steps' : List Step} {e e' : Expr} {i : Nat} {t : Ty} :
      Lifts param steps e e' steps' →
      Lifts param steps (.select e i t) (.select e' i t) steps'
  | argument {steps steps' : List Step} {f a a' : Expr} {t : Ty} : Lifts param steps a a' steps' →
      Lifts param steps (.call f a t) (.call f a' t) steps'
  | step {steps steps' : List Step} {e : Expr} {step : Step} :
      Lifts param steps e step.value steps' → step.Valid →
      step.name ∉ param :: steps'.map Step.name →
      Lifts param steps e (.ref step.name step.value.ty) (steps' ++ [step])

/-- Collecting the locals behind `steps`, with the replacements of the first substitution, can leave
the second, with the steps listed last. -/
inductive Collects (param : String) :
    Subst → List Step → List (String × Expr) → Subst → List Step → Prop where
  | nil {m : Subst} {steps : List Step} : Collects param m steps [] m steps
  | step {m m' : Subst} {steps steps₁ steps' : List Step} {e : Expr} {step : Step}
      {ls : List (String × Expr)} : Lifts param steps (e.subst m) step.value steps₁ →
      step.Valid → step.name ∉ param :: steps₁.map Step.name →
      m.lookup step.name = none → Collects param m (steps₁ ++ [step]) ls m' steps' →
      Collects param m steps ((step.name, e) :: ls) m' steps'
  | inline {m m' : Subst} {steps steps₁ steps' : List Step} {x : String} {e e' : Expr}
      {ls : List (String × Expr)} :
      Lifts param steps (e.subst m) e' steps₁ → Collects param (m.insert x e') steps₁ ls m' steps' →
      Collects param m steps ((x, e) :: ls) m' steps'

/-- The names of the steps are taken, and none of those `reserved` for the round's own locals but
the ones `bound`. -/
structure Flow.Named (reserved : List String) (param : String) (bound : List String)
    (flow : Flow) : Prop where
  used : ∀ x ∈ flow.steps.map Step.name, x ∈ flow.names.used
  reserved_used : ∀ x ∈ reserved, x ∈ flow.names.used
  mem_bound : ∀ x ∈ flow.steps.map Step.name, x ∈ reserved → x ∈ bound
  param_reserved : param ∈ reserved
  param_bound : param ∈ bound

variable {reserved bound : List String} {param x : String} {flow flow' : Flow} {e e' : Expr}
  {top : Bool} {m m' : Subst} {ls : List (String × Expr)}

namespace Flow.Named

theorem widen {bound' : List String} (h : flow.Named reserved param bound)
    (hb : ∀ z ∈ bound, z ∈ bound') :
    flow.Named reserved param bound' :=
  ⟨h.used, h.reserved_used, fun x hx hr => hb x (h.mem_bound x hx hr), h.param_reserved,
    hb _ h.param_bound⟩

theorem push {step : Step} (h : flow.Named reserved param bound)
    (hused : step.name ∈ flow.names.used) (hbound : step.name ∈ reserved → step.name ∈ bound) :
    Flow.Named reserved param bound { flow with steps := flow.steps ++ [step] } where
  used x hx := by
    rw [List.map_append, List.mem_append] at hx
    rcases hx with hx | hx
    · exact h.used x hx
    · rwa [List.mem_singleton.mp hx]
  reserved_used := h.reserved_used
  mem_bound x hx := by
    rw [List.map_append, List.mem_append] at hx
    rcases hx with hx | hx
    · exact h.mem_bound x hx
    · rwa [List.mem_singleton.mp hx]
  param_reserved := h.param_reserved
  param_bound := h.param_bound

theorem take {base y : String} {names : Names} (h : flow.Named reserved param bound)
    (hf : flow.names.fresh base = (y, names)) :
    Flow.Named reserved param bound { flow with names := names } ∧ y ∈ names.used ∧ y ∉ reserved ∧
      y ∉ param :: flow.steps.map Step.name := by
  have hy := Names.fresh_not_mem hf
  have hnames : ∀ z ∈ flow.names.used, z ∈ names.used :=
    fun z hz => (Names.mem_fresh hf).mpr (.inr hz)
  refine ⟨⟨fun x hx => hnames x (h.used x hx), fun x hx => hnames x (h.reserved_used x hx),
    h.mem_bound, h.param_reserved, h.param_bound⟩, (Names.mem_fresh hf).mpr (.inl rfl),
    fun hr => hy (h.reserved_used y hr), ?_⟩
  rw [List.mem_cons, not_or]
  constructor
  · rintro rfl
    exact hy (h.reserved_used y h.param_reserved)
  · exact fun hs => hy (h.used y hs)

end Flow.Named

theorem settle_lifts {steps : List Step} (hn : flow.Named reserved param bound)
    (hl : Lifts param steps e e' flow.steps)
    {e'' : Expr} (h : ((FlowM.settle top e').run flow).result = .ok (e'', flow')) :
    Lifts param steps e e'' flow'.steps ∧ flow'.Named reserved param bound := by
  have stays : ((pure e' : FlowM Expr).run flow).result = .ok (e'', flow') →
      Lifts param steps e e'' flow'.steps ∧ flow'.Named reserved param bound := by
    intro h
    obtain ⟨rfl, rfl⟩ := Prod.mk.inj (Traced.run_pure_ok.mp h)
    exact ⟨hl, hn⟩
  unfold FlowM.settle at h
  split at h
  · rename_i uri _
    split at h
    · rename_i hplaced
      simp only [Traced.run_bind_ok, Traced.run_get_ok, Traced.run_modify_ok,
        Traced.run_pure_ok] at h
      obtain ⟨_, _, ⟨rfl, rfl⟩, _, _, rfl, _, _, hnote, _, _, hpush, hr⟩ := h
      obtain ⟨-, rfl⟩ := Traced.run_lift_ok.mp hnote
      obtain ⟨rfl, rfl⟩ := Prod.mk.inj hr
      obtain ⟨y, names, hf⟩ : ∃ y names, flow.names.fresh (FlowM.stepName uri) = (y, names) :=
        ⟨_, _, rfl⟩
      simp only [hf] at hpush ⊢
      obtain ⟨step, rfl, rfl, hb, rfl⟩ := FlowM.push_ok hpush
      obtain ⟨hn, hused, hreserved, hnew⟩ := hn.take hf
      rw [Bool.and_eq_true] at hplaced
      exact ⟨.step hl ⟨hplaced.2, hb⟩ hnew, hn.push hused fun hr => absurd hr hreserved⟩
    · exact stays h
  · exact stays h

theorem lift_lifts (hn : flow.Named reserved param bound)
    (h : ((FlowM.lift top e).run flow).result = .ok (e', flow')) :
    Lifts param flow.steps e e' flow'.steps ∧ flow'.Named reserved param bound := by
  induction e generalizing top flow flow' e' with
  | tuple es t ih =>
    simp only [FlowM.lift, Traced.run_bind_ok] at h
    obtain ⟨es', flow₁, hl, hr⟩ := h
    obtain ⟨rfl, rfl⟩ := Prod.mk.inj (Traced.run_pure_ok.mp hr)
    clear hr
    induction es generalizing es' flow t with
    | nil =>
      obtain ⟨rfl, rfl⟩ := Prod.mk.inj (Traced.run_pure_ok.mp hl)
      exact ⟨.stay, hn⟩
    | cons e es ihs =>
      simp only [FlowM.liftList, Traced.run_bind_ok] at hl
      obtain ⟨e₁, flow₁, hl, es₁, flow₂, hls, hr⟩ := hl
      obtain ⟨rfl, rfl⟩ := Prod.mk.inj (Traced.run_pure_ok.mp hr)
      obtain ⟨hlift, hn⟩ := ih e (by simp) hn hl
      obtain ⟨hlifts, hn⟩ := ihs (.tuple (es.map ty)) (fun e he => ih e (by simp [he])) hn es₁ hls
      exact ⟨.element hlift hlifts, hn⟩
  | select e i t ih =>
    simp only [FlowM.lift, Traced.run_bind_ok] at h
    obtain ⟨e₁, flow₁, hl, hr⟩ := h
    obtain ⟨rfl, rfl⟩ := Prod.mk.inj (Traced.run_pure_ok.mp hr)
    obtain ⟨hlift, hn⟩ := ih hn hl
    exact ⟨.select hlift, hn⟩
  | call f a t _ ih =>
    simp only [FlowM.lift, Traced.run_bind_ok] at h
    obtain ⟨a', flow₁, hl, hs⟩ := h
    obtain ⟨hlift, hn⟩ := ih hn hl
    exact settle_lifts hn (.argument hlift) hs
  | force f t _ => exact settle_lifts hn .stay h
  | ref | lit | lambda | block | intrinsic | builtin =>
    obtain ⟨rfl, rfl⟩ := Prod.mk.inj (Traced.run_pure_ok.mp h)
    exact ⟨.stay, hn⟩

theorem locals_collects (hn : flow.Named reserved param bound)
    (hbound : ∀ z r, m.lookup z = some r → z ∈ bound)
    (hreserved : ∀ x ∈ ls.map Prod.fst, x ∈ reserved)
    (hfirst : firstRepeated? bound (ls.map Prod.fst) = none)
    (h : ((FlowM.locals m ls).run flow).result = .ok (m', flow')) :
    ∃ bound', Collects param m flow.steps ls m' flow'.steps ∧
    flow'.Named reserved param bound' := by
  induction ls generalizing m bound flow with
  | nil =>
    obtain ⟨rfl, rfl⟩ := Prod.mk.inj (Traced.run_pure_ok.mp h)
    exact ⟨bound, .nil, hn⟩
  | cons l ls ih =>
    obtain ⟨x, e⟩ := l
    simp only [List.map_cons, firstRepeated?] at hfirst
    split at hfirst
    · cases hfirst
    rename_i hx
    simp only [FlowM.locals, Traced.run_bind_ok] at h
    obtain ⟨e', flow₁, hl, h⟩ := h
    obtain ⟨hlift, hn⟩ := lift_lifts hn hl
    have hxr : x ∈ reserved := hreserved x (by simp)
    have hn' := hn.widen fun z hz => List.mem_cons_of_mem x hz
    split at h
    · rename_i hplaced
      simp only [Traced.run_bind_ok] at h
      obtain ⟨_, flow₂, hpush, h⟩ := h
      obtain ⟨step, rfl, rfl, hb, rfl⟩ := FlowM.push_ok hpush
      have hnew : step.name ∉ param :: flow₁.steps.map Step.name := by
        rw [List.mem_cons, not_or]
        constructor
        · intro hxp
          exact hx (hxp ▸ hn.param_bound)
        · exact fun hs => hx (hn.mem_bound _ hs hxr)
      have hkept : m.lookup step.name = none := by
        cases hl : m.lookup step.name with
        | none => rfl
        | some r => exact absurd (hbound _ r hl) hx
      obtain ⟨bound', hcollects, hn'⟩ :=
        ih (hn'.push (hn.reserved_used _ hxr) fun _ => List.mem_cons_self) (fun z r hz =>
        List.mem_cons_of_mem _ (hbound z r hz)) (fun z hz => hreserved z (by simp [hz])) hfirst h
      exact ⟨bound', .step hlift ⟨hplaced, hb⟩ hnew hkept hcollects, hn'⟩
    · simp only [Traced.run_bind_ok] at h
      obtain ⟨_, flow₂, hnote, h⟩ := h
      obtain ⟨-, rfl⟩ := Traced.run_lift_ok.mp hnote
      have hinsert : ∀ z r, (m.insert x e').lookup z = some r → z ∈ x :: bound := by
        intro z r hz
        rw [Subst.lookup_insert] at hz
        split at hz
        · simp_all
        · exact List.mem_cons_of_mem x (hbound z r hz)
      obtain ⟨bound', hcollects, hn'⟩ :=
        ih hn' hinsert (fun z hz => hreserved z (by simp [hz])) hfirst h
      exact ⟨bound', .inline hlift hcollects, hn'⟩

/-- How the view of a round came about: the locals of its body were collected, then the calls in its
result. -/
structure View.Collected (view : View) (body : Expr) : Prop where
  steps : ∃ m steps, Collects view.param [] [] (bodyParts body).1 m steps ∧
    Lifts view.param steps ((bodyParts body).2.subst m) view.result view.steps
  used : ∀ x ∈ view.param :: view.steps.map Step.name, x ∈ view.names.used

theorem View.ofRound_collected {round : Expr} {template : Template} {view : View}
    (h : (View.ofRound round template).result = .ok view) :
    ∃ body p t, round = .lambda (some view.param) body (.func p t) ∧
    inputs? p = some (view.state, view.data) ∧
      view.Collected body := by
  unfold View.ofRound at h
  simp only at h
  split at h
  · rename_i x body p t
    split at h
    · exact absurd h Traced.fail_ok
    rename_i state data hinputs
    split at h
    · exact absurd h Traced.fail_ok
    rename_i hfirst
    simp only [Traced.bind_ok, Traced.run_bind_ok, Traced.pure_ok] at h
    obtain ⟨⟨e', flow'⟩, ⟨m, flow, hl, hlift⟩, rfl⟩ := h
    have hstart : (⟨[], Names.avoiding (.lambda (some x) body (.func p t))⟩ : Flow).Named
        (Expr.lambda (some x) body (.func p t)).allNames x [x] :=
      ⟨by simp, fun z hz => Names.mem_avoiding.mpr hz, by simp, by simp [allNames_lambda], by simp⟩
    obtain ⟨bound, hcollects, hn⟩ := locals_collects hstart (by simp)
      (fun z hz => by rw [allNames_lambda]; simp [mem_allNames_bodyParts hz]) hfirst hl
    obtain ⟨hlifts, hn⟩ := lift_lifts hn hlift
    refine ⟨body, p, t, rfl, hinputs, ⟨m, flow.steps, hcollects, hlifts⟩, fun z hz => ?_⟩
    rcases List.mem_cons.mp hz with rfl | hz
    · exact hn.reserved_used _ hn.param_reserved
    · exact hn.used z hz
  · exact absurd h Traced.fail_ok

/-- Steps that are valid, under different names. -/
structure Distinct (param : String) (steps : List Step) : Prop where
  valid : ∀ step ∈ steps, step.Valid
  nodup : (param :: steps.map Step.name).Nodup

variable {steps steps' : List Step}

theorem Distinct.push {step : Step} (h : Distinct param steps) (hv : step.Valid)
    (hnew : step.name ∉ param :: steps.map Step.name) : Distinct param (steps ++ [step]) := by
  constructor
  · intro step' hstep
    rcases List.mem_append.mp hstep with hstep | hstep
    · exact h.valid step' hstep
    · rwa [List.mem_singleton.mp hstep]
  · rw [List.map_append, ← List.cons_append, List.nodup_append]
    refine ⟨h.nodup, by simp, fun y hy z hz => ?_⟩
    rw [List.map_singleton, List.mem_singleton] at hz
    rintro rfl
    exact hnew (hz ▸ hy)

theorem Lifts.distinct (h : Lifts param steps e e' steps') (hd : Distinct param steps) :
    Distinct param steps' := by
  induction h with
  | stay => exact hd
  | element _ _ ih ihs => exact ihs (ih hd)
  | select _ ih | argument _ ih => exact ih hd
  | step _ hv hnew ih => exact (ih hd).push hv hnew

theorem Collects.distinct (h : Collects param m steps ls m' steps') (hd : Distinct param steps) :
    Distinct param steps' := by
  induction h with
  | nil => exact hd
  | step hl hv hnew _ _ ih => exact ih ((hl.distinct hd).push hv hnew)
  | inline hl _ ih => exact ih (hl.distinct hd)

theorem View.Collected.distinct {view : View} {body : Expr} (h : view.Collected body) :
    Distinct view.param view.steps := by
  obtain ⟨m, steps, hcollects, hlifts⟩ := h.steps
  exact hlifts.distinct (hcollects.distinct ⟨by simp, by simp⟩)

section Typed

variable {Γ : List (String × Ty)} {p : Ty}

theorem Lifts.scoped (h : Lifts param steps e e' steps') (hc : Chain [(param, p)] (bindings steps))
    (he : e.Scoped (scope [(param, p)] (bindings steps))) :
    Chain [(param, p)] (bindings steps') ∧
      Within (scope [(param, p)] (bindings steps)) (scope [(param, p)] (bindings steps')) ∧
      e'.Scoped (scope [(param, p)] (bindings steps')) ∧ e'.ty = e.ty := by
  induction h with
  | stay => exact ⟨hc, fun _ _ hz => hz, he, rfl⟩
  | @element steps steps₁ steps₂ e e' es es' t _ _ ih ihs =>
    obtain ⟨hc, hw, he', hty⟩ := ih hc (he.element List.mem_cons_self)
    have hes : (mkTuple es).Scoped (scope [(param, p)] (bindings steps₁)) :=
      scoped_tuple fun e hmem => (he.element (List.mem_cons_of_mem _ hmem)).mono hw
    obtain ⟨hc, hw', hes', -⟩ := ihs hc hes
    have htys := (typed_tuple.mp hes'.typed).2
    have ht := (typed_tuple.mp he.typed).2
    refine ⟨hc, fun z u hz => hw' z u (hw z u hz), ?_, rfl⟩
    have hscoped : (mkTuple (e' :: es')).Scoped (scope [(param, p)] (bindings steps₂)) := by
      apply scoped_tuple
      rintro e₁ (_ | ⟨_, hmem⟩)
      · exact he'.mono hw'
      · exact hes'.element hmem
    have heq : t = .tuple ((e' :: es').map ty) := by
      rw [ht, List.map_cons, List.map_cons, hty, ← Ty.tuple.inj htys]
    rwa [heq]
  | select _ ih =>
    obtain ⟨hsource, ts, hts, ht⟩ := he.source
    obtain ⟨hc, hw, he', hty⟩ := ih hc hsource
    exact ⟨hc, hw, scoped_select he' (hty.trans hts) ht, rfl⟩
  | argument _ ih =>
    obtain ⟨hc, hw, ha, hty⟩ := ih hc he.argument
    refine ⟨hc, hw, fun Δ hΔ => typed_call.mpr ⟨ha Δ hΔ, ?_⟩, rfl⟩
    rw [hty]
    exact (typed_call.mp (he.mono hw Δ hΔ)).2
  | @step steps steps' e step _ hv hnew ih =>
    obtain ⟨hc, hw, he', hty⟩ := ih hc he
    have hfresh : step.name ∉ (scope [(param, p)] (bindings steps')).map Prod.fst := by
      rw [mem_scope, map_fst_bindings, or_comm]
      simpa using hnew
    have hbindings : bindings (steps' ++ [step]) = bindings steps' ++ [(step.name, step.value)] :=
      bindings_append
    rw [hbindings, scope_snoc, chain_snoc]
    refine ⟨⟨hc, hfresh, he'⟩, fun z u hz => ?_, scoped_ref (by simp), hty⟩
    exact within_cons hfresh _ z u (hw z u hz)

/-- What stands for the variables of `Γ` after replacement is in scope of the steps, at the same
types. -/
def Stands (p : Ty) (param : String) (steps : List Step) (Γ : List (String × Ty))
    (m : Subst) : Prop :=
  ∀ z u, Γ.lookup z = some u →
    (m.image z u).Scoped (scope [(param, p)] (bindings steps)) ∧ (m.image z u).ty = u

theorem Stands.cons {t : Ty} (h : Stands p param steps Γ m)
    (hw : Within (scope [(param, p)] (bindings steps)) (scope [(param, p)] (bindings steps')))
    (hother : ∀ z u, z ≠ x → m'.image z u = m.image z u)
    (hx : (m'.image x t).Scoped (scope [(param, p)] (bindings steps')) ∧ (m'.image x t).ty = t) :
    Stands p param steps' ((x, t) :: Γ) m' := by
  intro z u hz
  by_cases hzx : z = x
  · subst hzx
    obtain rfl : t = u := by simpa using hz
    exact hx
  · rw [lookup_cons_of_ne hzx] at hz
    rw [hother z u hzx]
    exact ⟨(h z u hz).1.mono hw, (h z u hz).2⟩

theorem Collects.scoped {r : Expr} {t : Ty} (h : Collects param m steps ls m' steps')
    (hc : Chain [(param, p)] (bindings steps)) (hm : Stands p param steps Γ m)
    (hls : (Expr.block ls r t).Scoped Γ) :
    ∃ Γ', Chain [(param, p)] (bindings steps') ∧ Stands p param steps' Γ' m' ∧ r.Scoped Γ' ∧
    t = r.ty := by
  induction h generalizing Γ with
  | nil => exact ⟨Γ, hc, hm, hls.result⟩
  | @step m m' steps steps₁ steps' e step ls hl hv hnew hkept _ ih =>
    obtain ⟨he, hls⟩ := hls.local_
    obtain ⟨hsubst, hty⟩ := he.subst_image hm
    have hlifts : Lifts param steps (e.subst m) (.ref step.name step.value.ty) (steps₁ ++ [step]) :=
      .step hl hv hnew
    obtain ⟨hc, hw, href, hty'⟩ := hlifts.scoped hc hsubst
    refine ih hc (hm.cons hw (fun _ _ _ => rfl) ?_) hls
    rw [Subst.image, hkept, Option.getD_none, ← hty, ← hty']
    exact ⟨href, rfl⟩
  | @inline m m' steps steps₁ steps' x e e' ls hl _ ih =>
    obtain ⟨he, hls⟩ := hls.local_
    obtain ⟨hsubst, hty⟩ := he.subst_image hm
    obtain ⟨hc, hw, he', hty'⟩ := hl.scoped hc hsubst
    refine ih hc
      (hm.cons hw (fun z u hzx => by simp [Subst.image, Subst.lookup_insert, hzx]) ?_) hls
    rw [Subst.image, Subst.lookup_insert, if_pos rfl, Option.getD_some]
    exact ⟨he', hty'.trans hty⟩

/-- The view of a well-typed round that takes a parameter at `p`. -/
structure View.Scoped (view : View) (p : Ty) : Prop where
  inputs : inputs? p = some (view.state, view.data)
  steps : Chain [(view.param, p)] (bindings view.steps)
  valid : ∀ step ∈ view.steps, step.Valid
  used : ∀ x ∈ view.param :: view.steps.map Step.name, x ∈ view.names.used
  result : view.result.Scoped (scope [(view.param, p)] (bindings view.steps))

theorem View.Scoped.value {view : View} {pre post : List Step} {step : Step} (h : view.Scoped p)
    (hsteps : view.steps = pre ++ step :: post) :
    step.value.Scoped (scope [(view.param, p)] (bindings pre)) ∧
      Within (scope [(view.param, p)] (bindings pre))
      (scope [(view.param, p)] (bindings view.steps)) := by
  have hchain := h.steps
  rw [hsteps, bindings_append, chain_append] at hchain
  rw [hsteps, bindings_append, scope_append]
  exact ⟨hchain.2.2.1, hchain.2.within⟩

theorem View.ofRound_scoped {round : Expr} {template : Template} {view : View}
    (h : (View.ofRound round template).result = .ok view) (hr : round.Scoped []) :
    ∃ p, view.Scoped p ∧ round.ty = .func p view.result.ty := by
  obtain ⟨body, p, t, rfl, hinputs, hcollected⟩ := ofRound_collected h
  obtain ⟨m, steps, hcollects, hlifts⟩ := hcollected.steps
  obtain ⟨p', hbody, hp⟩ := hr.body
  obtain ⟨rfl, rfl⟩ := Ty.func.inj hp
  have hstands : Stands p view.param [] [(view.param, p)] [] := by
    intro z u hz
    exact ⟨scoped_ref hz, rfl⟩
  have hparts :
      (Expr.block (bodyParts body).1 (bodyParts body).2 body.ty).Scoped [(view.param, p)] :=
    fun Δ hΔ => typed_bodyParts (hbody Δ hΔ)
  obtain ⟨Γ, hc, hm, hresult, hty⟩ := hcollects.scoped (p := p) trivial hstands hparts
  obtain ⟨hsubst, hty'⟩ := hresult.subst_image hm
  obtain ⟨hc, -, hresult, hty''⟩ := hlifts.scoped hc hsubst
  refine ⟨p, ⟨hinputs, hc, hcollected.distinct.valid, hcollected.used, hresult⟩, ?_⟩
  rw [ty_lambda, hty, hty'', hty']

end Typed

end TwoTier.Round

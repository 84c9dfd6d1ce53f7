import TwoTier.Proofs.Factoring
import TwoTier.Proofs.Synthesis.Total

/-! # Netlists taken apart

The view of a netlist's round has one step for each gate, in the order of the gates, since nothing
inside a gate is a step by itself.
-/

namespace TwoTier

namespace Expr

variable {e e' : Expr} {t : Ty} {top : Bool}

/-- A node that stays where it is: no step, no call with values of both tiers, no unknown
crossing. -/
structure Calm (e : Expr) : Prop where
  step : Round.isStep e = false
  call : ∀ f a t, e = .call f a t → a.ty.crossesTiers = false
  boundary : ∃ b, e.boundary? = .ok b

def Quiet (e : Expr) : Prop :=
  ∀ e' ∈ e.subterms, e'.Calm

theorem Quiet.calm (h : e.Quiet) : e.Calm :=
  h e e.mem_subterms_self

theorem Quiet.part (h : e.Quiet) (he' : e' ∈ e.children) : e'.Quiet :=
  fun e'' he'' => h e'' (mem_subterms.mpr (.inr ⟨e', he', he''⟩))

theorem calm_of_not_call (hcall : ∀ f a t, e ≠ .call f a t)
    (hforce : ∀ f t, e ≠ .force f t) : e.Calm where
  step := by
    cases e <;> first | rfl | exact absurd rfl (hcall _ _ _) | exact absurd rfl (hforce _ _)
  call f a t he := absurd he (hcall f a t)
  boundary := by
    cases e <;>
      first | exact ⟨none, rfl⟩ | exact absurd rfl (hcall _ _ _) | exact absurd rfl (hforce _ _)

theorem quiet_mkTuple {es : List Expr} (h : ∀ e ∈ es, e.Quiet) : (mkTuple es).Quiet := by
  intro e' he'
  rcases mem_subterms.mp he' with rfl | ⟨e, he, he'⟩
  · exact calm_of_not_call (by simp [mkTuple]) (by simp [mkTuple])
  · exact h e he e' he'

theorem exists_crossingCall? {uri : String} {args : List Expr} {u : Ty}
    (h : t.crossesTiers = false) :
    ∃ b, crossingCall? uri t args u = .ok b := by
  unfold crossingCall?
  split
  · exact ⟨_, rfl⟩
  · exact ⟨_, rfl⟩
  · exact ⟨none, by simp [h]⟩

theorem Bare.calm (h : e.Bare) : e.Calm where
  step := by
    have := h.unplaced
    cases e <;> first | rfl | exact this
  call f a t he := by
    subst he
    exact Ty.crossesTiers_of_not_isPlaced (bare_call.mp h).2.2.unplaced
  boundary := by
    unfold boundary?
    split
    · exact exists_crossingCall? (Ty.crossesTiers_of_not_isPlaced (bare_call.mp h).2.1.unplaced)
    · exact exists_crossingCall? (Ty.crossesTiers_of_not_isPlaced (bare_force.mp h).2.unplaced)
    · exact ⟨none, rfl⟩

theorem Bare.quiet (h : e.Bare) : e.Quiet := by
  intro e' he'
  refine Bare.calm (forall_subterms (fun e he c hc e' he' => ?_) h e' he')
  exact he e' (mem_subterms.mpr (.inr ⟨c, hc, he'⟩))

end Expr

namespace Synthesis

open Expr Round

variable {e g : Expr} {x : String} {ls : List (String × Expr)} {top : Bool}

theorem IsWire.quiet (h : IsWire e) : e.Quiet := by
  intro e' he'
  cases h with
  | ref =>
    obtain rfl : e' = _ := by simpa [subterms] using he'
    exact calm_of_not_call (by simp) (by simp)
  | select =>
    rcases (by simpa [subterms] using he' : _ ∨ _) with rfl | rfl
    · exact calm_of_not_call (by simp) (by simp)
    · exact calm_of_not_call (by simp) (by simp)

theorem settle_calm (h : e.Calm) : FlowM.settle top e = pure e := by
  unfold FlowM.settle
  split
  · simp [h.step]
  · rfl

theorem liftList_pure {es : List Expr} (h : ∀ e ∈ es, FlowM.lift false e = pure e) :
    FlowM.liftList es = pure es := by
  induction es with
  | nil => rfl
  | cons e es ih => simp [FlowM.liftList, h e (by simp), ih fun e he => h e (by simp [he])]

theorem lift_quiet (h : e.Quiet) : FlowM.lift top e = pure e := by
  induction e generalizing top with
  | ref | lit | lambda | block | intrinsic | builtin => rfl
  | tuple es t ih => simp [FlowM.lift, liftList_pure fun e he => ih e he (h.part he)]
  | select e i t ih => simp [FlowM.lift, ih (h.part (by simp [children]))]
  | call f a t _ iha => simp [FlowM.lift, iha (h.part (by simp [children])), settle_calm h.calm]
  | force f t => exact settle_calm h.calm

@[simp] theorem boundary?_within {op : LocalOp} {a : Expr} {t : Ty} :
    (gate (.within op) a t).boundary? = .ok none := by
  simp [gate, boundary?, crossingCall?, Intrinsic.ofUri?_uri]

@[simp] theorem boundary?_crossing {op : Crossing} {a : Expr} {t : Ty} :
    (gate (.crossing op) a t).boundary? = .ok (some ⟨op, a.unpack, t⟩) := by
  simp [gate, boundary?, crossingCall?, Intrinsic.ofUri?_uri]

theorem Gate.shape (h : Gate g) :
    ∃ op a m site b, g = gate op a (.placed m site b) ∧ a.Quiet := by
  have inert : ∀ {e : Expr}, e.Inert → e.Quiet := fun h => h.bare.quiet
  cases h with
  | map hF _ he => exact ⟨_, _, _, _, _, rfl, quiet_mkTuple (by simpa using ⟨inert hF, he.quiet⟩)⟩
  | zip _ hes => exact ⟨_, _, _, _, _, rfl, quiet_mkTuple fun e he => (hes e he).quiet⟩
  | nothing => exact ⟨_, _, _, _, _, rfl, quiet_mkTuple (by simp)⟩
  | broadcast he => exact ⟨_, _, _, _, _, rfl, he.quiet⟩
  | aggregation _ he _ has =>
    exact ⟨_, _, _, _, _, rfl,
      quiet_mkTuple (by simpa using ⟨he.quiet, fun a ha => inert (has a ha)⟩)⟩

theorem Gate.ty (h : Gate g) : ∃ m site b, g.ty = .placed m site b := by
  obtain ⟨op, a, m, site, b, rfl, -⟩ := h.shape
  exact ⟨m, site, b, rfl⟩

theorem Gate.lift (h : Gate g) : FlowM.lift true g = pure g := by
  obtain ⟨op, a, m, site, b, rfl, ha⟩ := h.shape
  simp [gate, FlowM.lift, lift_quiet ha, FlowM.settle, calledUri?]

theorem Gate.isStep (h : Gate g) : Round.isStep g = true := by
  obtain ⟨op, a, m, site, b, rfl, -⟩ := h.shape
  exact Ty.isPlaced_placed

theorem Gate.boundary (h : Gate g) :
    ∃ b, g.boundary? = .ok b ∧ b.map BoundaryCall.op = crossing? g := by
  obtain ⟨op, a, m, site, b, rfl, -⟩ := h.shape
  cases op <;> simp

/-- A node that the compiler can label and look at. -/
structure Admitted (e : Expr) : Prop where
  call : ∀ f a t, e = .call f a t → f.isIntrinsic = true ∨ a.ty.crossesTiers = false
  boundary : ∃ b, e.boundary? = .ok b

theorem admitted_of_calm (h : e.Calm) : Admitted e :=
  ⟨fun f a t hcall => .inr (h.call f a t hcall), h.boundary⟩

theorem Gate.admitted (h : Gate g) : ∀ e ∈ g.subterms, Admitted e := by
  intro e he
  obtain ⟨b, hb, -⟩ := h.boundary
  obtain ⟨op, a, m, site, _, rfl, ha⟩ := h.shape
  rw [gate, subterms, subterms, List.mem_cons, List.singleton_append, List.mem_cons] at he
  rcases he with rfl | rfl | he
  · refine ⟨fun f a u hcall => .inl ?_, b, hb⟩
    obtain ⟨rfl, -, -⟩ := Expr.call.inj hcall
    rfl
  · exact admitted_of_calm (calm_of_not_call (by simp) (by simp))
  · exact admitted_of_calm (ha e he)

theorem classify_admitted (h : ∀ e' ∈ e.subterms, Admitted e') : ∃ tree, e.classify = .ok tree :=
  exists_classify fun f a t hm => (h _ hm).call f a t rfl

/-- The step that a local becomes. -/
structure Stepped (step : Step) (l : String × Expr) : Prop where
  name : step.name = l.1
  value : step.value = l.2
  boundary : l.2.boundary? = .ok step.boundary
  op : step.op? = crossing? l.2

/-- Whatever is late has an aggregation before it. -/
def Prompt (steps : List Step) : Prop :=
  ∀ pre, pre <+: steps → (∃ s ∈ pre, s.late = true) → ∃ s ∈ pre, s.isAggregation = true

theorem Prompt.snoc {steps : List Step} {s : Step} (h : Prompt steps)
    (hs : s.late = true → s.isAggregation = true ∨ ∃ s' ∈ steps, s'.late = true) :
    Prompt (steps ++ [s]) := by
  rintro pre hpre ⟨s', hs', hlate⟩
  rcases List.prefix_concat_iff.mp hpre with rfl | hpre
  · rcases List.mem_append.mp hs' with hs' | hs'
    · obtain ⟨a, ha, hagg⟩ := h steps (List.prefix_refl steps) ⟨s', hs', hlate⟩
      exact ⟨a, by simp [ha], hagg⟩
    · obtain rfl := List.mem_singleton.mp hs'
      rcases hs hlate with hagg | hlate
      · exact ⟨s', by simp, hagg⟩
      · obtain ⟨a, ha, hagg⟩ := h steps (List.prefix_refl steps) hlate
        exact ⟨a, by simp [ha], hagg⟩
  · exact h pre hpre ⟨s', hs', hlate⟩

theorem push_gate (h : Gate g) (flow : Flow) : ∃ s, Stepped s (x, g) ∧
    ((FlowM.push x g).run flow).result = .ok ((), { flow with steps := flow.steps ++ [s] }) ∧
    (s.late = true → s.isAggregation = true ∨ ∃ s' ∈ flow.steps, s'.late = true) := by
  obtain ⟨b, hb, hop⟩ := h.boundary
  simp only [FlowM.push, Traced.run_bind_ok, Traced.run_lift_ok, Traced.ofExcept_ok,
    except_mapError_ok, Traced.run_modify_ok]
  refine ⟨⟨x, g, b, _⟩, ⟨rfl, rfl, hb, hop⟩, ⟨b, _, ⟨hb, rfl⟩, rfl⟩, fun hlate => ?_⟩
  simp only [Bool.or_eq_true, List.any_eq_true, Bool.and_eq_true] at hlate
  rcases hlate with hagg | ⟨y, -, s', hs', -, hs''⟩
  · left
    simpa [Step.isAggregation, Step.op?, Option.any_map] using hagg
  · exact .inr ⟨s', hs', hs''⟩

theorem locals_gates (h : ∀ l ∈ ls, Gate l.2) (flow : Flow) :
    ∃ steps, List.Forall₂ Stepped steps ls ∧
    ((FlowM.locals [] ls).run flow).result = .ok ([], { flow with steps := flow.steps ++ steps }) ∧
    (Prompt flow.steps → Prompt (flow.steps ++ steps)) := by
  induction ls generalizing flow with
  | nil => exact ⟨[], .nil, by simp [FlowM.locals], by simp⟩
  | cons l ls ih =>
    obtain ⟨x, g⟩ := l
    have hg : Gate g := h (x, g) (by simp)
    obtain ⟨s, hs, hpush, hlate⟩ := push_gate (x := x) hg flow
    obtain ⟨steps, hsteps, hrun, hprompt⟩ :=
      ih (fun l hl => h l (by simp [hl])) { flow with steps := flow.steps ++ [s] }
    refine ⟨s :: steps, .cons hs hsteps, ?_, fun hflow => ?_⟩
    · simp only [FlowM.locals, subst_of_isEmpty (m := []) rfl, hg.lift, pure_bind, hg.isStep,
        if_true, Traced.run_bind_ok]
      exact ⟨(), _, hpush, by simpa using hrun⟩
    · simpa using hprompt (hflow.snoc hlate)

section Rounds

variable {y : String} {s d t : Ty} {w : Wiring} {cs : List (String × Expr)} {template : Template}

/-- The view lists the locals as steps. -/
structure Lists (v : View) (y : String) (s d : Ty) (ls : List (String × Expr)) (e : Expr) :
    Prop where
  param : v.param = y
  state : v.state = s
  data : v.data = d
  result : v.result = e
  steps : List.Forall₂ Stepped v.steps ls
  prompt : Prompt v.steps
  used : ls.map Prod.fst ⊆ v.names.used

theorem firstRepeated?_chain {Γ : List (String × Ty)} (h : Chain Γ ls) :
    firstRepeated? (Γ.map Prod.fst) (ls.map Prod.fst) = none := by
  induction ls generalizing Γ with
  | nil => rfl
  | cons l ls ih =>
    obtain ⟨x, e⟩ := l
    obtain ⟨hx, -, h⟩ := h
    simp only [List.map_cons, firstRepeated?, if_neg hx]
    exact ih h

theorem bodyParts_mkBlock (he : ∀ ls r t, e ≠ .block ls r t) :
    bodyParts (mkBlock ls e) = (ls, e) := by
  cases ls with
  | nil =>
    simp only [mkBlock, List.isEmpty_nil, if_true]
    unfold bodyParts
    split
    · exact absurd rfl (he _ _ _)
    · rfl
  | cons l ls => rfl

theorem Netted.view (template : Template) (h : Netted [(y, inputsType s d)] w cs) (he : e.Quiet)
    (hblock : ∀ ls r t, e ≠ .block ls r t) :
    ∃ v, (View.ofRound (mkLambda y (inputsType s d) (mkBlock w.locals e)) template).result = .ok v ∧
      Lists v y s d w.locals e := by
  let names := Names.avoiding (mkLambda y (inputsType s d) (mkBlock w.locals e))
  obtain ⟨steps, hsteps, hrun, hprompt⟩ := locals_gates h.kind ⟨[], names⟩
  have hfirst : firstRepeated? [y] (w.locals.map Prod.fst) = none := firstRepeated?_chain h.chain
  have hinputs : inputs? (inputsType s d) = some (s, d) := rfl
  refine ⟨⟨template, y, s, d, steps, e, names⟩, ?_,
    ⟨rfl, rfl, rfl, rfl, hsteps, ?_, fun x hx => ?_⟩⟩
  · simp only [View.ofRound, mkLambda, hinputs, bodyParts_mkBlock hblock, hfirst, Traced.bind_ok,
      Traced.run_bind_ok, Traced.pure_ok]
    refine ⟨(e, ⟨steps, names⟩), ⟨[], _, hrun, ?_⟩, rfl⟩
    rw [subst_of_isEmpty rfl, lift_quiet he]
    exact Traced.run_pure_ok.mpr rfl
  · simpa using hprompt (by simp [Prompt])
  · refine Names.mem_avoiding.mpr ?_
    rw [mkLambda, allNames_lambda]
    refine List.mem_append_right _ (mem_allNames_bodyParts ?_)
    rwa [bodyParts_mkBlock hblock]

theorem Netted.admitted (h : Netted [(y, t)] w cs) (he : e.Quiet) :
    ∀ e' ∈ (mkLambda y t (mkBlock w.locals e)).subterms, Admitted e' := by
  intro e' he'
  rw [mkLambda, subterms, List.mem_cons] at he'
  rcases he' with rfl | he'
  · exact admitted_of_calm (calm_of_not_call (by simp) (by simp))
  unfold mkBlock at he'
  split at he'
  · exact admitted_of_calm (he e' he')
  · simp only [subterms, List.mem_cons, List.mem_append, mem_subtermsLocals] at he'
    rcases he' with rfl | ⟨l, hl, he'⟩ | he'
    · exact admitted_of_calm (calm_of_not_call (by simp) (by simp))
    · exact (h.kind l hl).admitted e' he'
    · exact admitted_of_calm (he e' he')

theorem Netted.boundaries (h : Netted [(y, t)] w cs) (he : e.Quiet) :
    ∃ calls, (mkLambda y t (mkBlock w.locals e)).boundaries = .ok calls := by
  obtain ⟨bs, hbs⟩ := exists_forall₂ fun e' he' => (h.admitted he e' he').boundary
  exact ⟨bs.filterMap id, by simp [Expr.boundaries, except_mapM_ok.mpr hbs, pure, Except.pure]⟩

end Rounds

end Synthesis

end TwoTier

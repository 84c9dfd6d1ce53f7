import TwoTier.Proofs.Collection
import TwoTier.Proofs.Slicing
import TwoTier.Round.Parts

/-! # The order of steps

A step of a view refers to steps before it, to the round's parameter, and to what is free in the
round. If no step has the name of a free reference, following references from step to step goes back
in the list, so slicing comes to an end before the bound on its depth is reached, and taking the
round apart never finds a step that depends on itself.
-/

namespace TwoTier

/-- The error is about a step that depends on itself. -/
inductive CompileError.Circular : CompileError → Prop
  | step {template stage slot x} : Circular (.shape template stage slot (.circular x))
  | parameter {template stage slot error} : Circular error →
      Circular (.shape template stage slot (.dynamicParameter error))

namespace Round

open Expr

variable {P : String → Prop} {steps steps' : List Step} {param x : String} {e e' : Expr}
  {m m' : Subst} {ls : List (String × Expr)}

def Defined (P : String → Prop) (steps : List Step) (x : String) : Prop :=
  x ∈ steps.map Step.name ∨ P x

/-- What a step refers to is defined before it. -/
def Founded (P : String → Prop) (steps : List Step) : Prop :=
  ∀ pre step post, steps = pre ++ step :: post → ∀ x, step.value.Refers x → Defined P pre x

theorem Defined.append (h : Defined P steps x) : Defined P (steps ++ steps') x :=
  h.imp_left fun hx => by simp [hx]

theorem snoc_eq_append_cons {α : Type} {as pre post : List α} {a b : α}
    (h : as ++ [a] = pre ++ b :: post) :
    (as = pre ∧ a = b) ∨ ∃ post', as = pre ++ b :: post' := by
  obtain rfl | ⟨post, last, rfl⟩ := List.eq_nil_or_concat post
  · obtain ⟨hpre, hlast⟩ := List.append_inj' h rfl
    exact .inl ⟨hpre, List.head_eq_of_cons_eq hlast⟩
  · rw [List.concat_eq_append, ← List.cons_append, ← List.append_assoc] at h
    exact .inr ⟨post, (List.append_inj' h rfl).1⟩

theorem Founded.push {step : Step} (h : Founded P steps)
    (hs : ∀ x, step.value.Refers x → Defined P steps x) :
    Founded P (steps ++ [step]) := by
  intro pre step' post heq
  obtain ⟨rfl, rfl⟩ | ⟨post', heq⟩ := snoc_eq_append_cons heq
  · exact hs
  · exact h pre step' post' heq

theorem Lifts.grows (h : Lifts param steps e e' steps') : ∃ more, steps' = steps ++ more := by
  induction h with
  | stay => exact ⟨[], by simp⟩
  | element _ _ ih ihs =>
    obtain ⟨more, rfl⟩ := ih
    obtain ⟨more', rfl⟩ := ihs
    exact ⟨more ++ more', by simp⟩
  | select _ ih | argument _ ih => exact ih
  | @step _ _ _ step _ _ _ ih =>
    obtain ⟨more, rfl⟩ := ih
    exact ⟨more ++ [step], by simp⟩

theorem Lifts.defined (h : Lifts param steps e e' steps') (hx : Defined P steps x) :
    Defined P steps' x := by
  obtain ⟨more, rfl⟩ := h.grows
  exact hx.append

theorem Lifts.founded (h : Lifts param steps e e' steps') (hf : Founded P steps)
    (he : ∀ x, e.Refers x → Defined P steps x) :
    Founded P steps' ∧ ∀ x, e'.Refers x → Defined P steps' x := by
  induction h with
  | stay => exact ⟨hf, he⟩
  | @element _ _ _ _ _ es es' _ hl hls ih ihs =>
    obtain ⟨hf, he'⟩ := ih hf fun x hx => he x (refers_tuple.mpr ⟨_, List.mem_cons_self, hx⟩)
    obtain ⟨hf, hes⟩ := ihs hf fun x hx => by
      obtain ⟨e, hmem, hx⟩ := refers_tuple.mp hx
      exact hl.defined (he x (refers_tuple.mpr ⟨e, List.mem_cons_of_mem _ hmem, hx⟩))
    refine ⟨hf, fun x hx => ?_⟩
    obtain ⟨e, _ | ⟨_, hmem⟩, hx⟩ := refers_tuple.mp hx
    · exact hls.defined (he' x hx)
    · exact hes x (refers_tuple.mpr ⟨e, hmem, hx⟩)
  | select _ ih =>
    obtain ⟨hf, he'⟩ := ih hf fun x hx => he x (refers_select.mpr hx)
    exact ⟨hf, fun x hx => he' x (refers_select.mp hx)⟩
  | argument hl ih =>
    obtain ⟨hf, ha⟩ := ih hf fun x hx => he x (refers_call.mpr (.inr hx))
    refine ⟨hf, fun x hx => ?_⟩
    obtain hx | hx := refers_call.mp hx
    · exact hl.defined (he x (refers_call.mpr (.inl hx)))
    · exact ha x hx
  | step _ _ _ ih =>
    obtain ⟨hf, hv⟩ := ih hf he
    refine ⟨hf.push hv, fun x hx => .inl ?_⟩
    simp [refers_ref.mp hx]

/-- What replacements refer to is defined, and so is what `e` refers to without a replacement. -/
structure Covers (P : String → Prop) (steps : List Step) (m : Subst) (e : Expr) : Prop where
  replaced : ∀ x r, m.lookup x = some r → ∀ y, r.Refers y → Defined P steps y
  kept : ∀ x, e.Refers x → m.lookup x = none → Defined P steps x

theorem Covers.subst (h : Covers P steps m e) : ∀ x, (e.subst m).Refers x → Defined P steps x := by
  intro x hx
  obtain ⟨hx, hm⟩ | ⟨z, r, -, hm, hx⟩ := refers_subst hx
  · exact h.kept x hx hm
  · exact h.replaced z r hm x hx

theorem Collects.founded {r : Expr} {t : Ty} (h : Collects param m steps ls m' steps')
    (hf : Founded P steps) (hc : Covers P steps m (.block ls r t)) :
    Founded P steps' ∧ Covers P steps' m' r := by
  induction h with
  | nil => exact ⟨hf, hc.replaced, fun x hx => hc.kept x (refers_block_nil.mpr hx)⟩
  | @step m m' steps steps₁ steps' e step ls hl hv hnew hkept _ ih =>
    have he : Covers P steps m e :=
      ⟨hc.replaced, fun x hx => hc.kept x (refers_block_cons.mpr (.inl hx))⟩
    have hlifts : Lifts param steps (e.subst m) (.ref step.name step.value.ty) (steps₁ ++ [step]) :=
      .step hl hv hnew
    obtain ⟨hf, href⟩ := hlifts.founded hf he.subst
    refine ih hf ⟨fun x r hr y hy => hlifts.defined (hc.replaced x r hr y hy), fun x hx hm => ?_⟩
    by_cases hname : x = step.name
    · exact href x (refers_ref.mpr hname)
    · exact hlifts.defined (hc.kept x (refers_block_cons.mpr (.inr ⟨hname, hx⟩)) hm)
  | @inline m m' steps steps₁ steps' x e e' ls hl _ ih =>
    have he : Covers P steps m e :=
      ⟨hc.replaced, fun x hx => hc.kept x (refers_block_cons.mpr (.inl hx))⟩
    obtain ⟨hf, he'⟩ := hl.founded hf he.subst
    refine ih hf ⟨fun z r hr y hy => ?_, fun z hz hm => ?_⟩
    · rw [Subst.lookup_insert] at hr
      split at hr
      · cases hr
        exact he' y hy
      · exact hl.defined (hc.replaced z r hr y hy)
    · rw [Subst.lookup_insert] at hm
      split at hm
      · cases hm
      · rename_i hzx
        exact hl.defined (hc.kept z (refers_block_cons.mpr (.inr ⟨hzx, hz⟩)) hm)

theorem refers_bodyParts {body : Expr} {t : Ty}
    (h : (Expr.block (bodyParts body).1 (bodyParts body).2 t).Refers x) :
    body.Refers x := by
  cases body <;> exact h

/-- The steps of a view refer to steps before them, to the parameter, and to what is free in the
round. -/
theorem View.ofRound_founded {round : Expr} {template : Template} {view : View}
    (h : (View.ofRound round template).result = .ok view) :
    Founded (fun x => x = view.param ∨ round.Refers x) view.steps := by
  obtain ⟨body, p, t, rfl, -, hcollected⟩ := ofRound_collected h
  obtain ⟨m, steps, hcollects, hlifts⟩ := hcollected.steps
  have hstart :
      Covers (fun x => x = view.param ∨ (Expr.lambda (some view.param) body (.func p t)).Refers x)
      [] [] (.block (bodyParts body).1 (bodyParts body).2 body.ty) := by
    refine ⟨by simp, fun x hx _ => .inr ?_⟩
    by_cases hp : x = view.param
    · exact .inl hp
    · refine .inr
        (refers_lambda.mpr ⟨refers_bodyParts hx, fun heq => hp (Option.some.inj heq).symm⟩)
  obtain ⟨hf, hc⟩ := hcollects.founded (by simp [Founded]) hstart
  exact (hlifts.founded hf hc.subst).1

/-- The computation does not fail for a step that depends on itself. -/
def Acyclic {α : Type} (y : Traced CompileError α) : Prop :=
  FailsAs (fun error => ¬ error.Circular) y.result

section Acyclic

variable {α β : Type} {y : Traced CompileError α} {f : α → Traced CompileError β}

theorem acyclic_pure {a : α} : Acyclic (pure a) :=
  failsAs_ok

theorem acyclic_note {event : Event} : Acyclic (Traced.note event) :=
  failsAs_ok

theorem acyclic_fail {error : CompileError} (h : ¬ error.Circular) :
    Acyclic (α := α) (.fail error) :=
  failsAs_error h

theorem Acyclic.bind (hy : Acyclic y) (hf : ∀ a, Acyclic (f a)) : Acyclic (y >>= f) := by
  intro error h
  cases hresult : y.result with
  | error error' =>
    rw [Traced.bind_error hresult] at h
    cases h
    exact hy error hresult
  | ok a =>
    rw [Traced.bind_result hresult] at h
    exact hf a error h

theorem Acyclic.mapM {as : List α} (h : ∀ a ∈ as, Acyclic (f a)) : Acyclic (as.mapM f) := by
  induction as with
  | nil => exact acyclic_pure
  | cons a as ih =>
    rw [List.mapM_cons]
    exact (h a List.mem_cons_self).bind fun b =>
      (ih fun a ha => h a (List.mem_cons_of_mem _ ha)).bind fun bs => acyclic_pure

theorem acyclic_mapError {ε : Type} {z : Traced ε α} {k : ε → CompileError}
    (h : ∀ error, z.result = .error error → ¬ (k error).Circular) : Acyclic (z.mapError k) :=
  FailsAs.mapError h

end Acyclic

namespace Slice

def Acyclic {α : Type} (k : SliceM α) : Prop :=
  ∀ ls, Round.Acyclic (k.run ls)

variable {α β : Type} {c : Slice} {k : SliceM α} {f : α → SliceM β} {r r' : Step → SliceM Expr}

theorem acyclic_pure {a : α} : Acyclic (pure a) :=
  fun _ => Round.acyclic_pure

theorem acyclic_fail {error : CompileError} (h : ¬ error.Circular) :
    Acyclic (α := α) (fail error) :=
  fun _ => (Round.acyclic_fail h).bind fun _ => Round.acyclic_pure

theorem acyclic_misfit {misfit : Misfit}
    (h : ∀ t stage slot, ¬ (CompileError.shape t stage slot misfit).Circular) :
    Acyclic (α := α) (c.misfit misfit) :=
  acyclic_fail (h _ _ _)

theorem acyclic_leak {leak : Leak} : Acyclic (α := α) (c.leak e leak) :=
  acyclic_fail (by rintro ⟨⟩)

theorem Acyclic.bind (hk : Acyclic k) (hf : ∀ a, Acyclic (f a)) : Acyclic (k >>= f) :=
  fun ls => (hk ls).bind fun r => hf r.1 r.2

theorem Acyclic.mapM {f : α → SliceM β} {as : List α} (h : ∀ a ∈ as, Acyclic (f a)) :
    Acyclic (as.mapM f) := by
  induction as with
  | nil => exact acyclic_pure
  | cons a as ih =>
    rw [List.mapM_cons]
    exact (h a List.mem_cons_self).bind fun b =>
      (ih fun a ha => h a (List.mem_cons_of_mem _ ha)).bind fun bs => acyclic_pure

theorem acyclic_typed {type : Except TypeFault Expr} : Acyclic (c.typed type) := by
  cases type with
  | ok => exact acyclic_pure
  | error => exact acyclic_misfit (by rintro _ _ _ ⟨⟩)

theorem acyclic_bind : Acyclic (Slice.bind x e) :=
  fun _ => failsAs_ok

theorem acyclic_unlessInert {k : SliceM Expr} (h : Acyclic k) : Acyclic (unlessInert e k) := by
  unfold unlessInert
  split
  · split
    · exact acyclic_fail (by rintro ⟨⟩)
    · exact acyclic_pure
    · exact h
  · exact h

theorem acyclic_whole : Acyclic (c.whole e) := by
  unfold whole
  split
  · exact acyclic_leak
  · split
    · exact acyclic_leak
    · exact acyclic_pure

theorem acyclic_selection {source : Expr} {i : Nat} {k : SliceM Expr} (h : Acyclic k) :
    Acyclic (c.selection e source i k) := by
  have hother : Acyclic (do c.typed ((← k).mkSelect i)) := h.bind fun _ => acyclic_typed
  refine acyclic_unlessInert ?_
  split
  · split
    · split
      · cases c.state with
        | none => exact acyclic_misfit (by rintro _ _ _ ⟨⟩)
        | some => exact acyclic_pure
      · cases c.data with
        | none => exact acyclic_misfit (by rintro _ _ _ ⟨⟩)
        | some => exact acyclic_pure
    · exact hother
  · exact hother

theorem acyclic_sequence {ks : List (SliceM Expr)} (h : ∀ k ∈ ks, Acyclic k) :
    Acyclic (sequence ks) := by
  induction ks with
  | nil => exact acyclic_pure
  | cons k ks ih =>
    exact (h k List.mem_cons_self).bind fun _ =>
      (ih fun k hk => h k (List.mem_cons_of_mem _ hk)).bind fun _ => acyclic_pure

theorem acyclic_intrinsicCall {uri : String} {parts : List (SliceM Expr)} {argument : SliceM Expr}
    (hparts : ∀ k ∈ parts, Acyclic k) (hargument : Acyclic argument) :
    Acyclic (c.intrinsicCall e uri parts argument) := by
  have hlowered : ∀ op, Acyclic (c.loweredCall op parts argument) := by
    intro op
    cases op with
    | map | apply =>
      unfold loweredCall
      dsimp only
      split
      · rename_i function value
        exact (hparts function (by simp)).bind fun _ =>
          (hparts value (by simp)).bind fun _ => acyclic_typed
      · exact acyclic_misfit (by rintro _ _ _ ⟨⟩)
    | zipAtClients | zipAtServer => exact (acyclic_sequence hparts).bind fun _ => acyclic_pure
    | valueAtServer => exact hargument
  unfold intrinsicCall
  split
  · exact acyclic_leak
  · split
    · exact hargument.bind fun _ => acyclic_typed
    · exact hlowered _
  · exact acyclic_misfit (by rintro _ _ _ ⟨⟩)

theorem acyclic_intrinsicForce {uri : String} : Acyclic (c.intrinsicForce e uri) := by
  unfold intrinsicForce
  split
  · exact acyclic_leak
  · exact acyclic_misfit (by rintro _ _ _ ⟨⟩)

theorem acyclic_reference (h : ∀ step, c.view.step? x = some step → Acyclic (r step)) :
    Acyclic (c.reference r e x) := by
  unfold reference
  split
  · exact acyclic_pure
  · refine Acyclic.bind (fun _ => failsAs_ok) fun ls => ?_
    split
    · exact acyclic_pure
    · split
      · exact acyclic_misfit (by rintro _ _ _ ⟨⟩)
      · split
        · exact acyclic_leak
        · rename_i step hstep
          split
          · exact acyclic_misfit (by rintro _ _ _ ⟨⟩)
          · exact h step hstep

theorem reference_congr (h : ∀ step, c.view.step? x = some step → r' step = r step) :
    c.reference r' e x = c.reference r e x := by
  unfold reference
  cases hs : c.view.step? x with
  | none => rfl
  | some step => simp only [h step hs]

theorem acyclic_fields {a : Expr} {k : SliceM Expr} (h : Acyclic k) :
    ∀ k' ∈ c.fields a k, Acyclic k' := by
  unfold fields
  split
  · intro k' hk'
    obtain ⟨i, -, rfl⟩ := List.mem_map.mp hk'
    exact acyclic_selection h
  · simpa using h

/-- The expression is sliced alike with both ways to resolve steps, and without running into a
circle. -/
def Agrees (c : Slice) (r r' : Step → SliceM Expr) (e : Expr) : Prop :=
  c.valueWith r' e = c.valueWith r e ∧ Acyclic (c.valueWith r e)

theorem valuesWith_agrees {es : List Expr} (h : ∀ e ∈ es, c.Agrees r r' e) :
    c.valuesWith r' es = c.valuesWith r es ∧ ∀ k ∈ c.valuesWith r es, Acyclic k := by
  rw [valuesWith_eq, valuesWith_eq]
  refine ⟨List.map_congr_left fun e he => (h e he).1, fun k hk => ?_⟩
  obtain ⟨e, he, rfl⟩ := List.mem_map.mp hk
  exact (h e he).2

theorem argumentParts_agrees {a : Expr} (hes : ∀ es u, a = .tuple es u → ∀ e ∈ es, c.Agrees r r' e)
    (ha : c.Agrees r r' a) :
    c.argumentParts r' a = c.argumentParts r a ∧ ∀ k ∈ c.argumentParts r a, Acyclic k := by
  unfold argumentParts
  split
  · exact valuesWith_agrees (hes _ _ rfl)
  · exact ⟨by rw [ha.1], acyclic_fields ha.2⟩

/-- Only the steps that an expression refers to matter for slicing it. -/
theorem agrees_of_refers
    (h : ∀ x, e.Refers x → ∀ step, c.view.step? x = some step →
      r' step = r step ∧ Acyclic (r step)) :
    c.Agrees r r' e := by
  induction e using slicing_induct with
  | ref x t =>
    have hx := h x (refers_ref.mpr rfl)
    refine ⟨?_, acyclic_unlessInert (acyclic_reference fun step hs => (hx step hs).2)⟩
    rw [valueWith, valueWith, reference_congr fun step hs => (hx step hs).1]
  | lit | builtin => exact ⟨rfl, acyclic_pure⟩
  | lambda | block | intrinsic => exact ⟨rfl, acyclic_unlessInert acyclic_whole⟩
  | tuple es t ih =>
    obtain ⟨hvalues, hacyclic⟩ :=
      valuesWith_agrees fun e he => ih e he fun x hx => h x (refers_tuple.mpr ⟨e, he, hx⟩)
    refine ⟨by rw [valueWith, valueWith, hvalues], ?_⟩
    exact acyclic_unlessInert ((acyclic_sequence hacyclic).bind fun _ => acyclic_pure)
  | select e i t ih =>
    obtain ⟨heq, hacyclic⟩ := ih fun x hx => h x (refers_select.mpr hx)
    exact ⟨by rw [valueWith, valueWith, heq], acyclic_selection hacyclic⟩
  | intrinsicForce => exact ⟨rfl, acyclic_unlessInert acyclic_intrinsicForce⟩
  | force f t hf ih =>
    obtain ⟨heq, hacyclic⟩ := ih fun x hx => h x (refers_force.mpr hx)
    rw [Agrees, valueWith_force hf, valueWith_force hf, heq]
    exact ⟨rfl, acyclic_unlessInert (hacyclic.bind fun _ => acyclic_typed)⟩
  | intrinsicCall uri u a t ihes iha =>
    have ha : c.Agrees r r' a := iha fun x hx => h x (refers_call.mpr (.inr hx))
    have hes : ∀ es u, a = .tuple es u → ∀ e ∈ es, c.Agrees r r' e := by
      rintro es u rfl e he
      exact ihes es u rfl e he fun x hx =>
        h x (refers_call.mpr (.inr (refers_tuple.mpr ⟨e, he, hx⟩)))
    obtain ⟨hparts, hacyclic⟩ := argumentParts_agrees hes ha
    rw [Agrees, valueWith_intrinsic, valueWith_intrinsic, hparts, ha.1]
    exact ⟨rfl, acyclic_unlessInert (acyclic_intrinsicCall hacyclic ha.2)⟩
  | call f a t hf ihf iha =>
    obtain ⟨hfeq, hfacyclic⟩ := ihf fun x hx => h x (refers_call.mpr (.inl hx))
    obtain ⟨haeq, haacyclic⟩ := iha fun x hx => h x (refers_call.mpr (.inr hx))
    rw [Agrees, valueWith_call hf, valueWith_call hf, hfeq, haeq]
    exact ⟨rfl, acyclic_unlessInert (hfacyclic.bind fun _ => haacyclic.bind fun _ => acyclic_typed)⟩

end Slice

/-- References from step to step go back. -/
def View.Ordered (view : View) : Prop :=
  ∀ pre step post, view.steps = pre ++ step :: post →
    ∀ step' ∈ step :: post, ¬ step.value.Refers step'.name

namespace Slice

variable {c : Slice}

theorem step?_earlier {pre post : List Step} {step step' : Step} (hv : c.view.Ordered)
    (hsteps : c.view.steps = pre ++ step :: post) (hx : step.value.Refers x)
    (hs : c.view.step? x = some step') :
    ∃ pre' post', c.view.steps = pre' ++ step' :: post' ∧ pre'.length < pre.length := by
  obtain ⟨hname, pre', post', hsteps', -⟩ := List.find?_eq_some_iff_append.mp hs
  have hname : step'.name = x := by simpa using hname
  subst hname
  refine ⟨pre', post', hsteps', ?_⟩
  have hnot : step' ∉ step :: post := fun hmem => hv pre step post hsteps step' hmem hx
  obtain ⟨behind, -, hbehind⟩ | ⟨between, rfl, hbetween⟩ :=
    List.append_eq_append_iff.mp (hsteps.symm.trans hsteps')
  · exact absurd (by simp [hbehind]) hnot
  · cases between with
    | nil =>
      obtain ⟨rfl, -⟩ := List.cons.inj hbetween
      exact absurd List.mem_cons_self hnot
    | cons => simp

/-- A step is resolved without a circle once the depth exceeds its position, and more depth makes no
difference. By induction on the position. -/
theorem resolve_agrees (hv : c.view.Ordered) {pre post : List Step} {step : Step}
    (hsteps : c.view.steps = pre ++ step :: post) {depth depth' : Nat}
    (hd : pre.length < depth) (hd' : pre.length < depth') :
    c.resolve depth' step = c.resolve depth step ∧ Acyclic (c.resolve depth step) := by
  induction hn :
      pre.length using Nat.strong_induction_on generalizing pre post step depth depth' with
  | _ n ih =>
    obtain ⟨depth, rfl⟩ := Nat.exists_eq_succ_of_ne_zero (Nat.ne_of_gt (Nat.zero_lt_of_lt hd))
    obtain ⟨depth', rfl⟩ := Nat.exists_eq_succ_of_ne_zero (Nat.ne_of_gt (Nat.zero_lt_of_lt hd'))
    obtain ⟨heq, hacyclic⟩ : c.Agrees (c.resolve depth) (c.resolve depth') step.value := by
      refine agrees_of_refers fun x hx step' hs => ?_
      obtain ⟨pre', post', hsteps', hlt⟩ := step?_earlier hv hsteps hx hs
      exact ih pre'.length (by omega) hsteps' (by omega) (by omega) rfl
    refine ⟨by rw [resolve, resolve, heq], ?_⟩
    exact hacyclic.bind fun _ => Acyclic.bind (fun _ => failsAs_ok) fun _ => acyclic_bind

theorem value_agrees (hv : c.view.Ordered) {depth : Nat} (hd : c.view.steps.length ≤ depth) :
    c.valueWith (c.resolve depth) e = c.value e ∧ Acyclic (c.value e) := by
  refine agrees_of_refers fun x hx step hs => ?_
  obtain ⟨-, pre, post, hsteps, -⟩ := List.find?_eq_some_iff_append.mp hs
  have hlen : pre.length < c.view.steps.length := by simp [hsteps]
  exact resolve_agrees hv hsteps hlen (by omega)

variable {view : View}

theorem acyclic_value (hc : c.view = view) (hv : view.Ordered) : Acyclic (c.value e) :=
  (value_agrees (hc ▸ hv) (Nat.le_refl _)).2

theorem acyclic_channelValue {step : Step} (hc : c.view = view) (hv : view.Ordered) :
    Acyclic (c.channelValue step) := by
  unfold channelValue
  split
  · exact acyclic_value hc hv
  · exact acyclic_misfit (by rintro _ _ _ ⟨⟩)

theorem acyclic_channelValues (hc : c.view = view) (hv : view.Ordered) :
    Acyclic (c.channelValues steps) :=
  .mapM fun _ _ => acyclic_channelValue hc hv

theorem acyclic_staticArgument (hv : view.Ordered) {step : Step} {index : Nat} {slot : String} :
    Round.Acyclic (staticArgument view step index slot) := by
  unfold staticArgument
  simp only
  split
  · exact acyclic_value rfl hv []
  · exact acyclic_misfit (by rintro _ _ _ ⟨⟩) []

theorem foldl_view {α : Type} {f : Slice → α → Slice} (hf : ∀ c a, (f c a).view = c.view)
    (as : List α) :
    (as.foldl f c).view = c.view := by
  induction as generalizing c with
  | nil => rfl
  | cons a as ih => rw [List.foldl_cons, ih, hf]

end Slice

theorem acyclic_fillSlot {t : Ty} {tier : Tier} {slot : String} :
    Acyclic (fillSlot e t tier slot) := by
  refine Acyclic.bind (acyclic_mapError ?_) fun _ => acyclic_note.bind fun _ => acyclic_pure
  rintro _ _ ⟨⟩

namespace View

variable {view : View} {c : Slice}

theorem view_indexedBroadcasts {source : Expr} :
    (view.indexedBroadcasts source c).view = c.view := by
  refine Slice.foldl_view ?_ _
  rintro c ⟨s, i⟩
  rfl

theorem view_broadcastResults {source : Expr} : (view.broadcastResults source c).view = c.view := by
  unfold broadcastResults
  split
  · rfl
  · exact view_indexedBroadcasts

theorem acyclic_broadcastsFirst {slot : String} : Acyclic (view.broadcastsFirst slot) := by
  refine acyclic_note.bind fun _ => ?_
  split
  · exact acyclic_fail (by rintro ⟨⟩)
  · exact acyclic_pure

theorem acyclic_serverContext (hv : view.Ordered) {slot stateName : String} :
    Acyclic (view.serverContext slot stateName) := by
  refine Acyclic.bind (Slice.acyclic_channelValues rfl hv []) fun _ => ?_
  exact acyclic_note.bind fun _ => acyclic_fillSlot.bind fun _ => acyclic_pure

theorem acyclic_broadcastParts (hv : view.Ordered) : Acyclic view.broadcastParts := by
  refine acyclic_note.bind fun _ => acyclic_note.bind fun _ => ?_
  split
  · exact acyclic_fail (by rintro ⟨⟩)
  refine acyclic_note.bind fun _ => acyclic_broadcastsFirst.bind fun _ => ?_
  refine (acyclic_serverContext hv).bind fun _ => acyclic_note.bind fun _ => ?_
  split
  · exact acyclic_fail (by rintro ⟨⟩)
  refine Acyclic.bind (Slice.acyclic_value view_broadcastResults hv []) fun _ => ?_
  exact acyclic_fillSlot.bind fun _ => acyclic_note.bind fun _ => acyclic_pure

theorem view_withCarried {source : Expr} : (view.withCarried source c).view = c.view := by
  refine Slice.foldl_view ?_ _
  rintro c ⟨_ | _ | _, i⟩ <;> rfl

theorem acyclic_serverPrepare (hv : view.Ordered) {stateName : String} :
    Acyclic (view.serverPrepare stateName) := by
  have hvalues : ∀ {c : Slice} {f : Carried → SliceM Expr}, c.view = view →
      (∀ carried, Slice.Acyclic (f carried)) →
      Slice.Acyclic (do
        let broadcasts ← c.channelValues view.broadcasts
        let carried ← view.carried.mapM f
        return (broadcasts, carried)) := fun hc hf =>
    (Slice.acyclic_channelValues hc hv).bind fun _ =>
        Slice.Acyclic.bind (.mapM fun _ _ => hf _) fun _ =>
      Slice.acyclic_pure
  refine Acyclic.bind (hvalues rfl ?_ []) fun _ =>
      acyclic_note.bind fun _ => acyclic_note.bind fun _ =>
    acyclic_fillSlot.bind fun _ => acyclic_pure
  rintro (_ | _ | _)
  · exact Slice.acyclic_pure
  · exact Slice.acyclic_value rfl hv
  · exact Slice.acyclic_value rfl hv

theorem acyclic_broadcastAll {paramName : String} {t : Ty} :
    Acyclic (view.broadcastAll paramName t) := by
  refine Acyclic.bind (.mapM ?_) fun _ =>
    acyclic_note.bind fun _ => acyclic_fillSlot.bind fun _ => acyclic_pure
  rintro ⟨s, i⟩ -
  dsimp only
  split
  · exact acyclic_pure
  · exact acyclic_fail (by rintro ⟨⟩)

theorem acyclic_clientWork (hv : view.Ordered) {paramName : String} {t : Ty} :
    Acyclic (view.clientWork paramName t) := by
  refine Acyclic.bind (Slice.acyclic_channelValues view_indexedBroadcasts hv []) fun _ => ?_
  exact acyclic_note.bind fun _ => acyclic_fillSlot.bind fun _ => acyclic_pure

theorem acyclic_aggregationCall (hc : c.view = view) (hv : view.Ordered) {values carried : Expr}
    {step : Step} {j : Nat} : Slice.Acyclic (view.aggregationCall c values carried step j) := by
  unfold aggregationCall
  split
  · exact Slice.acyclic_pure
  refine Slice.Acyclic.bind (.mapM ?_) fun _ => Slice.acyclic_typed.bind fun _ =>
    Slice.acyclic_bind.bind fun _ => Slice.acyclic_pure
  rintro ⟨e, i⟩ -
  dsimp only
  split
  · exact Slice.acyclic_pure
  · exact Slice.acyclic_value hc hv

theorem acyclic_aggregateAll (hv : view.Ordered) {paramName : String} {t u : Ty} :
    Acyclic (view.aggregateAll paramName t u) := by
  have hcalls : ∀ {c : Slice} {values carried : Expr}, c.view = view → Slice.Acyclic
      (view.aggregations.zipIdx.mapM fun p => view.aggregationCall c values carried p.1 p.2) :=
      fun hc =>
    .mapM fun _ _ => acyclic_aggregationCall hc hv
  refine Acyclic.bind (hcalls view_withCarried []) fun _ => ?_
  exact acyclic_note.bind fun _ => acyclic_fillSlot.bind fun _ => acyclic_pure

theorem acyclic_serverResult (hv : view.Ordered) {paramName : String} {t u output : Ty} :
    Acyclic (view.serverResult paramName t u output) := by
  refine Acyclic.bind (Slice.acyclic_value ?_ hv []) fun _ => acyclic_fillSlot
  refine (Slice.foldl_view ?_ _).trans view_withCarried
  rintro c ⟨step, j⟩
  rfl

theorem acyclic_distributeAggregateParts (hv : view.Ordered) :
    Acyclic view.distributeAggregateParts := by
  refine acyclic_note.bind fun _ => acyclic_note.bind fun _ => ?_
  split
  · exact acyclic_fail (by rintro ⟨⟩)
  refine acyclic_note.bind fun _ =>
    acyclic_note.bind fun _ => acyclic_broadcastsFirst.bind fun _ => ?_
  refine (acyclic_serverPrepare hv).bind fun _ =>
    acyclic_broadcastAll.bind fun _ => acyclic_note.bind fun _ => ?_
  refine (acyclic_clientWork hv).bind fun _ => acyclic_note.bind fun _ => ?_
  split
  · exact acyclic_fail (by rintro ⟨⟩)
  refine (acyclic_aggregateAll hv).bind fun _ => acyclic_note.bind fun _ => ?_
  exact (acyclic_serverResult hv).bind fun _ => acyclic_note.bind fun _ => acyclic_pure

theorem acyclic_aggregatesOnce : Acyclic view.aggregatesOnce := by
  unfold aggregatesOnce
  simp only
  split
  · exact acyclic_fail (by rintro ⟨⟩)
  split
  · exact acyclic_fail (by rintro ⟨⟩)
  · exact acyclic_pure

theorem acyclic_totalAggregation (hv : view.Ordered) {update : Ty} :
    Acyclic (view.totalAggregation update x) := by
  have hstatic : ∀ {step : Step} {index : Nat} {slot : String}, Acyclic (do
      let found ← Slice.staticArgument view step index slot
      return Expr.mkBlock found.2 found.1) :=
        (Slice.acyclic_staticArgument hv).bind fun _ => acyclic_pure
  unfold totalAggregation
  split
  · refine hstatic.bind fun _ => acyclic_note.bind fun _ => acyclic_fillSlot.bind fun _ => ?_
    refine hstatic.bind fun _ => acyclic_fillSlot.bind fun _ => ?_
    refine hstatic.bind fun _ => acyclic_fillSlot.bind fun _ => ?_
    exact hstatic.bind fun _ => acyclic_note.bind fun _ =>
      acyclic_fillSlot.bind fun _ => acyclic_pure
  · exact acyclic_note.bind fun _ =>
      acyclic_note.bind fun _ => acyclic_note.bind fun _ => acyclic_pure

theorem acyclic_secureParameter (hv : view.Ordered) {op : Crossing} {typeName : String} :
    Acyclic (view.secureParameter op typeName) := by
  unfold secureParameter
  dsimp only
  split
  · refine Acyclic.bind (acyclic_mapError fun error herror => ?_) fun _ =>
      acyclic_note.bind fun _ => acyclic_fillSlot
    rintro (_ | hcircular)
    exact Slice.acyclic_staticArgument hv error herror hcircular
  · exact acyclic_pure.bind fun _ => acyclic_note.bind fun _ => acyclic_fillSlot

theorem acyclic_clientValue (hc : c.view = view) (hv : view.Ordered) {step : Option Step} :
    Slice.Acyclic (clientValue c step) := by
  cases step with
  | none => exact Slice.acyclic_pure
  | some step => exact Slice.acyclic_channelValue hc hv

theorem view_updateSlice {t u : Ty} : (view.updateSlice x t u).view = view := by
  refine (Slice.foldl_view ?_ _).trans ?_
  · rintro c ⟨_ | _, i⟩ <;> rfl
  · cases view.aggregation? .aggregate <;> rfl

theorem acyclic_mapReduceParts (hv : view.Ordered) : Acyclic view.mapReduceParts := by
  have hvalues : ∀ {c : Slice}, c.view = view → Slice.Acyclic (do
      let update ← clientValue c (view.aggregation? .aggregate)
      return (update, ← (Crossing.secureSums.map view.aggregation?).mapM (clientValue c))) :=
          fun hc =>
    (acyclic_clientValue hc hv).bind fun _ => Slice.Acyclic.bind
        (.mapM fun _ _ => acyclic_clientValue hc hv) fun _ =>
      Slice.acyclic_pure
  refine acyclic_note.bind fun _ => acyclic_note.bind fun _ => ?_
  split
  · exact acyclic_fail (by rintro ⟨⟩)
  refine acyclic_note.bind fun _ => acyclic_broadcastsFirst.bind fun _ => ?_
  refine (acyclic_serverContext hv).bind fun _ => acyclic_note.bind fun _ => ?_
  refine Acyclic.bind (hvalues view_broadcastResults []) fun _ => acyclic_note.bind fun _ => ?_
  refine acyclic_note.bind fun _ => acyclic_fillSlot.bind fun _ => acyclic_note.bind fun _ => ?_
  refine acyclic_aggregatesOnce.bind fun _ => (acyclic_totalAggregation hv).bind fun _ => ?_
  refine (acyclic_secureParameter hv).bind fun _ => (acyclic_secureParameter hv).bind fun _ => ?_
  refine (acyclic_secureParameter hv).bind fun _ => acyclic_note.bind fun _ => ?_
  refine Acyclic.bind (Slice.acyclic_value view_updateSlice hv []) fun _ => ?_
  exact acyclic_fillSlot.bind fun _ => acyclic_note.bind fun _ => acyclic_pure

end View

theorem acyclic_parts {round : Expr} {template : Template} {view : View}
    (h : (View.ofRound round template).result = .ok view) (hv : view.Ordered) :
    Acyclic (parts round template) := by
  intro error herror
  rw [parts, Traced.bind_result h] at herror
  revert error
  refine acyclic_note.bind fun _ => ?_
  cases template with
  | mapReduce => exact (View.acyclic_mapReduceParts hv).bind fun _ => acyclic_pure
  | distributeAggregate =>
    exact (View.acyclic_distributeAggregateParts hv).bind fun _ => acyclic_pure
  | broadcast => exact (View.acyclic_broadcastParts hv).bind fun _ => acyclic_pure

theorem View.ofRound_ordered {round : Expr} {template : Template} {view : View}
    (h : (View.ofRound round template).result = .ok view)
    (hfree : ∀ step ∈ view.steps, step.name ∉ round.free) :
    view.Ordered := by
  intro pre step post hsteps step' hmem hrefers
  obtain ⟨body, p, t, -, -, hcollected⟩ := ofRound_collected h
  have hnodup := hcollected.distinct.nodup
  rw [hsteps, List.map_append, List.nodup_cons, List.mem_append, not_or,
    List.nodup_append] at hnodup
  have hname : step'.name ∈ (step :: post).map Step.name := List.mem_map_of_mem hmem
  -- A name of this step or a later one is neither that of an earlier step nor the parameter nor
  -- free.
  obtain hpre | hparam | hround := ofRound_founded h pre step post hsteps _ hrefers
  · exact hnodup.2.2.2 _ hpre _ hname rfl
  · exact hnodup.1.2 (hparam ▸ hname)
  · exact hfree step' (hsteps ▸ List.mem_append_right pre hmem) (mem_free.mpr hround)

/-- The steps of a view refer to steps before them, to the parameter, and to what is free in the
round. If no step has a name that is free in the round, they refer to no step but those before them;
slicing then follows references to an end within the number of steps, and no part of the round is
found to depend on itself. -/
theorem slicing_ends {round : Expr} {template : Template} {view : View}
    (h : (View.ofRound round template).result = .ok view) :
    (∀ pre step post, view.steps = pre ++ step :: post → ∀ x ∈ step.value.free,
      x ∈ pre.map Step.name ∨ x = view.param ∨ x ∈ round.free) ∧
    ((∀ step ∈ view.steps, step.name ∉ round.free) →
      (∀ pre step post, view.steps = pre ++ step :: post →
        ∀ step' ∈ step :: post, step'.name ∉ step.value.free) ∧
      (∀ (c : Slice) (e : Expr) (depth : Nat), c.view = view → view.steps.length ≤ depth →
        c.valueWith (c.resolve depth) e = c.value e) ∧
      ∀ error, (parts round template).result = .error error → ¬ error.Circular) := by
  simp only [mem_free]
  refine ⟨View.ofRound_founded h, fun hfree => ?_⟩
  have hv := View.ofRound_ordered h fun step hs hx => hfree step hs (mem_free.mp hx)
  refine ⟨hv, ?_, acyclic_parts h hv⟩
  rintro c e depth rfl hdepth
  exact (Slice.value_agrees hv hdepth).1

/-- A round that copies the coordinator's value `read` to `a`, then its own state to `y`, and sends
`a` to the participants. -/
def relayed (read : String) : Expr :=
  let inputs := Ty.tuple [.atCoordinator .int32, .atParticipants .int32]
  let call := fun uri a t => Expr.call (.intrinsic uri (.func (Expr.ty a) t)) a t
  let copy := fun e => call "federated_apply" (.mkTuple [.mkLambda "v" .int32 (.ref "v" .int32), e])
    (.atCoordinator .int32)
  let received := Ty.place .int32 .participants true
  let pairs := call "federated_zip_at_clients"
    (.mkTuple [.ref "c" received, .select (.ref "p" inputs) 1 (.atParticipants .int32)])
    (.atParticipants (.tuple [.int32, .int32]))
  .mkLambda "p" inputs (.mkBlock [("a", copy (.ref read (.atCoordinator .int32))),
    ("y", copy (.select (.ref "p" inputs) 0 (.atCoordinator .int32))),
      ("c", call "federated_broadcast" (.ref "a" (.atCoordinator .int32)) received)]
    (call "federated_map" (.mkTuple [.builtin .add (.func (.tuple [.int32, .int32]) .int32), pairs])
      (.atParticipants .int32)))

/-- A reference that is free in the round and names no step is found out, at whatever depth. -/
theorem slicing_ends_relayed : ∃ view, (View.ofRound (relayed "z") .broadcast).result = .ok view ∧
    view.steps.map Step.name = ["a", "y", "c", "zip_at_clients"] ∧ (relayed "z").free = ["z"] ∧
    ∀ error, (parts (relayed "z") .broadcast).result = .error error → ¬ error.Circular := by
  refine ⟨_, rfl, rfl, rfl, ((slicing_ends rfl).2 ?_).2.2⟩
  decide

/-- A reference that is free in the round is taken for the step of that name: for one that comes
later, or for the very step that makes it. -/
theorem relayed_circular :
    ((relayed "y").check = .ok () ∧ (∃ form, (parts (relayed "y") .broadcast).result = .ok form) ∧
      ∃ view first second later, (View.ofRound (relayed "y") .broadcast).result = .ok view ∧
        view.steps = first :: second :: later ∧ second.name ∈ first.value.free) ∧
    (relayed "a").check = .ok () ∧
      ∃ error, (parts (relayed "a") .broadcast).result = .error error ∧ error.Circular := by
  refine ⟨⟨rfl, ⟨_, rfl⟩, _, _, _, _, rfl, rfl, ?_⟩, rfl, _, rfl, .step⟩
  decide

end Round

end TwoTier

import TwoTier.Proofs.Factoring
import TwoTier.Proofs.Order

/-! # References inside a slot

What slicing a closed round puts into a slot refers to the slot's parameter and to locals of the
slot. A step becomes a local once, behind the steps that it needs, in whatever order and however
often the slot is asked for them. A slot can also be given locals. If these stay in the slot too, as
the aggregations that a slot is given do, a function of its parameter over its locals is closed.
-/

namespace TwoTier

namespace Expr

variable {q x : String} {ls ds : List (String × Expr)} {e r : Expr}

/-- The expression refers to nothing but the parameter `q` and the locals. -/
def StaysIn (q : String) (ls : List (String × Expr)) (e : Expr) : Prop :=
  ∀ z ∈ e.free, z = q ∨ z ∈ ls.map Prod.fst

instance : Decidable (e.StaysIn q ls) :=
  inferInstanceAs (Decidable (∀ z ∈ e.free, z = q ∨ z ∈ ls.map Prod.fst))

theorem staysIn_iff : e.StaysIn q ls ↔ ∀ z, e.Refers z → z = q ∨ z ∈ ls.map Prod.fst := by
  simp only [StaysIn, mem_free]

theorem staysIn_of_isClosed (h : e.isClosed = true) : e.StaysIn q ls :=
  staysIn_iff.mpr fun z hz => absurd hz (isClosed_iff.mp h z)

theorem staysIn_ref {t : Ty} (h : x ∈ ls.map Prod.fst) : (ref x t).StaysIn q ls :=
  staysIn_iff.mpr fun _ hz => .inr (refers_ref.mp hz ▸ h)

theorem StaysIn.append (h : e.StaysIn q ls) : e.StaysIn q (ls ++ ds) := by
  intro z hz
  rw [List.map_append, List.mem_append]
  exact (h z hz).imp_right .inl

theorem StaysIn.of_nil (h : e.StaysIn q []) : e.StaysIn q ls :=
  h.append

theorem staysIn_param {t : Ty} : (ref q t).StaysIn q ls :=
  staysIn_iff.mpr fun _ hz => .inl (refers_ref.mp hz)

theorem StaysIn.field {i : Nat} (h : e.StaysIn q ls) : (e.field i).StaysIn q ls :=
  staysIn_iff.mpr fun z hz => staysIn_iff.mp h z (refers_select.mp hz)

theorem staysIn_mkTuple {es : List Expr} (h : ∀ e ∈ es, e.StaysIn q ls) :
    (mkTuple es).StaysIn q ls := by
  refine staysIn_iff.mpr fun z hz => ?_
  obtain ⟨e, he, hz⟩ := refers_tuple.mp hz
  exact staysIn_iff.mp (h e he) z hz

theorem StaysIn.mkIntrinsicCall {op : Intrinsic} (h : e.StaysIn q ls)
    (hr : Expr.mkIntrinsicCall op e = .ok r) : r.StaysIn q ls := by
  obtain ⟨t, -, rfl⟩ := mkIntrinsicCall_ok.mp hr
  exact staysIn_iff.mpr fun z hz =>
    staysIn_iff.mp h z ((refers_call.mp hz).resolve_left refers_intrinsic)

theorem staysIn_mkBlock (hls : ∀ pre x e post, ls = pre ++ (x, e) :: post → e.StaysIn q (ds ++ pre))
    (hr : r.StaysIn q (ds ++ ls)) : (mkBlock ls r).StaysIn q ds := by
  induction ls generalizing ds with
  | nil => simpa [mkBlock] using hr
  | cons l ls ih =>
    obtain ⟨x, e⟩ := l
    have he : e.StaysIn q ds := by simpa using hls [] x e ls rfl
    have hrest : (mkBlock ls r).StaysIn q (ds ++ [(x, e)]) := by
      refine ih (fun pre y e' post heq => ?_) (by simpa using hr)
      simpa using hls ((x, e) :: pre) y e' post (congrArg _ heq)
    refine staysIn_iff.mpr fun z hz => ?_
    obtain hz | ⟨hne, hz⟩ := refers_mkBlock_cons.mp hz
    · exact staysIn_iff.mp he z hz
    · simpa [hne] using staysIn_iff.mp hrest z hz

end Expr

namespace Round

open Expr

variable {q x : String} {names names' : List String}
    {ls ls' ls'' : List (String × Expr)} {e e' : Expr}

namespace Slice

/-- The second locals are the first ones and more. Those have new names, among `names`, and refer to
nothing but the parameter and the locals before them. -/
inductive Grows (q : String) (names : List String) (ls : List (String × Expr)) :
    List (String × Expr) → Prop where

  | refl : Grows q names ls ls

  | snoc {ls' : List (String × Expr)} {x : String} {e : Expr} : Grows q names ls ls' → x ∈ names →
      x ∉ ls'.map Prod.fst → e.StaysIn q ls' → Grows q names ls (ls' ++ [(x, e)])

theorem Grows.trans (h : Grows q names ls ls') (h' : Grows q names ls' ls'') :
    Grows q names ls ls'' := by
  induction h' with
  | refl => exact h
  | snoc _ hx hnew he ih => exact ih.snoc hx hnew he

theorem Grows.widen (h : Grows q names ls ls') (hn : ∀ x ∈ names, x ∈ names') :
    Grows q names' ls ls' := by
  induction h with
  | refl => exact .refl
  | snoc _ hx hnew he ih => exact ih.snoc (hn _ hx) hnew he

theorem Grows.staysIn (h : Grows q names ls ls') (he : e.StaysIn q ls) : e.StaysIn q ls' := by
  induction h with
  | refl => exact he
  | snoc _ _ _ _ ih => exact ih.append

theorem Grows.mem (h : Grows q names ls ls') (hx : x ∈ ls'.map Prod.fst) :
    x ∈ ls.map Prod.fst ∨ x ∈ names := by
  induction h with
  | refl => exact .inl hx
  | snoc _ hy _ _ ih =>
    rw [List.map_append, List.mem_append] at hx
    obtain hx | hx := hx
    · exact ih hx
    · rw [List.map_singleton, List.mem_singleton] at hx
      exact .inr (hx ▸ hy)

theorem nodup_snoc (h : (ls.map Prod.fst).Nodup) (hx : x ∉ ls.map Prod.fst) :
    ((ls ++ [(x, e)]).map Prod.fst).Nodup := by
  rw [List.map_append, List.map_singleton]
  exact h.append (List.nodup_singleton x) (List.disjoint_singleton.mpr hx)

theorem Grows.nodup (h : Grows q names ls ls') (hn : (ls.map Prod.fst).Nodup) :
    (ls'.map Prod.fst).Nodup := by
  induction h with
  | refl => exact hn
  | snoc _ _ hnew _ ih => exact nodup_snoc ih hnew

/-- Slicing by `m` adds locals of these names, and results in an expression that stays in the
slot. -/
def Keeps (q : String) (names : List String) (m : SliceM Expr) : Prop :=
  ∀ ⦃ls ls' : List (String × Expr)⦄ ⦃e : Expr⦄, (m.run ls).result = .ok (e, ls') →
    Grows q names ls ls' ∧ e.StaysIn q ls'

variable {c : Slice} {m m' : SliceM Expr} {ms : List (SliceM Expr)} {r : Step → SliceM Expr}

theorem keeps_pure (h : e.StaysIn q []) : Keeps q names (pure e) := by
  intro ls ls' e' hr
  obtain ⟨rfl, rfl⟩ := Prod.mk.inj (Traced.run_pure_ok.mp hr)
  exact ⟨.refl, h.of_nil⟩

theorem keeps_fail {error : CompileError} : Keeps q names (fail error) :=
  fun _ _ _ hr => absurd hr fail_ok

theorem keeps_unlessInert (h : Keeps q names m) : Keeps q names (unlessInert e m) := by
  intro ls ls' e' hr
  obtain ⟨hc, -, heq⟩ | hr := unlessInert_ok hr
  · obtain ⟨rfl, rfl⟩ := Prod.mk.inj heq
    exact ⟨.refl, staysIn_of_isClosed hc⟩
  · exact h hr

theorem keeps_whole : Keeps q names (c.whole e) := by
  intro ls ls' e' hr
  obtain ⟨hc, -, heq⟩ := whole_ok hr
  obtain ⟨rfl, rfl⟩ := Prod.mk.inj heq
  exact ⟨.refl, staysIn_of_isClosed hc⟩

theorem keeps_typed {node : Expr → Except TypeFault Expr} (h : Keeps q names m)
    (hnode : ∀ e e', node e = .ok e' → ∀ z, e'.Refers z → e.Refers z) :
    Keeps q names (do c.typed (node (← m))) := by
  intro ls ls' e' hr
  simp only [Traced.run_bind_ok, typed_ok] at hr
  obtain ⟨e, _, hr, he, rfl⟩ := hr
  obtain ⟨hgrows, hstays⟩ := h hr
  exact ⟨hgrows, staysIn_iff.mpr fun z hz => staysIn_iff.mp hstays z (hnode e e' he z hz)⟩

theorem keeps_call (h : Keeps q names m) (h' : Keeps q names m') : Keeps q names (do
    let function ← m
    let argument ← m'
    c.typed (function.mkCall argument)) := by
  intro ls ls' e hr
  simp only [Traced.run_bind_ok, typed_ok] at hr
  obtain ⟨f, _, hr₁, a, _, hr₂, he, rfl⟩ := hr
  obtain ⟨hgrows, hf⟩ := h hr₁
  obtain ⟨hgrows', ha⟩ := h' hr₂
  obtain ⟨p, t, -, -, rfl⟩ := mkCall_ok.mp he
  refine ⟨hgrows.trans hgrows', staysIn_iff.mpr fun z hz => ?_⟩
  obtain hz | hz := refers_call.mp hz
  · exact staysIn_iff.mp (hgrows'.staysIn hf) z hz
  · exact staysIn_iff.mp ha z hz

theorem keeps_sequence {es : List Expr} (h : ∀ m ∈ ms, Keeps q names m)
    (hr : ((sequence ms).run ls).result = .ok (es, ls')) :
    Grows q names ls ls' ∧ ∀ e ∈ es, e.StaysIn q ls' := by
  induction ms generalizing ls es with
  | nil =>
    obtain ⟨rfl, rfl⟩ := Prod.mk.inj (Traced.run_pure_ok.mp hr)
    exact ⟨.refl, by simp⟩
  | cons m ms ih =>
    simp only [sequence, Traced.run_bind_ok] at hr
    obtain ⟨e, ls₁, hr₁, es', ls₂, hr₂, hr₃⟩ := hr
    obtain ⟨rfl, rfl⟩ := Prod.mk.inj (Traced.run_pure_ok.mp hr₃)
    obtain ⟨hgrows, he⟩ := h m List.mem_cons_self hr₁
    obtain ⟨hgrows', hes⟩ := ih (fun m hm => h m (List.mem_cons_of_mem _ hm)) hr₂
    exact ⟨hgrows.trans hgrows', List.forall_mem_cons.mpr ⟨hgrows'.staysIn he, hes⟩⟩

theorem keeps_tuple (h : ∀ m ∈ ms, Keeps q names m) :
    Keeps q names (do return mkTuple (← sequence ms)) := by
  intro ls ls' e hr
  rw [Traced.run_bind_ok] at hr
  obtain ⟨es, ls₁, hr₁, hr₂⟩ := hr
  obtain ⟨rfl, rfl⟩ := Prod.mk.inj (Traced.run_pure_ok.mp hr₂)
  obtain ⟨hgrows, hes⟩ := keeps_sequence h hr₁
  exact ⟨hgrows, staysIn_mkTuple hes⟩

theorem keeps_intrinsicCall {uri : String} {argument : SliceM Expr}
    (hparts : ∀ m ∈ ms, Keeps q names m) (hargument : Keeps q names argument) :
    Keeps q names (c.intrinsicCall e uri ms argument) := by
  have hlowered : ∀ op, Keeps q names (c.loweredCall op ms argument) := by
    intro op
    cases op with
    | map | apply =>
      unfold loweredCall
      dsimp only
      split
      · rename_i function value
        exact keeps_call (hparts function (by simp)) (hparts value (by simp))
      · exact keeps_fail
    | zipAtClients | zipAtServer => exact keeps_tuple hparts
    | valueAtServer => exact hargument
  unfold intrinsicCall
  split
  · exact keeps_fail
  · split
    · refine keeps_typed hargument fun a e' he z hz => ?_
      obtain ⟨t, -, rfl⟩ := mkIntrinsicCall_ok.mp he
      exact (refers_call.mp hz).resolve_left refers_intrinsic
    · exact hlowered _
  · exact keeps_fail

theorem keeps_intrinsicForce {uri : String} : Keeps q names (c.intrinsicForce e uri) := by
  unfold intrinsicForce
  split <;> exact keeps_fail

/-- What stands for the round's inputs and for the results of steps refers to nothing but the slot's
parameter. -/
structure Over (c : Slice) (q : String) : Prop where
  state : ∀ e, c.state = some e → e.StaysIn q []
  data : ∀ e, c.data = some e → e.StaysIn q []
  inputs : ∀ x e, c.inputs.lookup x = some e → e.StaysIn q []

theorem Over.selection (hc : c.Over q) {source : Expr} {i : Nat} (h : Keeps q names m) :
    Keeps q names (c.selection e source i m) := by
  have hother : Keeps q names (do c.typed ((← m).mkSelect i)) := by
    refine keeps_typed h fun e e' he z hz => ?_
    obtain ⟨ts, u, -, -, rfl⟩ := mkSelect_ok.mp he
    exact refers_select.mp hz
  have hinput : ∀ {o : Option Expr} {misfit : Misfit}, (∀ e, o = some e → e.StaysIn q []) →
      Keeps q names (o.elim (c.misfit misfit) pure) := by
    intro o misfit ho
    cases o with
    | none => exact keeps_fail
    | some e => exact keeps_pure (ho e rfl)
  refine keeps_unlessInert ?_
  split
  · split
    · split
      · exact hinput hc.state
      · exact hinput hc.data
    · exact hother
  · exact hother

theorem Over.fields (hc : c.Over q) {a : Expr} (h : Keeps q names m) :
    ∀ m' ∈ c.fields a m, Keeps q names m' := by
  unfold Slice.fields
  split
  · intro m' hm'
    obtain ⟨i, -, rfl⟩ := List.mem_map.mp hm'
    exact hc.selection h
  · simpa using h

/-- Slicing by `m` does the same as long as no local has the name `x`. -/
def KeepsNew (q : String) (names : List String) (x : String) (m : SliceM Expr) : Prop :=
  ∀ ⦃ls ls' : List (String × Expr)⦄ ⦃e : Expr⦄, x ∉ ls.map Prod.fst →
    (m.run ls).result = .ok (e, ls') →
    Grows q names ls ls' ∧ e.StaysIn q ls'

theorem Over.reference (hc : c.Over q)
    (h : ∀ step, c.view.step? x = some step → step.boundary = none → KeepsNew q names x (r step)) :
    Keeps q names (c.reference r e x) := by
  intro ls ls' e' hrun
  unfold Slice.reference at hrun
  split at hrun
  · rename_i input hin
    exact keeps_pure (hc.inputs x input hin) hrun
  · simp only [Traced.run_bind_ok, Traced.run_get_ok] at hrun
    obtain ⟨_, _, ⟨rfl, rfl⟩, hrun⟩ := hrun
    split at hrun
    · rename_i e₁ hlook
      obtain ⟨rfl, rfl⟩ := Prod.mk.inj (Traced.run_pure_ok.mp hrun)
      refine ⟨.refl, staysIn_ref ?_⟩
      obtain ⟨l₁, l₂, rfl, -⟩ := List.lookup_eq_some_iff.mp hlook
      simp
    · rename_i hnone
      split at hrun
      · exact absurd hrun misfit_ok
      split at hrun
      · exact absurd hrun leak_ok
      rename_i step hstep
      split at hrun
      · exact absurd hrun misfit_ok
      · rename_i hboundary
        exact h step hstep hboundary (lookup_eq_none.mp hnone) hrun

theorem keeps_valuesWith {es : List Expr} (h : ∀ e ∈ es, Keeps q names (c.valueWith r e)) :
    ∀ m ∈ c.valuesWith r es, Keeps q names m := by
  rw [valuesWith_eq]
  intro m hm
  obtain ⟨e, he, rfl⟩ := List.mem_map.mp hm
  exact h e he

theorem Over.argumentParts (hc : c.Over q) {a : Expr}
    (hes : ∀ es u, a = .tuple es u → ∀ e ∈ es, Keeps q names (c.valueWith r e))
    (ha : Keeps q names (c.valueWith r a)) :
    ∀ m ∈ c.argumentParts r a, Keeps q names m := by
  unfold Slice.argumentParts
  split
  · exact keeps_valuesWith (hes _ _ rfl)
  · exact hc.fields ha

theorem Over.valueWith (hc : c.Over q)
    (h : ∀ x, e.Refers x → ∀ step, c.view.step? x = some step → step.boundary = none →
      KeepsNew q names x (r step)) : Keeps q names (c.valueWith r e) := by
  induction e using slicing_induct with
  | ref x t => exact keeps_unlessInert (hc.reference (h x (refers_ref.mpr rfl)))
  | lit | builtin => exact keeps_pure (staysIn_of_isClosed rfl)
  | lambda | block | intrinsic => exact keeps_unlessInert keeps_whole
  | tuple es t ih =>
    refine keeps_unlessInert (keeps_tuple (keeps_valuesWith fun e he => ?_))
    exact ih e he fun x hx => h x (refers_tuple.mpr ⟨e, he, hx⟩)
  | select e i t ih => exact hc.selection (ih fun x hx => h x (refers_select.mpr hx))
  | intrinsicForce => exact keeps_unlessInert keeps_intrinsicForce
  | force f t hf ih =>
    rw [valueWith_force hf]
    refine keeps_unlessInert
      (keeps_typed (ih fun x hx => h x (refers_force.mpr hx)) fun f e' he z hz => ?_)
    obtain ⟨t, -, rfl⟩ := mkForce_ok.mp he
    exact refers_force.mp hz
  | intrinsicCall uri u a t ihes iha =>
    have ha : Keeps q names (c.valueWith r a) := iha fun x hx => h x (refers_call.mpr (.inr hx))
    have hes : ∀ es u, a = .tuple es u → ∀ e ∈ es, Keeps q names (c.valueWith r e) := by
      rintro es u rfl e he
      exact ihes es u rfl e he fun x hx =>
        h x (refers_call.mpr (.inr (refers_tuple.mpr ⟨e, he, hx⟩)))
    rw [valueWith_intrinsic]
    exact keeps_unlessInert (keeps_intrinsicCall (hc.argumentParts hes ha) ha)
  | call f a t hf ihf iha =>
    rw [valueWith_call hf]
    refine keeps_unlessInert (keeps_call ?_ ?_)
    · exact ihf fun x hx => h x (refers_call.mpr (.inl hx))
    · exact iha fun x hx => h x (refers_call.mpr (.inr hx))

/-- The names of the steps that slicing makes locals: those that are no boundary. -/
def emitted (steps : List Step) : List String :=
  (steps.filter fun step => step.boundary.isNone).map Step.name

theorem mem_emitted {steps : List Step} :
    x ∈ emitted steps ↔ ∃ step ∈ steps, step.boundary = none ∧ step.name = x := by
  simp [emitted, and_assoc]

theorem not_mem_emitted {steps : List Step} {step : Step} {b : BoundaryCall}
    (hn : (steps.map Step.name).Nodup) (hstep : step ∈ steps) (hb : step.boundary = some b) :
    step.name ∉ emitted steps := by
  intro hx
  obtain ⟨step', hstep', hnone, hname⟩ := mem_emitted.mp hx
  obtain rfl := List.inj_on_of_nodup_map hn hstep' hstep hname
  cases hnone.symm.trans hb

theorem emitted_mono {steps steps' : List Step} (h : steps <+: steps') (hx : x ∈ emitted steps) :
    x ∈ emitted steps' := by
  obtain ⟨step, hstep, hrest⟩ := mem_emitted.mp hx
  exact mem_emitted.mpr ⟨step, h.subset hstep, hrest⟩

/-- A step that is no local yet becomes one, behind steps before it. By induction on the depth. -/
theorem Over.resolve (hc : c.Over q) (hv : c.view.Ordered)
    (hn : (c.view.steps.map Step.name).Nodup) (depth : Nat) {pre post : List Step} {step : Step}
    (hsteps : c.view.steps = pre ++ step :: post) (hboundary : step.boundary = none) :
    KeepsNew q (emitted (pre ++ [step])) step.name (c.resolve depth step) := by
  induction depth generalizing pre post step with
  | zero => exact fun _ _ _ _ hrun => absurd hrun misfit_ok
  | succ depth ih =>
    intro ls ls' e hnew hrun
    simp only [Slice.resolve, Slice.bind, Traced.run_bind_ok, Traced.run_lift_ok,
      Traced.run_modify_ok, Traced.run_pure_ok] at hrun
    obtain ⟨e₁, ls₁, hrun, _, _, ⟨-, rfl⟩, _, _, rfl, heq⟩ := hrun
    obtain ⟨rfl, rfl⟩ := Prod.mk.inj heq
    -- The value refers to steps of `pre`, and these only bring in steps of `pre` themselves.
    have hvalue : Keeps q (emitted pre) (c.valueWith (c.resolve depth) step.value) := by
      refine hc.valueWith fun x hx step' hs hboundary' ls ls' e hnew hrun => ?_
      obtain ⟨pre', post', hsteps', hlt⟩ := step?_earlier hv hsteps hx hs
      have hname : step'.name = x := by simpa using List.find?_some hs
      obtain ⟨hgrows, he⟩ := ih hsteps' hboundary' (hname ▸ hnew) hrun
      have hearlier : pre' ++ [step'] <+: pre :=
        List.prefix_of_prefix_length_le ⟨post', by simp [hsteps']⟩ ⟨step :: post, hsteps.symm⟩
          (by simpa [Nat.succ_le_iff] using hlt)
      exact ⟨hgrows.widen fun y => emitted_mono hearlier, he⟩
    obtain ⟨hgrows, he⟩ := hvalue hrun
    -- So the step was not made a local on the way, and is still new when it is appended.
    have hnew' : step.name ∉ ls₁.map Prod.fst := by
      intro hx
      rw [hsteps, List.map_append, List.nodup_append] at hn
      obtain hx | hx := hgrows.mem hx
      · exact hnew hx
      · obtain ⟨step', hmem, -, hname⟩ := mem_emitted.mp hx
        exact hn.2.2 _ (List.mem_map_of_mem hmem) _ List.mem_cons_self hname
    have hself : step.name ∈ emitted (pre ++ [step]) :=
      mem_emitted.mpr ⟨step, by simp, hboundary, rfl⟩
    exact ⟨(hgrows.widen fun y => emitted_mono (List.prefix_append _ _)).snoc hself hnew' he,
      staysIn_ref (by simp)⟩

theorem Over.value (hc : c.Over q) (hv : c.view.Ordered)
    (hn : (c.view.steps.map Step.name).Nodup) : Keeps q (emitted c.view.steps) (c.value e) := by
  refine hc.valueWith fun x hx step hs hboundary ls ls' e' hnew hrun => ?_
  obtain ⟨hname, pre, post, hsteps, -⟩ := List.find?_eq_some_iff_append.mp hs
  have hname : step.name = x := by simpa using hname
  obtain ⟨hgrows, he⟩ := hc.resolve hv hn _ hsteps hboundary (hname ▸ hnew) hrun
  exact ⟨hgrows.widen fun y => emitted_mono ⟨post, by simp [hsteps]⟩, he⟩

/-- The locals of these names refer to nothing but the parameter and the locals before them. -/
def Linked (q : String) (p : String → Prop) (ls : List (String × Expr)) : Prop :=
  ∀ pre x e post, ls = pre ++ (x, e) :: post → p x → e.StaysIn q pre

variable {p p' : String → Prop}

theorem Linked.snoc (h : Linked q p ls) (he : p x → e.StaysIn q ls) :
    Linked q p (ls ++ [(x, e)]) := by
  intro pre y e' post heq hy
  obtain ⟨rfl, hlast⟩ | ⟨post', heq⟩ := snoc_eq_append_cons heq
  · cases hlast
    exact he hy
  · exact h pre y e' post' heq hy

theorem Linked.mono (h : Linked q p ls) (hp : ∀ x ∈ ls.map Prod.fst, p' x → p x) :
    Linked q p' ls := by
  intro pre x e post heq hx
  exact h pre x e post heq (hp x (by simp [heq]) hx)

theorem Linked.isClosed_closeOver {t : Ty} (h : Linked q (fun _ => True) ls)
    (he : e.StaysIn q ls) : (closeOver q t e ls).isClosed = true := by
  refine isClosed_iff.mpr fun z hz => ?_
  obtain ⟨hz, hne⟩ := refers_lambda.mp hz
  have hblock : (mkBlock ls e).StaysIn q [] :=
    staysIn_mkBlock (fun pre x e post heq => h pre x e post heq trivial) he
  obtain rfl | hz := staysIn_iff.mp hblock z hz
  · exact hne rfl
  · cases hz

theorem Grows.linked (h : Grows q names ls ls') (hl : Linked q p ls) : Linked q p ls' := by
  induction h with
  | refl => exact hl
  | snoc _ _ _ he ih => exact ih.snoc fun _ => he

/-- What a slot comes to by requests: it has the locals `ls`, those of the names `given` from
outside, and has answered with `es`. -/
inductive Answers (c : Slice) :
    (given : List String) → (ls : List (String × Expr)) → (es : List Expr) → Prop where

  | start : Answers c [] [] []

  | value {given : List String} {ls ls' : List (String × Expr)} {es : List Expr} {e e' : Expr} :
      Answers c given ls es → ((c.value e).run ls).result = .ok (e', ls') →
      Answers c given ls' (e' :: es)

  | bind {given : List String} {ls ls' : List (String × Expr)} {es : List Expr} {x : String}
      {e e' : Expr} : Answers c given ls es → x ∉ ls.map Prod.fst →
      ((Slice.bind x e).run ls).result = .ok (e', ls') → Answers c (x :: given) ls' (e' :: es)

variable {given : List String} {es : List Expr}

/-- One request after the other keeps the names of locals distinct and what was answered in the
slot. -/
theorem Over.answers (hc : c.Over q) (hv : c.view.Ordered)
    (hn : (c.view.steps.map Step.name).Nodup) (h : c.Answers given ls es) :
    (ls.map Prod.fst).Nodup ∧ Linked q (· ∉ given) ls ∧ ∀ e ∈ es, e.StaysIn q ls := by
  induction h with
  | start => exact ⟨by simp, by simp [Linked], by simp⟩
  | value _ hrun ih =>
    obtain ⟨hnodup, hlinked, hes⟩ := ih
    obtain ⟨hgrows, he⟩ := hc.value hv hn hrun
    exact ⟨hgrows.nodup hnodup, hgrows.linked hlinked,
      List.forall_mem_cons.mpr ⟨he, fun e' he' => hgrows.staysIn (hes e' he')⟩⟩
  | bind _ hx hrun ih =>
    obtain ⟨hnodup, hlinked, hes⟩ := ih
    simp only [Slice.bind, Traced.run_bind_ok, Traced.run_modify_ok, Traced.run_pure_ok] at hrun
    obtain ⟨_, _, rfl, heq⟩ := hrun
    obtain ⟨rfl, rfl⟩ := Prod.mk.inj heq
    refine ⟨nodup_snoc hnodup hx, ?_, ?_⟩
    · -- The new local is given, so nothing is asked of it.
      refine Linked.snoc (hlinked.mono fun y _ hy hgiven => ?_) (by simp)
      exact hy (List.mem_cons_of_mem _ hgiven)
    · exact List.forall_mem_cons.mpr ⟨staysIn_ref (by simp), fun e' he' => (hes e' he').append⟩

/-- What a slot comes to by requests, where all that it is given stays in it. -/
structure Fills (c : Slice) (q : String) (given : List String) (ls : List (String × Expr))
    (es : List Expr) : Prop where
  answers : c.Answers given ls es
  linked : Linked q (· ∈ given) ls

theorem fills_nil : c.Fills q [] [] [] :=
  ⟨.start, by simp [Linked]⟩

theorem Fills.value (h : c.Fills q given ls es) (hc : c.Over q) (hv : c.view.Ordered)
    (hn : (c.view.steps.map Step.name).Nodup) (hrun : ((c.value e).run ls).result = .ok (e', ls')) :
    c.Fills q given ls' (e' :: es) :=
  ⟨h.answers.value hrun, (hc.value hv hn hrun).1.linked h.linked⟩

theorem Fills.bind (h : c.Fills q given ls es) (hx : x ∉ ls.map Prod.fst) (he : e.StaysIn q ls) :
    c.Fills q (x :: given) (ls ++ [(x, e)]) (.ref x e.ty :: es) where
  answers := h.answers.bind hx rfl
  linked := by
    refine Linked.snoc (h.linked.mono fun y hy hmem => ?_) fun _ => he
    obtain rfl | hmem := List.mem_cons.mp hmem
    · exact absurd hy hx
    · exact hmem

theorem Fills.linked_all (h : c.Fills q given ls es) (hc : c.Over q) (hv : c.view.Ordered)
    (hn : (c.view.steps.map Step.name).Nodup) :
    Linked q (fun _ => True) ls ∧ ∀ e ∈ es, e.StaysIn q ls := by
  obtain ⟨-, hlinked, hes⟩ := hc.answers hv hn h.answers
  refine ⟨fun pre x e post heq _ => ?_, hes⟩
  by_cases hx : x ∈ given
  · exact h.linked pre x e post heq hx
  · exact hlinked pre x e post heq hx

theorem Over.withInput (hc : c.Over q) (he : e.StaysIn q []) : (c.withInput x e).Over q where
  state := hc.state
  data := hc.data
  inputs y e' hy := by
    simp only [Slice.withInput, Subst.lookup_insert] at hy
    split at hy
    · exact Option.some.inj hy ▸ he
    · exact hc.inputs y e' hy

end Slice

namespace View

open Slice

variable {view : View} {c : Slice} {source values carried : Expr} {step : Step} {j : Nat}
  {given : List String} {es : List Expr}

theorem over_withCarried (hc : c.Over q) (hsource : source.StaysIn q []) :
    (view.withCarried source c).Over q := by
  unfold withCarried
  generalize view.carried.zipIdx = items
  induction items generalizing c with
  | nil => exact hc
  | cons item items ih =>
    obtain ⟨temp, i⟩ := item
    refine ih ?_
    cases temp with
    | state =>
      refine ⟨fun e he => ?_, hc.data, hc.inputs⟩
      obtain rfl : source.field i = e := by simpa using he
      exact hsource.field
    | step step => exact hc.withInput hsource.field
    | argument => exact hc

section Aggregations

variable (hc : c.Over q) (hv : c.view.Ordered) (hn : (c.view.steps.map Step.name).Nodup)
  (hvalues : values.StaysIn q []) (hcarried : carried.StaysIn q [])

include hc hv hn hcarried

theorem fills_extras {args : List (Expr × Nat)} {extras : List Expr} (h : c.Fills q given ls es)
    (hrun : ((args.mapM fun (e, i) => match view.carried.findIdx? (Carried.isArgument j i) with
      | some position => pure (carried.field position)
      | none => c.value e : SliceM (List Expr)).run ls).result = .ok (extras, ls')) :
    Grows q (emitted c.view.steps) ls ls' ∧ (∀ e ∈ extras, e.StaysIn q ls') ∧
      ∃ es', es ⊆ es' ∧ c.Fills q given ls' es' := by
  induction args generalizing ls es extras with
  | nil =>
    obtain ⟨rfl, rfl⟩ := Prod.mk.inj (Traced.run_pure_ok.mp hrun)
    exact ⟨.refl, by simp, es, List.Subset.refl _, h⟩
  | cons arg args ih =>
    obtain ⟨e, i⟩ := arg
    simp only [List.mapM_cons, Traced.run_bind_ok, Traced.run_pure_ok] at hrun
    obtain ⟨e', ls₁, hrun₁, rest, ls₂, hrun₂, heq⟩ := hrun
    obtain ⟨rfl, rfl⟩ := Prod.mk.inj heq
    have hfirst : Grows q (emitted c.view.steps) ls ls₁ ∧ e'.StaysIn q ls₁ ∧
        ∃ es', es ⊆ es' ∧ c.Fills q given ls₁ es' := by
      split at hrun₁
      · obtain ⟨rfl, rfl⟩ := Prod.mk.inj (Traced.run_pure_ok.mp hrun₁)
        exact ⟨.refl, hcarried.field.of_nil, es, List.Subset.refl _, h⟩
      · obtain ⟨hgrows, he'⟩ := hc.value hv hn hrun₁
        exact ⟨hgrows, he', _, List.subset_cons_self _ _, h.value hc hv hn hrun₁⟩
    obtain ⟨hgrows, he', es₁, hes₁, h⟩ := hfirst
    obtain ⟨hgrows', hrest, es₂, hes₂, h⟩ := ih h hrun₂
    exact ⟨hgrows.trans hgrows', List.forall_mem_cons.mpr ⟨hgrows'.staysIn he', hrest⟩, es₂,
      List.Subset.trans hes₁ hes₂, h⟩

include hvalues

/-- An aggregation that the slot is given stays in it, having no arguments but what the slot's
parameter holds and what was requested from the slot. -/
theorem fills_aggregationCall {o : Option Expr} {b : BoundaryCall} (h : c.Fills q given ls es)
    (hstep : step ∈ c.view.steps) (hb : step.boundary = some b)
    (hnew : step.name ∉ ls.map Prod.fst)
    (hrun : ((view.aggregationCall c values carried step j).run ls).result = .ok (o, ls')) :
    ∃ e es', o = some e ∧ es ⊆ es' ∧ c.Fills q (step.name :: given) ls' (e :: es') ∧
      ∀ x ∈ ls'.map Prod.fst, x ∈ ls.map Prod.fst ∨ x ∈ step.name :: emitted c.view.steps := by
  simp only [aggregationCall, hb, Traced.run_bind_ok, Slice.typed_ok, Slice.bind,
    Traced.run_modify_ok, Traced.run_pure_ok, Prod.mk.injEq] at hrun
  obtain ⟨extras, ls₁, hextras, call, _, ⟨hcall, rfl⟩, _, _,
      ⟨_, _, ⟨-, rfl⟩, rfl, rfl⟩, rfl, rfl⟩ :=
    hrun
  obtain ⟨hgrows, hstays, es₁, hes₁, h⟩ := fills_extras hc hv hn hcarried h hextras
  have hfirst : (values.field j).StaysIn q ls₁ := hvalues.field.of_nil
  have hargument : call.StaysIn q ls₁ := by
    split at hcall
    · exact hfirst.mkIntrinsicCall hcall
    · exact (staysIn_mkTuple (List.forall_mem_cons.mpr ⟨hfirst, hstays⟩)).mkIntrinsicCall hcall
  have hnew' : step.name ∉ ls₁.map Prod.fst := fun hx =>
    (hgrows.mem hx).elim hnew (not_mem_emitted hn hstep hb)
  refine ⟨_, es₁, rfl, hes₁, h.bind hnew' hargument, fun x hx => ?_⟩
  rw [List.map_append, List.mem_append, List.map_singleton, List.mem_singleton] at hx
  obtain hx | rfl := hx
  · exact (hgrows.mem hx).imp_right (List.mem_cons_of_mem _)
  · exact .inr List.mem_cons_self

theorem fills_aggregationCalls {calls : List (Step × Nat)} {os : List (Option Expr)}
    (h : c.Fills q given ls es)
    (hsteps : ∀ p ∈ calls, p.1 ∈ c.view.steps ∧ ∃ b, p.1.boundary = some b)
    (hdistinct : ((calls.map Prod.fst).map Step.name).Nodup)
    (hnew : ∀ p ∈ calls, p.1.name ∉ ls.map Prod.fst)
    (hrun : ((calls.mapM fun p =>
      view.aggregationCall c values carried p.1 p.2).run ls).result = .ok (os, ls')) :
    ∃ es', es ⊆ es' ∧ (∀ e ∈ os.filterMap id, e ∈ es') ∧
      c.Fills q (((calls.map Prod.fst).map Step.name).reverse ++ given) ls' es' := by
  induction calls generalizing given ls es os with
  | nil =>
    obtain ⟨rfl, rfl⟩ := Prod.mk.inj (Traced.run_pure_ok.mp hrun)
    exact ⟨es, List.Subset.refl _, by simp, h⟩
  | cons call calls ih =>
    obtain ⟨step, j⟩ := call
    simp only [List.mapM_cons, Traced.run_bind_ok, Traced.run_pure_ok] at hrun
    obtain ⟨o, ls₁, hrun₁, rest, ls₂, hrun₂, heq⟩ := hrun
    obtain ⟨rfl, rfl⟩ := Prod.mk.inj heq
    rw [List.map_cons, List.map_cons, List.nodup_cons] at hdistinct
    obtain ⟨⟨hstep, b, hb⟩, hsteps⟩ := List.forall_mem_cons.mp hsteps
    obtain ⟨hnew, hnew'⟩ := List.forall_mem_cons.mp hnew
    obtain ⟨e, es₁, rfl, hes₁, h, hnames⟩ :=
      fills_aggregationCall hc hv hn hvalues hcarried h hstep hb hnew hrun₁
    have hnew₁ : ∀ p ∈ calls, p.1.name ∉ ls₁.map Prod.fst := by
      intro p hp hx
      obtain hx | hx := hnames _ hx
      · exact hnew' p hp hx
      obtain hx | hx := List.mem_cons.mp hx
      · exact hdistinct.1 (hx ▸ List.mem_map_of_mem (List.mem_map_of_mem hp))
      · obtain ⟨hp, b, hb⟩ := hsteps p hp
        exact not_mem_emitted hn hp hb hx
    obtain ⟨es₂, hes₂, hrest, h⟩ := ih h hsteps hdistinct.2 hnew₁ hrun₂
    refine ⟨es₂, fun e' he' => hes₂ (List.mem_cons_of_mem _ (hes₁ he')), fun e' he' => ?_, ?_⟩
    · rw [List.filterMap_cons_some (f := id) rfl] at he'
      obtain rfl | he' := List.mem_cons.mp he'
      · exact hes₂ List.mem_cons_self
      · exact hrest e' he'
    · simpa using h

end Aggregations

def aggregationSlot (view : View) (param : Expr) : Slice :=
  view.withCarried (param.field 0)
    { view, mode := .placed, stage := .aggregation, slot := DistributeAggregate.slots.aggregation }

theorem ofRound_named {round : Expr} {template : Template}
    (h : (View.ofRound round template).result = .ok view) (hround : round.isClosed = true) :
    view.Ordered ∧ (view.steps.map Step.name).Nodup := by
  obtain ⟨body, p, t, -, -, hcollected⟩ := View.ofRound_collected h
  exact ⟨View.ofRound_ordered h fun step _ hx => isClosed_iff.mp hround _ (mem_free.mp hx),
    (List.nodup_cons.mp hcollected.distinct.nodup).2⟩

/-- The aggregations of a closed round, which are what its slot is given, stay in the slot, and the
slot's function is closed. -/
theorem aggregateAll_fills {round slotted : Expr} {template : Template} {t u resultTy : Ty}
    (h : (View.ofRound round template).result = .ok view) (hround : round.isClosed = true)
    (hrun : (view.aggregateAll q t u).result = .ok (slotted, resultTy)) :
    slotted.isClosed = true ∧ ∃ ls es result, slotted = closeOver q (.tuple [t, u]) result ls ∧
      (view.aggregationSlot (.ref q (.tuple [t, u]))).Fills q
        (view.aggregations.map Step.name).reverse ls es := by
  obtain ⟨hv, hn⟩ := ofRound_named h hround
  simp only [View.aggregateAll, Traced.bind_ok, Prod.exists, Traced.pure_ok, Prod.mk.injEq] at hrun
  obtain ⟨os, ls, hos, _, -, slotted, hfill, rfl, rfl⟩ := hrun
  obtain ⟨rfl, -⟩ := fillSlot_ok hfill
  have hover : (view.aggregationSlot (.ref q (.tuple [t, u]))).Over q :=
    over_withCarried ⟨by simp, by simp, by simp⟩ staysIn_param.field
  have hview : (view.aggregationSlot (.ref q (.tuple [t, u]))).view = view := view_withCarried
  change ((view.aggregations.zipIdx.mapM fun p => view.aggregationCall
    (view.aggregationSlot (.ref q (.tuple [t, u]))) _ _ p.1 p.2).run []).result = _ at hos
  generalize view.aggregationSlot (.ref q (.tuple [t, u])) = c at hover hview hos ⊢
  rw [← hview] at hv hn
  have hcalls : view.aggregations.zipIdx.map Prod.fst = view.aggregations :=
    List.zipIdx_map_fst _ _
  have hsteps : ∀ p ∈ view.aggregations.zipIdx,
      p.1 ∈ c.view.steps ∧ ∃ b, p.1.boundary = some b := by
    intro p hp
    obtain ⟨hstep, hop⟩ := List.mem_filter.mp (hcalls ▸ List.mem_map_of_mem (f := Prod.fst) hp)
    obtain ⟨b, hb, -⟩ := Step.isAggregation_iff.mp hop
    exact ⟨hview ▸ hstep, b, hb⟩
  have hdistinct : ((view.aggregations.zipIdx.map Prod.fst).map Step.name).Nodup := by
    rw [hcalls, ← hview]
    exact hn.sublist (List.filter_sublist.map _)
  obtain ⟨es, -, hes, hfills⟩ := fills_aggregationCalls hover hv hn staysIn_param.field
    staysIn_param.field fills_nil hsteps hdistinct (by simp) hos
  obtain ⟨hlinked, hstays⟩ := hfills.linked_all hover hv hn
  refine ⟨hlinked.isClosed_closeOver ?_, ls, es, _, rfl, ?_⟩
  · exact staysIn_mkTuple fun e he => hstays e (hes e he)
  · rwa [hcalls, List.append_nil] at hfills

end View

/-- Whatever a slot of a closed round is asked for and given, its locals have different names, and
all that it answers refers to nothing but its parameter and these locals. So do the locals that
slicing made, each to those before it. If the locals that it was given do too, all locals do, and a
function of the slot's parameter over them is closed. -/
theorem slot_closed {round : Expr} {template : Template} {c : Slice} {q : String}
    {given : List String} {ls : List (String × Expr)} {es : List Expr}
    (h : (View.ofRound round template).result = .ok c.view) (hround : round.isClosed = true)
    (hc : c.Over q) (hanswers : c.Answers given ls es) :
    (ls.map Prod.fst).Nodup ∧ (∀ e ∈ es, e.StaysIn q ls) ∧ Slice.Linked q (· ∉ given) ls ∧
    (Slice.Linked q (· ∈ given) ls → Slice.Linked q (fun _ => True) ls ∧
      ∀ result t, result.StaysIn q ls → (closeOver q t result ls).isClosed = true) := by
  obtain ⟨hv, hn⟩ := View.ofRound_named h hround
  obtain ⟨hnodup, hlinked, hes⟩ := hc.answers hv hn hanswers
  refine ⟨hnodup, hes, hlinked, fun hgiven => ?_⟩
  have hall := (Slice.Fills.linked_all ⟨hanswers, hgiven⟩ hc hv hn).1
  exact ⟨hall, fun result t hresult => hall.isClosed_closeOver hresult⟩

/-- A round that copies its state, pairs the copy with itself, sends it to the participants, and
pairs it there with their data. -/
def copiedTwice : Expr :=
  let inputs := Ty.tuple [.atCoordinator .int32, .atParticipants .int32]
  let call := fun uri a t => Expr.call (.intrinsic uri (.func (Expr.ty a) t)) a t
  let copy := Expr.ref "copy" (.atCoordinator .int32)
  let sent := Expr.ref "sent" (.place .int32 .participants true)
  .mkLambda "p" inputs (.mkBlock
    [("copy", call "federated_apply" (.mkTuple [.mkLambda "v" .int32 (.ref "v" .int32),
        .select (.ref "p" inputs) 0 (.atCoordinator .int32)]) (.atCoordinator .int32)),
      ("twice", call "federated_zip_at_server" (.mkTuple [copy, copy])
        (.atCoordinator (.tuple [.int32, .int32]))),
      ("sent", call "federated_broadcast" copy (.place .int32 .participants true)),
      ("joined", call "federated_zip_at_clients"
        (.mkTuple [sent, .select (.ref "p" inputs) 1 (.atParticipants .int32)])
        (.atParticipants (.tuple [.int32, .int32])))]
    (.ref "joined" (.atParticipants (.tuple [.int32, .int32]))))

/-- The slot has the round's parameter, and is given the broadcast. -/
def wholeSlot (view : View) (mode : Mode) : Slice :=
  let inputs := Ty.tuple [.atCoordinator .int32, .atParticipants .int32]
  { view, mode, stage := .work, slot := "client_work",
    state := some (.select (.ref "s" inputs) 0 (.atCoordinator .int32)),
    data := some (.select (.ref "s" inputs) 1 (.atParticipants .int32)) }

theorem over_wholeSlot {view : View} {mode : Mode} : (wholeSlot view mode).Over "s" := by
  refine ⟨?_, ?_, by simp [wholeSlot]⟩ <;> rintro e ⟨⟩ <;> decide

/-- The copy is asked for through `twice`, then used for the broadcast that the slot is given, on
which `joined` relies. -/
theorem slot_closed_copiedTwice : ∃ view ls e es,
    (View.ofRound copiedTwice .broadcast).result = .ok view ∧
    (wholeSlot view .placed).Answers ["sent"] ls (e :: es) ∧
    ls.map Prod.fst = ["copy", "twice", "sent", "joined"] ∧ e.StaysIn "s" ls ∧
    Slice.Linked "s" (· ∈ ["sent"]) ls ∧ Slice.Linked "s" (fun _ => True) ls ∧
    (closeOver "s" .int32 e ls).isClosed = true := by
  let sent := Ty.place .int32 .participants true
  let broadcast := Expr.call (.intrinsic "federated_broadcast" (.func (.atCoordinator .int32) sent))
    (.ref "copy" (.atCoordinator .int32)) sent
  obtain ⟨view, copy, twice, joined, e, es, hview, hanswers⟩ :
      ∃ view copy twice joined e es, (View.ofRound copiedTwice .broadcast).result = .ok view ∧
      (wholeSlot view .placed).Answers ["sent"]
        [("copy", copy), ("twice", twice), ("sent", broadcast), ("joined", joined)] (e :: es) :=
    ⟨_, _, _, _, _, _, rfl, .value (e := .ref "joined" .int32) (.bind (x := "sent") (e := broadcast)
      (.value (e := .ref "twice" .int32) .start rfl) (by decide) rfl) rfl⟩
  obtain ⟨-, hes, -, hall⟩ := slot_closed hview rfl over_wholeSlot hanswers
  have hsent : broadcast.StaysIn "s" [("copy", copy), ("twice", twice)] := by
    intro z hz
    obtain rfl : z = "copy" := by simpa [broadcast, mem_free] using hz
    simp
  have hgiven : Slice.Linked "s" (· ∈ ["sent"])
      [("copy", copy), ("twice", twice), ("sent", broadcast), ("joined", joined)] := by
    intro pre x e post heq hx
    obtain rfl := List.mem_singleton.mp hx
    obtain _ | ⟨_, _ | ⟨_, _ | ⟨_, _ | ⟨_, _⟩⟩⟩⟩ := pre <;> simp at heq
    obtain ⟨rfl, rfl, rfl, -⟩ := heq
    exact hsent
  obtain ⟨hlinked, hclosed⟩ := hall hgiven
  exact ⟨view, _, e, es, hview, hanswers, rfl, hes e (by simp), hgiven, hlinked,
    hclosed e .int32 (hes e (by simp))⟩

/-- A local that a slot is given may refer to anything, and then nothing closes the slot. -/
theorem slot_open : ∃ view, (View.ofRound copiedTwice .broadcast).result = .ok view ∧
    copiedTwice.isClosed = true ∧ (wholeSlot view .placed).Over "s" ∧
    (wholeSlot view .placed).Answers ["y"] [("y", .ref "z" .int32)] [.ref "y" .int32] ∧
    ¬ Slice.Linked "s" (fun _ => True) [("y", .ref "z" .int32)] ∧
    (closeOver "s" .int32 (.ref "y" .int32) [("y", .ref "z" .int32)]).isClosed = false := by
  refine ⟨_, rfl, rfl, over_wholeSlot, .bind (e := .ref "z" .int32) .start (by simp) rfl,
    fun hlinked => ?_, by decide⟩
  have hz : (Expr.ref "z" .int32).StaysIn "s" [] := hlinked [] "y" _ [] rfl trivial
  exact absurd hz (by decide)

end Round

end TwoTier

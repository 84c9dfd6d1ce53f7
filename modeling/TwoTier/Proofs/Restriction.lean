import TwoTier.Proofs.Forms
import TwoTier.Proofs.Replacement
import TwoTier.Proofs.Scope
import TwoTier.Proofs.Synthesis.Total

/-! # Crossings that depend on a parameter

In the two functions of a five-function form that cross between tiers, the arguments of every
crossing refer to the parameter by name, and to nothing else. If the name is not bound again, then
whatever a crossing is called on during a run is computed from the value of the parameter. Without
crossings among the arguments, no crossing has a part in it.
-/

namespace TwoTier

def Expr.rebinds (x : String) : Expr → Bool
  | .lambda y _ _ => y == some x
  | .block ls _ _ => ls.any fun l => l.1 == x
  | _ => false

/-- A name with its type and its value, and the calls of intrinsics that expressions may have: all
are crossings. -/
structure Frame where
  name : String
  type : Ty
  value : Value
  Calls : Expr → Prop
  crossing : ∀ {uri u a t}, Calls (.call (.intrinsic uri u) a t) →
    ∃ op, Intrinsic.ofUri? uri = some (.crossing op)

namespace Frame

variable {k : Frame} {s : Setting} {e e' f a r : Expr} {t u : Ty} {env : Env}

/-- The expression is typed, does not bind the name again and calls intrinsics as it may. -/
structure Fits (k : Frame) (e : Expr) : Prop where
  typed : ∃ Γ, Γ.lookup k.name = some k.type ∧ e.Typed Γ
  keeps : ∀ e' ∈ e.subterms, e'.rebinds k.name = false
  calls : ∀ uri u a t, .call (.intrinsic uri u) a t ∈ e.subterms →
    k.Calls (.call (.intrinsic uri u) a t)

namespace Fits

theorem child {Γ : List (String × Ty)} (h : k.Fits e) (hΓ : Γ.lookup k.name = some k.type)
    (ht : e'.Typed Γ) (hc : e' ∈ e.children) : k.Fits e' := by
  have hsub : ∀ c ∈ e'.subterms, c ∈ e.subterms :=
    fun c hmem => Expr.mem_subterms.mpr (.inr ⟨e', hc, hmem⟩)
  exact ⟨⟨Γ, hΓ, ht⟩, fun c hmem => h.keeps c (hsub c hmem),
    fun uri u a t hmem => h.calls uri u a t (hsub _ hmem)⟩

theorem element {es : List Expr} (h : k.Fits (.tuple es t)) : ∀ e ∈ es, k.Fits e := by
  obtain ⟨Γ, hΓ, ht⟩ := h.typed
  exact fun e he => h.child hΓ ((Expr.typed_tuple.mp ht).1 e he) he

theorem source {i : Nat} (h : k.Fits (.select e i t)) : k.Fits e := by
  obtain ⟨Γ, hΓ, ht⟩ := h.typed
  exact h.child hΓ (Expr.typed_select.mp ht).1 (by simp [Expr.children])

theorem thunk (h : k.Fits (.force f t)) : k.Fits f := by
  obtain ⟨Γ, hΓ, ht⟩ := h.typed
  exact h.child hΓ (Expr.typed_force.mp ht).1 (by simp [Expr.children])

theorem argument (h : k.Fits (.call f a t)) : k.Fits a := by
  obtain ⟨Γ, hΓ, ht⟩ := h.typed
  exact h.child hΓ (Expr.typed_call.mp ht).1 (by simp [Expr.children])

theorem function (h : k.Fits (.call f a t)) :
    k.Fits f ∨ ∃ uri u, f = .intrinsic uri u ∧ k.Calls (.call f a t) := by
  obtain ⟨Γ, hΓ, ht⟩ := h.typed
  have hcall : ∀ uri u, f = .intrinsic uri u → ∃ uri u, f = .intrinsic uri u ∧
      k.Calls (.call f a t) := by
    rintro uri u rfl
    exact ⟨uri, u, rfl, h.calls uri u a t (Expr.mem_subterms_self _)⟩
  cases (Expr.typed_call.mp ht).2 with
  | intrinsic hf => exact .inr (hcall _ _ hf)
  | unknown hf => exact .inr (hcall _ _ hf)
  | function hf => exact .inl (h.child hΓ hf (by simp [Expr.children]))

theorem body {y : Option String} (h : k.Fits (.lambda y e t)) : y ≠ some k.name ∧ k.Fits e := by
  obtain ⟨Γ, hΓ, ht⟩ := h.typed
  have hy : y ≠ some k.name := by simpa [Expr.rebinds] using h.keeps _ (Expr.mem_subterms_self _)
  refine ⟨hy, ?_⟩
  cases y with
  | none => exact h.child hΓ (Expr.typed_delay.mp ht).1 (by simp [Expr.children])
  | some y =>
    obtain ⟨p, he, -⟩ := Expr.typed_lambda.mp ht
    refine h.child ?_ he (by simp [Expr.children])
    rwa [Expr.lookup_cons_of_ne fun heq => hy (congrArg some heq.symm)]

theorem result (h : k.Fits (.block [] r t)) : k.Fits r := by
  obtain ⟨Γ, hΓ, ht⟩ := h.typed
  exact h.child hΓ (Expr.typed_block_nil.mp ht).1 (by simp [Expr.children])

theorem locals {y : String} {ls : List (String × Expr)} (h : k.Fits (.block ((y, e) :: ls) r t)) :
    k.Fits e ∧ y ≠ k.name ∧ k.Fits (.block ls r t) := by
  obtain ⟨Γ, hΓ, ht⟩ := h.typed
  obtain ⟨he, hrest⟩ := Expr.typed_block_cons.mp ht
  have hself := h.keeps _ (Expr.mem_subterms_self _)
  simp only [Expr.rebinds, List.any_cons, Bool.or_eq_false_iff, beq_eq_false_iff_ne] at hself
  -- What is left of the block is not a part of it, but its own parts are.
  have hsub : ∀ c ∈ (Expr.block ls r t).children, c ∈ (Expr.block ((y, e) :: ls) r t).children :=
    fun c hc => List.mem_cons_of_mem _ hc
  refine ⟨h.child hΓ he (by simp [Expr.children]), hself.1, ⟨_, ?_, hrest⟩, fun c hc => ?_,
    fun uri u a t hc => ?_⟩
  · rwa [Expr.lookup_cons_of_ne hself.1.symm]
  · rcases Expr.mem_subterms.mp hc with rfl | ⟨d, hd, hc⟩
    · exact hself.2
    · exact h.keeps c (Expr.mem_subterms.mpr (.inr ⟨d, hsub d hd, hc⟩))
  · rcases Expr.mem_subterms.mp hc with heq | ⟨d, hd, hc⟩
    · cases heq
    · exact h.calls uri u a t (Expr.mem_subterms.mpr (.inr ⟨d, hsub d hd, hc⟩))

end Fits

/-- Functions in the value fit, and they find the name at its value. -/
inductive Holds (k : Frame) : Value → Prop where
  | int (n : Int) : Holds k (.int n)
  | float (x : Float) : Holds k (.float x)
  | bool (b : Bool) : Holds k (.bool b)
  | tuple {vs : List Value} (h : ∀ v ∈ vs, Holds k v) : Holds k (.tuple vs)
  | seq {vs : List Value} (h : ∀ v ∈ vs, Holds k v) : Holds k (.seq vs)
  | closure {y : Option String} {body : Expr} {env : Env} (hy : y ≠ some k.name)
      (hbody : k.Fits body) (hname : env.lookup k.name = some k.value)
      (henv : ∀ b ∈ env, Holds k b.2) : Holds k (.closure y body env)
  | builtin (op : Builtin) (t : Ty) : Holds k (.builtin op t)
  | atServer {v : Value} (h : Holds k v) : Holds k (.atServer v)
  | atClients {vs : List Value} (h : ∀ v ∈ vs, Holds k v) : Holds k (.atClients vs)

theorem holds_of_isData {v : Value} (h : v.isData = true) : k.Holds v := by
  induction v with
  | int n => exact .int n
  | float x => exact .float x
  | bool b => exact .bool b
  | tuple vs ih => exact .tuple fun v hv => ih v hv (Value.allData_iff.mp h v hv)
  | seq vs ih => exact .seq fun v hv => ih v hv (Value.allData_iff.mp h v hv)
  | atServer v ih => exact .atServer (ih h)
  | atClients vs ih => exact .atClients fun v hv => ih v hv (Value.allData_iff.mp h v hv)
  | closure | builtin | intrinsic => cases h

structure Knows (k : Frame) (env : Env) : Prop where
  name : env.lookup k.name = some k.value
  holds : ∀ b ∈ env, k.Holds b.2

theorem Knows.bind {y : String} {v : Value} (h : k.Knows env) (hy : y ≠ k.name) (hv : k.Holds v) :
    k.Knows ((y, v) :: env) :=
  ⟨(Expr.lookup_cons_of_ne hy.symm).trans h.name, List.forall_mem_cons.mpr ⟨hv, h.holds⟩⟩

theorem Knows.enter {y : Option String} {a : Option Value} (h : k.Knows env) (hy : y ≠ some k.name)
    (ha : ∀ v ∈ a, k.Holds v) : k.Knows (Env.enter y a env) := by
  cases y with
  | none => exact h
  | some y =>
    cases a with
    | none => exact h
    | some v => exact h.bind (fun heq => hy (congrArg some heq)) (ha v rfl)

/-- The value of an argument that an expression calls the intrinsic on. -/
def Source (k : Frame) (s : Setting) (op : Intrinsic) (t : Ty) (v : Value) : Prop :=
  ∃ uri a u env, Intrinsic.ofUri? uri = some op ∧ k.Fits (.call (.intrinsic uri t) a u) ∧
    k.Knows env ∧ Runs s (.expr env a) v

/-- All functions of the task fit, and intrinsics are called on arguments of calls that there may
be. -/
def Admits (k : Frame) (s : Setting) : Task → Prop
  | .expr env e => k.Knows env ∧ k.Fits e
  | .call f a =>
    (∀ v ∈ a, k.Holds v) ∧ (k.Holds f ∨ ∃ op t v, f = .intrinsic (.crossing op) t ∧ a = some v ∧
      k.Source s (.crossing op) t v)
  | .fold f total vs => k.Holds f ∧ k.Holds total ∧ ∀ v ∈ vs, k.Holds v

theorem Fits.admits {g b : Value} (h : k.Fits (.call f a t)) (henv : k.Knows env)
    (hg : Runs s (.expr env f) g) (hb : Runs s (.expr env a) b) (hholds : k.Fits f → k.Holds g)
    (hb' : k.Holds b) :
    k.Admits s (.call g (some b)) := by
  refine ⟨by simpa using hb', ?_⟩
  rcases h.function with hf | ⟨uri, u, rfl, hcall⟩
  · exact .inl (hholds hf)
  · obtain ⟨op, hop⟩ := k.crossing hcall
    obtain ⟨op', hop', rfl⟩ := runs_intrinsic.mp hg
    cases hop.symm.trans hop'
    exact .inr ⟨op, u, b, rfl, rfl, uri, a, t, env, hop, h, henv, hb⟩

theorem Admits.body {y : Option String} {b : Option Value}
    (h : k.Admits s (.call (.closure y e env) b)) :
    k.Admits s (.expr (Env.enter y b env) e) := by
  obtain ⟨hb, hf | ⟨_, _, _, hf, -⟩⟩ := h
  · cases hf with
    | closure hy hbody hname henv => exact ⟨Knows.enter ⟨hname, henv⟩ hy hb, hbody⟩
  · cases hf

theorem not_admits_within {op : LocalOp} {b : Option Value} :
    ¬ k.Admits s (.call (.intrinsic (.within op) t) b) := by
  rintro ⟨-, hf | ⟨_, _, _, hf, -⟩⟩ <;> cases hf

theorem holds_secureSum {op : Crossing} (ho : op.secureChannel?.isSome = true) {b v : Value}
    (h : Runs s (.call (.intrinsic (.crossing op) t) (some b)) v) : k.Holds v := by
  obtain ⟨us, p, m, total, -, -, htotal, rfl⟩ := (runs_secureSum ho).mp h
  have hdata :=
    (alike_secureSum (s := s) ho htotal (List.forall₂_same.mpr fun _ _ => .same) .same).2
  exact .atServer (holds_of_isData hdata)

theorem holds_groups {n : Nat} {vs : List Value} (h : ∀ v ∈ vs, k.Holds v) :
    ∀ us ∈ Eval.groups n vs, ∀ u ∈ us, k.Holds u := by
  have hgroups := forall₂_groupsFrom (R := fun _ v => k.Holds v) (List.forall₂_same.mpr h) n 0
  exact fun us hus => List.forall₂_same.mp (List.forall₂_same.mp hgroups us hus)

theorem Admits.aggregate {vs : List Value} {zero accumulate merge report : Value}
    (h : k.Admits s (.call (.intrinsic (.crossing .aggregate) t)
      (some (.tuple [.atClients vs, zero, accumulate, merge, report])))) :
    (∀ v ∈ vs, k.Holds v) ∧ k.Holds zero ∧ k.Holds accumulate ∧ k.Holds merge ∧ k.Holds report := by
  cases h.1 _ rfl with
  | tuple h =>
    simp only [List.forall_mem_cons, List.not_mem_nil, false_implies, implies_true, and_true] at h
    obtain ⟨hvs, h⟩ := h
    cases hvs with
    | atClients hvs => exact ⟨hvs, h⟩

theorem Admits.merge {vs parts : List Value} {zero accumulate merge report : Value}
    (h : k.Admits s (.call (.intrinsic (.crossing .aggregate) t)
      (some (.tuple [.atClients vs, zero, accumulate, merge, report]))))
      (hparts : ∀ part ∈ parts, k.Holds part) :
    k.Admits s (.fold merge (parts.headD zero) parts.tail) := by
  obtain ⟨-, hzero, -, hmerge, -⟩ := h.aggregate
  refine ⟨hmerge, ?_, fun v hv => hparts v (List.mem_of_mem_tail hv)⟩
  cases parts with
  | nil => exact hzero
  | cons part parts => exact hparts part List.mem_cons_self

theorem Admits.combine {f total v : Value} {vs : List Value}
    (h : k.Admits s (.fold f total (v :: vs))) :
    k.Admits s (.call f (some (.tuple [total, v]))) := by
  obtain ⟨hf, htotal, hvs⟩ := h
  refine ⟨?_, .inl hf⟩
  rintro _ ⟨⟩
  exact .tuple (by simpa using ⟨htotal, hvs v List.mem_cons_self⟩)

/-- A run under the frame has a value that holds. -/
theorem Admits.holds {task : Task} {v : Value} (h : Runs s task v) (hk : k.Admits s task) :
    k.Holds v := by
  -- By induction on the run. Only lambdas make functions, and crossings make data or hand on what
  -- they are given.
  induction h with
  | @ref env x t v hx =>
    obtain ⟨_, _, rfl, -⟩ := List.lookup_eq_some_iff.mp hx
    exact hk.1.holds (x, v) (by simp)
  | @lit _ a =>
    cases a with
    | int n => exact .int n
    | float x => exact .float x
    | bool b => exact .bool b
  | tuple hl _ ih =>
    exact .tuple
      (forall_of_zip hl fun p hp => ih p hp ⟨hk.1, hk.2.element _ (List.of_mem_zip hp).1⟩)
  | select _ hi ih =>
    cases ih ⟨hk.1, hk.2.source⟩ with
    | tuple h => exact h _ (List.mem_of_getElem? hi)
  | call hf ha _ ihf iha ihv =>
    exact ihv (hk.2.admits hk.1 hf ha (fun h => ihf ⟨hk.1, h⟩) (iha ⟨hk.1, hk.2.argument⟩))
  | force _ _ ihf ihv => exact ihv ⟨by simp, .inl (ihf ⟨hk.1, hk.2.thunk⟩)⟩
  | lambda => exact .closure hk.2.body.1 hk.2.body.2 hk.1.name hk.1.holds
  | blockNil _ ih => exact ih ⟨hk.1, hk.2.result⟩
  | blockCons _ _ ihe ihr =>
    obtain ⟨he, hy, hr⟩ := hk.2.locals
    exact ihr ⟨hk.1.bind hy (ihe ⟨hk.1, he⟩), hr⟩
  | intrinsic =>
    obtain ⟨Γ, -, ht⟩ := hk.2.typed
    exact absurd ht Expr.typed_intrinsic
  | builtin => exact .builtin _ _
  | closure _ ih => exact ih hk.body
  | arithmetic hv => exact holds_of_isData (Value.isData_applyBuiltin hv)
  | @plain op t a v hp hv =>
    rcases hk with ⟨ha, hf | ⟨op, t', b, hf, rfl, -⟩⟩
    · cases hf
    · cases hf
      have hrun : Runs s (.call (.intrinsic (.crossing op) t) (some b)) v := .plain hp hv
      cases op with
      | broadcast =>
        obtain ⟨u, rfl, rfl⟩ := runs_broadcast.mp hrun
        cases ha _ rfl with
        | atServer hu => exact .atClients fun w hw => (List.eq_of_mem_replicate hw) ▸ hu
      | aggregate => simp [Intrinsic.isPlain] at hp
      | bitwidthSum | boundedSum | modularSum => exact holds_secureSum rfl hrun
  | mapClients | mapServer => exact absurd hk not_admits_within
  | aggregate hl _ _ _ ihparts ihtotal ihr =>
    obtain ⟨hvs, hzero, haccumulate, -, hreport⟩ := hk.aggregate
    have hparts := forall_of_zip hl fun p hp =>
      ihparts p hp ⟨haccumulate, hzero, holds_groups hvs _ (List.of_mem_zip hp).1⟩
    exact .atServer (ihr ⟨by simpa using ihtotal (hk.merge hparts), .inl hreport⟩)
  | foldNil => exact hk.2.1
  | foldCons _ _ ihu ihr =>
    exact ihr ⟨hk.1, ihu hk.combine, fun v hv => hk.2.2 v (List.mem_cons_of_mem _ hv)⟩

theorem Admits.merge_of_runs {vs parts : List Value} {zero accumulate merge report : Value}
    (h : k.Admits s (.call (.intrinsic (.crossing .aggregate) t)
      (some (.tuple [.atClients vs, zero, accumulate, merge, report]))))
    (hparts : List.Forall₂ (fun us part => Runs s (.fold accumulate zero us) part)
      (Eval.groups s.groupSize vs) parts) :
    k.Admits s (.fold merge (parts.headD zero) parts.tail) := by
  obtain ⟨hvs, hzero, haccumulate, -⟩ := h.aggregate
  refine h.merge fun part hpart => ?_
  obtain ⟨us, hus, hrun⟩ := forall₂_mem hparts.flip hpart
  exact holds hrun ⟨haccumulate, hzero, holds_groups hvs us hus⟩

/-- What a task under the frame comes to next is under the frame, or evaluates to an intrinsic that
is called. -/
theorem Admits.visits {task task' : Task} (hk : k.Admits s task) (h : Visits s task task') :
    k.Admits s task' ∨ ∃ env uri u, task' = .expr env (.intrinsic uri u) := by
  cases h with
  | element he => exact .inl ⟨hk.1, hk.2.element _ he⟩
  | source => exact .inl ⟨hk.1, hk.2.source⟩
  | function =>
    rcases hk.2.function with hf | ⟨uri, u, rfl, -⟩
    · exact .inl ⟨hk.1, hf⟩
    · exact .inr ⟨_, uri, u, rfl⟩
  | argument => exact .inl ⟨hk.1, hk.2.argument⟩
  | call hg hb =>
    exact .inl
      (hk.2.admits hk.1 hg hb (fun hf => holds hg ⟨hk.1, hf⟩) (holds hb ⟨hk.1, hk.2.argument⟩))
  | thunk => exact .inl ⟨hk.1, hk.2.thunk⟩
  | force hg => exact .inl ⟨by simp, .inl (holds hg ⟨hk.1, hk.2.thunk⟩)⟩
  | result => exact .inl ⟨hk.1, hk.2.result⟩
  | bound => exact .inl ⟨hk.1, hk.2.locals.1⟩
  | rest hu =>
    obtain ⟨he, hy, hr⟩ := hk.2.locals
    exact .inl ⟨hk.1.bind hy (holds hu ⟨hk.1, he⟩), hr⟩
  | body => exact .inl hk.body
  | participant | coordinator => exact absurd hk not_admits_within
  | accumulate hus =>
    obtain ⟨hvs, hzero, haccumulate, -⟩ := hk.aggregate
    exact .inl ⟨haccumulate, hzero, holds_groups hvs _ hus⟩
  | merge hparts => exact .inl (hk.merge_of_runs hparts)
  | report htotal =>
    obtain ⟨parts, hparts, htotal⟩ := htotal
    obtain ⟨-, -, -, -, hreport⟩ := hk.aggregate
    exact .inl ⟨by simpa using holds htotal (hk.merge_of_runs hparts), .inl hreport⟩
  | combine => exact .inl hk.combine
  | items hu =>
    exact .inl ⟨hk.1, holds hu hk.combine, fun v hv => hk.2.2 v (List.mem_cons_of_mem _ hv)⟩

/-- All that a task under the frame comes to is under the frame, or evaluates to an intrinsic that
is called. -/
theorem Admits.run {task task' : Task} (hk : k.Admits s task)
    (h : Relation.ReflTransGen (Visits s) task task') :
    k.Admits s task' ∨ ∃ env uri u, task' = .expr env (.intrinsic uri u) := by
  induction h with
  | refl => exact .inl hk
  | tail _ hvisit ih =>
    rcases ih with hk' | ⟨env, uri, u, rfl⟩
    · exact hk'.visits hvisit
    · cases hvisit

theorem Admits.source {task : Task} {op : Intrinsic} {b : Option Value} (hk : k.Admits s task)
    (h : Relation.ReflTransGen (Visits s) task (.call (.intrinsic op t) b)) :
    ∃ v, b = some v ∧ k.Source s op t v := by
  rcases hk.run h with ⟨-, hf | ⟨op, t, v, hf, rfl, hsource⟩⟩ | ⟨_, _, _, hexpr⟩
  · cases hf
  · cases hf
    exact ⟨v, rfl, hsource⟩
  · cases hexpr

theorem Fits.similar {v : Value} (h : k.Fits e) (hrefers : ∀ z, e.Refers z → z = k.name)
    (henv : k.Knows env) (hvalue : Inhabits s k.type k.value) (hv : Runs s (.expr env e) v) :
    ∃ w, Runs s (.expr [(k.name, k.value)] e) w ∧ Similar s e.ty v w := by
  obtain ⟨Γ, hΓ, ht⟩ := h.typed
  refine ht.mimics ?_ v hv
  intro z u hz hu
  obtain rfl := hrefers z hz
  obtain rfl := Option.some.inj (henv.name.symm.trans hu)
  exact ⟨k.type, k.value, hΓ, by simp, hvalue⟩

theorem knows_self (h : k.value.isData = true) : k.Knows [(k.name, k.value)] :=
  ⟨by simp, List.forall_mem_singleton.mpr (holds_of_isData h)⟩

def quiet (k : Frame) : Frame :=
  { k with Calls := fun _ => False, crossing := False.elim }

theorem Fits.not_visits {op : Intrinsic} {b : Option Value} (h : k.Fits e)
    (hquiet : ∀ uri u, .intrinsic uri u ∉ e.subterms) (hdata : k.value.isData = true) :
    ¬ Relation.ReflTransGen (Visits s) (.expr [(k.name, k.value)] e)
    (.call (.intrinsic op t) b) := by
  intro hvisits
  have hfits : k.quiet.Fits e := ⟨h.typed, h.keeps, fun uri u _ _ hc =>
    hquiet uri u (Expr.mem_subterms_of_mem_children hc (by simp [Expr.children]))⟩
  have hadmits : k.quiet.Admits s (.expr [(k.name, k.value)] e) := ⟨k.quiet.knows_self hdata, hfits⟩
  obtain ⟨_, -, _, _, _, _, -, hcall, -⟩ := hadmits.source hvisits
  exact hcall.calls _ _ _ _ (Expr.mem_subterms_self _)

end Frame

namespace Expr

variable {permitted : Crossing → Bool} {x : String} {e body a : Expr}

/-- All intrinsics are crossings that are permitted, and whatever crossings are called on refers to
`x` only. -/
structure Restricted (permitted : Crossing → Bool) (x : String) (e : Expr) : Prop where
  permitted : ∀ uri t, .intrinsic uri t ∈ e.subterms →
    ∃ op, Intrinsic.ofUri? uri = some (.crossing op) ∧ permitted op = true
  arguments : ∀ c ∈ e.subterms, ∀ call, c.boundary? = .ok (some call) →
    ∀ a ∈ call.args, ∀ z, a.Refers z → z = x

theorem parameter?_some {p : Ty} (h : e.parameter? = some (x, p)) :
    ∃ body r, e = .lambda (some x) body (.func p r) := by
  unfold parameter? at h
  split at h <;> cases h
  exact ⟨_, _, rfl⟩

theorem refers_unpack {z : String} (hne : a.ty ≠ .tuple []) (hz : a.Refers z) :
    ∃ c ∈ a.unpack, c.Refers z := by
  unfold unpack
  split
  · exact refers_tuple.mp hz
  · split
    · rename_i ts hts
      cases ts with
      | nil => exact absurd hts hne
      | cons u us => exact ⟨a.field 0, List.mem_map.mpr ⟨0, by simp, rfl⟩, refers_select.mpr hz⟩
    · exact ⟨a, by simp, hz⟩

theorem Restricted.argument {Γ : List (String × Ty)} {uri : String} {u t : Ty} {z : String}
    (h : e.Restricted permitted x) (hc : .call (.intrinsic uri u) a t ∈ e.subterms)
    (ht : Typed Γ (.call (.intrinsic uri u) a t)) (hz : a.Refers z) : z = x := by
  obtain ⟨op, hop, -⟩ := h.permitted uri u (mem_subterms_of_mem_children hc (by simp [children]))
  -- A crossing takes no argument of type `<>`, which would have no parts at all.
  have hne : a.ty ≠ .tuple [] := by
    cases (typed_call.mp ht).2 with
    | intrinsic hf hop' hr =>
      cases hf
      cases hop.symm.trans hop'
      intro hty
      rw [hty] at hr
      cases op <;> simp [Intrinsic.resultType, Intrinsic.broadcastResult, Intrinsic.aggregateResult,
        Intrinsic.secureSumResult, Ty.memberAt?] at hr
    | unknown hf hop' =>
      cases hf
      cases hop.symm.trans hop'
    | function hf => exact absurd hf typed_intrinsic
  obtain ⟨c, hc', hz⟩ := refers_unpack hne hz
  exact h.arguments _ hc ⟨op, a.unpack, t⟩ (by simp [boundary?, crossingCall?, hop]) c hc' z hz

/-- The name of the parameter at some value, and the calls of crossings in the body. -/
def Restricted.frame (h : body.Restricted permitted x) (p : Ty) (v : Value) : Frame where
  name := x
  type := p
  value := v
  Calls c := c ∈ body.subterms
  crossing := by
    intro uri u a t hc
    obtain ⟨op, hop, -⟩ := h.permitted uri u (mem_subterms_of_mem_children hc (by simp [children]))
    exact ⟨op, hop⟩

/-- While a restricted function runs that does not bind its parameter again, intrinsics are called
on what the argument of a call in the function comes to, and this is determined by the value of the
parameter. -/
theorem Restricted.source {s : Setting} {p t : Ty} {v : Value} {op : Intrinsic} {b : Option Value}
    (h : body.Restricted permitted x) (ht : body.Typed [(x, p)])
    (hkeeps : ∀ e ∈ body.subterms, e.rebinds x = false)
    (hv : Inhabits s p v) (hdata : v.isData = true)
    (hvisits : Relation.ReflTransGen (Visits s) (.expr [(x, v)] body) (.call (.intrinsic op t) b)) :
    ∃ w uri a u, b = some w ∧ Intrinsic.ofUri? uri = some op ∧ .call (.intrinsic uri t) a u ∈
    body.subterms ∧
      (∃ w', Runs s (.expr [(x, v)] a) w' ∧ Similar s a.ty w w') ∧
      ((∀ uri u, .intrinsic uri u ∉ a.subterms) → ∀ op t b,
        ¬ Relation.ReflTransGen (Visits s) (.expr [(x, v)] a) (.call (.intrinsic op t) b)) := by
  have hfits : (h.frame p v).Fits body :=
    ⟨⟨_, by simp [Restricted.frame], ht⟩, hkeeps, fun _ _ _ _ hc => hc⟩
  have hadmits : (h.frame p v).Admits s (.expr [(x, v)] body) := ⟨Frame.knows_self hdata, hfits⟩
  obtain ⟨w, hb, uri, a, u, env, hop, hcall, henv, hw⟩ := hadmits.source hvisits
  have hmem : .call (.intrinsic uri t) a u ∈ body.subterms :=
    hcall.calls _ _ _ _ (mem_subterms_self _)
  have hrefers : ∀ z, a.Refers z → z = x := by
    intro z hz
    obtain ⟨Γ, -, htcall⟩ := hcall.typed
    exact h.argument hmem htcall hz
  exact ⟨w, uri, a, u, hb, hop, hmem, hcall.argument.similar hrefers henv hv hw,
    fun hquiet _ _ _ => hcall.argument.not_visits hquiet hdata⟩

end Expr

namespace Form

theorem nodeViolation?_none {permitted : Crossing → Bool} {kind : Stage} {x : String} {e : Expr}
    (h : nodeViolation? permitted kind x e = none) : (∀ uri t, e = .intrinsic uri t →
    ∃ op, Intrinsic.ofUri? uri = some (.crossing op) ∧ permitted op = true) ∧
    ∀ call, e.boundary? = .ok (some call) → ∀ a ∈ call.args, ∀ z, a.Refers z → z = x := by
  simp only [nodeViolation?, Option.orElse_eq_orElse, Option.orElse_eq_or,
    Option.or_eq_none_iff] at h
  obtain ⟨hforeign, hdependent⟩ := h
  constructor
  · rintro uri t rfl
    simp only at hforeign
    split at hforeign
    · rename_i op hop
      exact ⟨op, hop, by simpa using hforeign⟩
    · cases hforeign
  · intro call hcall a ha z hz
    simp only [hcall, Option.map_eq_none_iff, List.find?_eq_none, List.mem_flatMap,
      forall_exists_index, and_imp] at hdependent
    simpa using hdependent z a ha (Expr.mem_free.mpr hz)

theorem restricted_ok {b : Block} {slot : String} {permitted : Crossing → Bool} {kind : Stage}
    (h : (restricted b slot permitted kind).result = .ok ()) : ∃ x body p r,
      b.payload = .lambda (some x) body (.func p r) ∧ body.Restricted permitted x := by
  unfold restricted at h
  split at h
  · exact absurd h violated_ok
  · rename_i x p hparam
    split at h
    · exact absurd h Traced.fail_ok
    · rename_i hnone
      obtain ⟨body, r, hpayload⟩ := Expr.parameter?_some hparam
      have hnodes : ∀ c ∈ body.subterms, nodeViolation? permitted kind x c = none := by
        intro c hc
        refine List.findSome?_eq_none_iff.mp hnone c ?_
        rw [hpayload]
        exact List.mem_cons_of_mem _ hc
      exact ⟨x, body, p, r, hpayload,
        fun uri t hc => (nodeViolation?_none (hnodes _ hc)).1 uri t rfl,
        fun c hc => (nodeViolation?_none (hnodes c hc)).2⟩

/-- In an accepted five-function form, the functions that cross between tiers use only crossings of
their kind, and these are called on arguments that refer to the parameter's name only. If the
function does not bind this name again and calls all the intrinsics it mentions, then whatever an
intrinsic is called on, while the function runs on `v`, is the value of the argument of some call in
the function where the parameter is `v` and there are no other variables; and if no intrinsic is
mentioned in the argument, then none is called for it. -/
theorem crossings_of_parameter {parts : DistributeAggregate Expr}
    {f : DistributeAggregate Block} {b : Block} {permitted : Crossing → Bool}
    (h : (ofDistributeAggregate parts).result = .ok f)
    (hb : (b, permitted) ∈
      [(f.broadcast, Crossing.isBroadcast), (f.aggregation, Crossing.isAggregation)]) :
    ∃ x body p r, b.payload = .lambda (some x) body (.func p r) ∧ body.Restricted permitted x ∧
      (body.intrinsicsCalled = true → (∀ e ∈ body.subterms, e.rebinds x = false) →
        ∀ s v, Inhabits s p v → v.isData = true → ∀ op t w,
          Relation.ReflTransGen (Visits s) (.expr [(x, v)] body) (.call (.intrinsic op t) w) →
          ∃ u uri a r, w = some u ∧ Intrinsic.ofUri? uri = some op ∧
          .call (.intrinsic uri t) a r ∈ body.subterms ∧
            (∃ u', Runs s (.expr [(x, v)] a) u' ∧ Similar s a.ty u u') ∧
            ((∀ uri t, .intrinsic uri t ∉ a.subterms) → ∀ op t w,
              ¬ Relation.ReflTransGen (Visits s) (.expr [(x, v)] a)
              (.call (.intrinsic op t) w))) := by
  obtain ⟨_, _, _, _, _, _, _, _, hchecked⟩ := ofDistributeAggregate_ok h
  obtain ⟨⟨x, body, p, r, hpayload, hrestricted⟩, hcheck⟩ :
      (∃ x body p r, b.payload = .lambda (some x) body (.func p r) ∧ body.Restricted permitted x) ∧
      b.payload.check = .ok () := by
    simp only [List.mem_cons, Prod.mk.injEq, List.not_mem_nil, or_false] at hb
    rcases hb with ⟨rfl, rfl⟩ | ⟨rfl, rfl⟩
    · exact ⟨restricted_ok hchecked.broadcastsOnly,
        hchecked.broadcast.payload ▸ hchecked.broadcast.check⟩
    · exact ⟨restricted_ok hchecked.aggregatesOnly,
        hchecked.aggregation.payload ▸ hchecked.aggregation.check⟩
  refine ⟨x, body, p, r, hpayload, hrestricted,
    fun hcalled hkeeps s v hv hdata op t w hvisits => ?_⟩
  have htyped : body.Typed [(x, p)] := by
    have hlambda : Expr.Typed [] (.lambda (some x) body (.func p r)) := ⟨hpayload ▸ hcheck, hcalled⟩
    obtain ⟨_, ht, hty⟩ := Expr.typed_lambda.mp hlambda
    cases hty
    exact ht
  exact hrestricted.source htyped hkeeps hv hdata hvisits

def contributions : Ty :=
  .tuple [.empty, .tuple [.atParticipants .int32]]

def contributed : Expr :=
  ((Expr.ref "a" contributions).field 1).field 0

def summed (values bound : Expr) : Expr :=
  let operands := Expr.mkTuple [values, bound]
  .call (.intrinsic "federated_secure_sum" (.func operands.ty (.atCoordinator .int32))) operands
    (.atCoordinator .int32)

/-- The parts of a form that aggregates the participants' data as `body` says. -/
def aggregating (body : Expr) : DistributeAggregate Expr :=
  { summing (.atCoordinator .int32) with aggregation := Expr.mkLambda "a" contributions body }

theorem crossings_of_parameter_summed :
    ∃ f, (ofDistributeAggregate (aggregating (.mkTuple [summed contributed (.int 100)]))).result =
    .ok f ∧ ∃ x body p r, f.aggregation.payload = .lambda (some x) body (.func p r) ∧
    body.intrinsicsCalled = true ∧
      (∀ e ∈ body.subterms, e.rebinds x = false) ∧ ∃ v t u, Inhabits ⟨2, 2⟩ p v ∧ v.isData = true ∧
        Relation.ReflTransGen (Visits ⟨2, 2⟩) (.expr [(x, v)] body)
        (.call (.intrinsic (.crossing .boundedSum) t) (some u)) ∧
        ∃ uri a r, .call (.intrinsic uri t) a r ∈ body.subterms ∧
          ∃ u', Runs ⟨2, 2⟩ (.expr [(x, v)] a) u' ∧ Similar ⟨2, 2⟩ a.ty u u' := by
  obtain ⟨f, hf⟩ :
      ∃ f, (ofDistributeAggregate (aggregating (.mkTuple [summed contributed (.int 100)]))).result =
      .ok f :=
    except_isOk (by decide +kernel)
  obtain ⟨_, _, _, _, _, _, _, _, hchecked⟩ := ofDistributeAggregate_ok hf
  obtain ⟨x, body, p, r, hpayload, -, hcrossings⟩ := crossings_of_parameter hf (b := f.aggregation)
    (List.mem_cons_of_mem _ List.mem_cons_self)
  refine ⟨f, hf, x, body, p, r, hpayload, ?_⟩
  cases hchecked.aggregation.payload.symm.trans hpayload
  have hcalled : (Expr.mkTuple [summed contributed (.int 100)]).intrinsicsCalled = true := rfl
  have hkeeps : ∀ e ∈ (Expr.mkTuple [summed contributed (.int 100)]).subterms,
      e.rebinds "a" = false := by
    decide
  have hv :
      Inhabits ⟨2, 2⟩ contributions (.tuple [.tuple [], .tuple [.atClients [.int 1, .int 2]]]) := by
    simp [Inhabits, contributions, Similar, SimilarEach, Ty.empty, Ty.atParticipants, Ty.place,
      Ty.int32, Value.isScalar]
  have hvisits : Relation.ReflTransGen (Visits ⟨2, 2⟩)
      (.expr [("a", .tuple [.tuple [], .tuple [.atClients [.int 1, .int 2]]])]
      (.mkTuple [summed contributed (.int 100)])) (.call (.intrinsic (.crossing .boundedSum)
      (.func (.tuple [.atParticipants .int32, .int32]) (.atCoordinator .int32)))
        (some (.tuple [.atClients [.int 1, .int 2], .int 100]))) := by
    refine .head (.element List.mem_cons_self) (.head (.call (.intrinsic rfl) ?_) .refl)
    exact @Task.runs_of_eval _ 9 (.expr _ _) _ rfl
  refine ⟨hcalled, hkeeps, _, _, _, hv, rfl, hvisits, ?_⟩
  obtain ⟨u, uri, a, r, hu, -, hmem, hdetermined, -⟩ :=
    hcrossings hcalled hkeeps _ _ hv rfl _ _ _ hvisits
  cases hu
  exact ⟨uri, a, r, hmem, hdetermined⟩

def nestedSums : Expr :=
  .mkTuple [summed contributed (summed contributed (.int 100))]

/-- Bind the parameter again, to a sum and the values, and sum up once more. -/
def reboundSums : Expr :=
  let both := Expr.mkTuple [summed contributed (.int 100), contributed]
  .mkBlock [("a", both)]
    (.mkTuple [summed ((Expr.ref "a" both.ty).field 1) ((Expr.ref "a" both.ty).field 0)])

/-- Names are compared whatever binds them, and arguments are not searched for crossings: a crossing
may take the result of another one as a part of its argument, or under the name of the parameter,
bound again. -/
theorem crossings_of_crossings :
    (∃ f, (ofDistributeAggregate (aggregating nestedSums)).result = .ok f ∧
      ∃ c ∈ f.aggregation.payload.subterms, ∃ call, c.boundary? = .ok (some call) ∧ ∃ a ∈ call.args,
        ∃ c' ∈ a.subterms, ∃ call', c'.boundary? = .ok (some call')) ∧
    ∃ f, (ofDistributeAggregate (aggregating reboundSums)).result = .ok f ∧
      ∃ x p e r t, f.aggregation.payload.parameter? = some (x, p) ∧
        .block [(x, e)] r t ∈ f.aggregation.payload.subterms ∧
        (∃ c ∈ e.subterms, ∃ call, c.boundary? = .ok (some call)) ∧
        ∃ c ∈ r.subterms, ∃ call, c.boundary? = .ok (some call) ∧ ∃ a ∈ call.args, a.Refers x := by
  have accepted : ∀ body, (ofDistributeAggregate (aggregating body)).result.isOk = true →
      ∃ f, (ofDistributeAggregate (aggregating body)).result = .ok f ∧
        f.aggregation.payload = Expr.mkLambda "a" contributions body := by
    intro body h
    obtain ⟨f, hf⟩ := except_isOk h
    obtain ⟨_, _, _, _, _, _, _, _, hchecked⟩ := ofDistributeAggregate_ok hf
    exact ⟨f, hf, hchecked.aggregation.payload⟩
  constructor
  · obtain ⟨f, hf, hpayload⟩ := accepted nestedSums (by decide +kernel)
    refine ⟨f, hf, summed contributed (summed contributed (.int 100)), ?_, _,
      rfl, summed contributed (.int 100), ?_, summed contributed (.int 100),
      Expr.mem_subterms_self _, _, rfl⟩
    · rw [hpayload]
      exact List.mem_of_getElem? (i := 2) rfl
    · exact List.mem_of_getElem? (i := 1) rfl
  · obtain ⟨f, hf, hpayload⟩ := accepted reboundSums (by decide +kernel)
    refine ⟨f, hf, "a", contributions, ?_⟩
    rw [hpayload]
    refine ⟨_, _, _, rfl, List.mem_of_getElem? (i := 1) rfl,
      ⟨_, List.mem_of_getElem? (i := 1) rfl, _, rfl⟩, _, List.mem_of_getElem? (i := 1) rfl, _, rfl,
      _, List.mem_of_getElem? (i := 0) rfl, ?_⟩
    simp [Expr.field]

end Form

end TwoTier

import TwoTier.Proofs.Forms
import TwoTier.Proofs.Locality

/-! # Blocks that do not see the participants

How many participants there are, and how they are grouped, is seen by intrinsics that cross tiers
and by the one that zips values of participants. A block of the coordinator or of no tier calls none
of them, so it gives the same outcome in every setting.
-/

namespace TwoTier

/-- It does the same whoever participates. -/
def Intrinsic.isSteady : Intrinsic → Bool
  | .crossing _ | .within .zipAtClients => false
  | .within _ => true

namespace Expr

variable {e e' : Expr}

def intrinsic? : Expr → Option Intrinsic
  | .intrinsic uri _ => Intrinsic.ofUri? uri
  | _ => none

/-- No part is an intrinsic that depends on the participants. -/
def Steady (e : Expr) : Prop :=
  ∀ e' ∈ e.subterms, ∀ op ∈ e'.intrinsic?, op.isSteady = true

theorem Steady.children (h : e.Steady) : ∀ c ∈ e.children, c.Steady :=
  fun c hc e' he' => h e' (mem_subterms.mpr (.inr ⟨c, hc, he'⟩))

def operands : Expr → List Expr
  | .call _ a _ => [a]
  | e => e.children

/-- Wherever the expression mentions `op`, it calls it on an argument. -/
def OnlyCalls (op : Intrinsic) (e : Expr) : Prop :=
  e.intrinsic? ≠ some op ∧ ∀ e' ∈ e.subterms, ∀ c ∈ e'.operands, c.intrinsic? ≠ some op

instance (op : Intrinsic) (e : Expr) : Decidable (e.OnlyCalls op) :=
  inferInstanceAs (Decidable (_ ∧ _))

theorem OnlyCalls.call {op : Intrinsic} (h : e.OnlyCalls op) (he : e' ∈ e.subterms)
    (ho : e'.intrinsic? = some op) :
    ∃ a t, .call e' a t ∈ e.subterms := by
  rcases mem_subterms_children he with rfl | ⟨p, hp, hc⟩
  · exact absurd ho h.1
  · have hop : e' ∉ p.operands := fun hop => h.2 p hp e' hop ho
    cases p with
    | call f a t =>
      simp only [Expr.children, List.mem_cons, List.not_mem_nil, or_false] at hc
      rcases hc with rfl | rfl
      · exact ⟨a, t, hp⟩
      · exact absurd (by simp [operands]) hop
    | _ => exact absurd hc hop

/-- A checked block of the coordinator or of no tier depends on no participants. -/
theorem steady_of_leak? {tier : Tier} (hcheck : e.check = .ok ())
    (hcalls : e.OnlyCalls (.within .zipAtClients)) (htier : tier = .unplaced ∨ tier = .coordinator)
    (h : e.leak? tier = none) : e.Steady := by
  obtain ⟨tree, htree, hcross, -, hfits⟩ := leak?_none.mp h
  have hchecked : ∀ e' ∈ e.subterms, ∃ Γ, e'.checkIn Γ = .ok () := by
    refine forall_subterms ?_ ⟨[], hcheck⟩
    rintro e ⟨Γ, he⟩
    exact checkIn_children he
  rintro e' he' op ho
  rcases op with op | op
  · -- a crossing is a leak
    have hleak := hcross.resolve_left (by rintro rfl; simp at htier) e' he'
    cases e' with
    | intrinsic uri t =>
      simp [crossingLeak?, show Intrinsic.ofUri? uri = some (.crossing op) from ho] at hleak
    | _ => cases ho
  · cases op with
    | zipAtClients =>
      -- the call has a type at the participants
      obtain ⟨a, t, hmem⟩ := hcalls.call he' ho
      obtain ⟨Γ, hcall⟩ := hchecked _ hmem
      obtain ⟨-, -, himplied, p, hp, -⟩ := checkIn_call.mp hcall
      cases e' with
      | intrinsic uri u =>
        obtain ⟨r, hr, rfl⟩ := checkImplied_ok.mp himplied uri u _ rfl ho
        cases hp
        obtain ⟨ts, ms, -, -, rfl⟩ := zipResult_ok hr
        have hfit := fits_of_classify htree (hfits _ root_mem_labels) _ hmem
        have htouches : ∀ b, (Tier.ofMentions b true).fits tier = false := by
          rcases htier with rfl | rfl <;> decide
        simp [Ty.place, Ty.tier, Ty.mentions, htouches] at hfit
      | _ => cases ho
    | _ => rfl

end Expr

/-- No function in the value depends on the participants. -/
inductive Value.Steady : Value → Prop where
  | int (n : Int) : Steady (.int n)
  | float (x : Float) : Steady (.float x)
  | bool (b : Bool) : Steady (.bool b)
  | tuple {vs : List Value} (h : ∀ v ∈ vs, Steady v) : Steady (.tuple vs)
  | seq {vs : List Value} (h : ∀ v ∈ vs, Steady v) : Steady (.seq vs)
  | closure {x : Option String} {body : Expr} {env : Env} (hbody : body.Steady)
      (henv : ∀ b ∈ env, Steady b.2) :
      Steady (.closure x body env)
  | builtin (op : Builtin) (t : Ty) : Steady (.builtin op t)
  | intrinsic {op : Intrinsic} (h : op.isSteady = true) (t : Ty) : Steady (.intrinsic op t)
  | atServer {v : Value} (h : Steady v) : Steady (.atServer v)
  | atClients {vs : List Value} (h : ∀ v ∈ vs, Steady v) : Steady (.atClients vs)

namespace Value

theorem steady_of_isData {v : Value} (h : v.isData = true) : v.Steady := by
  induction v with
  | int n => exact .int n
  | float x => exact .float x
  | bool b => exact .bool b
  | tuple vs ih => exact .tuple fun v hv => ih v hv (allData_iff.mp h v hv)
  | seq vs ih => exact .seq fun v hv => ih v hv (allData_iff.mp h v hv)
  | atServer v ih => exact .atServer (ih h)
  | atClients vs ih => exact .atClients fun v hv => ih v hv (allData_iff.mp h v hv)
  | closure | builtin | intrinsic => cases h

theorem isData_combine {op : Builtin} {a b v : Value} (h : combine op a b = .ok v) :
    v.isData = true := by
  have all : ∀ {as bs vs : List Value}, combineAll op as bs = .ok vs →
      (∀ a ∈ as, ∀ {b v : Value}, combine op a b = .ok v → v.isData = true) →
      allData vs = true := by
    intro as bs vs h ih
    induction as generalizing bs vs with
    | nil =>
      cases h
      rfl
    | cons a as iha =>
      cases bs with
      | nil =>
        cases h
        rfl
      | cons b bs =>
        simp only [combineAll, except_bind_ok, except_pure_ok] at h
        obtain ⟨v, hv, vs, hvs, rfl⟩ := h
        simp only [allData, Bool.and_eq_true]
        exact ⟨ih a (by simp) hv, iha hvs fun a ha => ih a (by simp [ha])⟩
  induction a generalizing b v with
  | tuple as ih =>
    cases b with
    | tuple bs =>
      simp only [combine] at h
      split at h
      · obtain ⟨vs, hvs, rfl⟩ := except_map_ok.mp h
        exact all hvs ih
      · simp at h
    | _ => simp [combine] at h
  | int x =>
    cases b with
    | int y =>
      simp only [combine] at h
      split at h <;> cases h
      rfl
    | _ => simp [combine] at h
  | float x =>
    cases b with
    | float y =>
      cases h
      rfl
    | _ => simp [combine] at h
  | _ => simp [combine] at h

theorem isData_zero {t : Ty} {v : Value} (h : zero t = .ok v) : v.isData = true := by
  induction t generalizing v with
  | scalar k =>
    cases k <;> cases h
    all_goals rfl
  | tuple ts ih =>
    simp only [zero, except_bind_ok, except_pure_ok] at h
    obtain ⟨vs, hvs, rfl⟩ := h
    change allData vs = true
    induction ts generalizing vs with
    | nil =>
      cases hvs
      rfl
    | cons t ts iht =>
      simp only [zero.zeros, except_bind_ok, except_pure_ok] at hvs
      obtain ⟨v, hv, vs, hvs, rfl⟩ := hvs
      simp only [allData, Bool.and_eq_true]
      exact ⟨ih t (by simp) hv, iht (fun t ht => ih t (by simp [ht])) vs hvs⟩
  | seq | func | thunk | placed => simp [zero] at h

theorem isData_sum {total v : Value} {items : List Value} (h : sum total items = .ok v)
    (htotal : total.isData = true) : v.isData = true := by
  induction items generalizing total with
  | nil =>
    cases h
    exact htotal
  | cons u us ih =>
    simp only [sum, except_bind_ok] at h
    obtain ⟨total', htotal', h⟩ := h
    exact ih h (isData_combine htotal')

theorem isData_applyBuiltin {op : Builtin} {t : Ty} {a v : Value}
    (h : applyBuiltin op t a = .ok v) :
    v.isData = true := by
  unfold applyBuiltin at h
  split at h
  · split at h
    · simp only [except_bind_ok, zeroOf, except_mapError_ok] at h
      obtain ⟨z, hz, h⟩ := h
      exact isData_sum h (isData_zero hz)
    · simp at h
  · simp only [except_bind_ok] at h
    obtain ⟨p, -, h⟩ := h
    exact isData_combine h

end Value

/-- Both computations are the same one, and what it returns has `P`. -/
def Agree {α : Type} (P : α → Prop) (x y : Eval α) : Prop :=
  x = y ∧ ∀ a, x.result = .ok a → P a

section Agree

variable {α β : Type} {P : α → Prop} {Q : β → Prop}

theorem Agree.bind {x y : Eval α} {f g : α → Eval β} (h : Agree P x y)
    (hf : ∀ a, P a → Agree Q (f a) (g a)) :
    Agree Q (x >>= f) (y >>= g) := by
  obtain ⟨rfl, hP⟩ := h
  refine ⟨?_, fun b hb => ?_⟩
  · change Traced.andThen x f = Traced.andThen x g
    unfold Traced.andThen
    cases hx : x.result with
    | error e => rfl
    | ok a => simp only [(hf a (hP a hx)).1]
  · obtain ⟨a, ha, hb⟩ := Traced.bind_ok.mp hb
    exact (hf a (hP a ha)).2 b hb

theorem agree_pure {a : α} (h : P a) : Agree P (pure a) (pure a) :=
  ⟨rfl, fun _ hb => Traced.pure_ok.mp hb ▸ h⟩

theorem agree_fail {e : Halt} : Agree P (Traced.fail e) (Traced.fail e) :=
  ⟨rfl, fun _ h => absurd h Traced.fail_ok⟩

theorem agree_lift {x : Except EvalFault α} (h : ∀ a, x = .ok a → P a) :
    Agree P (liftM x : Eval α) (liftM x) :=
  ⟨rfl, fun a ha => h a (Eval.liftM_ok.mp ha)⟩

theorem agree_each {f g : α → Eval β} {as : List α} (h : ∀ a ∈ as, Agree Q (f a) (g a)) :
    Agree (∀ b ∈ ·, Q b) (Traced.each f as) (Traced.each g as) := by
  induction as with
  | nil => exact agree_pure (by simp)
  | cons a as ih =>
    refine (h a (by simp)).bind fun b hb => ?_
    refine (ih fun a ha => h a (by simp [ha])).bind fun bs hbs => ?_
    exact agree_pure (by simpa using ⟨hb, hbs⟩)

end Agree

namespace Eval

variable {s s' : Setting}

def SteadyEnv (env : Env) : Prop := ∀ b ∈ env, b.2.Steady

theorem agree_locals {eval eval' : Env → Expr → Eval Value}
    (h : ∀ env e, SteadyEnv env → e.Steady → Agree Value.Steady (eval env e) (eval' env e))
    {ls : List (String × Expr)} {env : Env} (henv : SteadyEnv env) (hls : ∀ l ∈ ls, l.2.Steady) :
    Agree SteadyEnv (locals eval env ls) (locals eval' env ls) := by
  induction ls generalizing env with
  | nil => exact agree_pure henv
  | cons l ls ih =>
    refine (h env l.2 henv (hls l (by simp))).bind fun v hv => ?_
    refine ih (List.forall_mem_cons.mpr ⟨hv, henv⟩) fun l hl => hls l (by simp [hl])

theorem agree_within {call call' : Value → Option Value → Eval Value}
    (h : ∀ f a, f.Steady → (∀ v ∈ a, v.Steady) → Agree Value.Steady (call f a) (call' f a))
    {op : LocalOp} (hop : (Intrinsic.within op).isSteady = true) {a : Value} (ha : a.Steady) :
    Agree Value.Steady (within s call op a) (within s' call' op a) := by
  have two : Agree (fun p => p.1.Steady ∧ p.2.Steady) (liftM a.two : Eval _) (liftM a.two) := by
    refine agree_lift fun p hp => ?_
    rw [Value.two_ok.mp hp] at ha
    cases ha with
    | tuple hvs => simpa using hvs
  have server : ∀ {v : Value}, v.Steady → Agree Value.Steady
      (liftM v.serverContent : Eval _) (liftM v.serverContent) := by
    intro v hv
    refine agree_lift fun w hw => ?_
    rw [Value.serverContent_ok.mp hw] at hv
    cases hv with
    | atServer hw => exact hw
  cases op with
  | map =>
    refine two.bind ?_
    rintro ⟨f, value⟩ ⟨hf, hvalue⟩
    cases hvalue with
    | atClients hvs =>
      refine (agree_each fun v hv => h f (some v) hf (by simpa using hvs v hv)).bind
        fun ws hws => ?_
      exact agree_pure (.atClients hws)
    | atServer hv =>
      refine (h f _ hf (by simpa using hv)).bind fun w hw => ?_
      exact agree_pure (.atServer hw)
    | _ => exact agree_fail
  | apply =>
    refine two.bind ?_
    rintro ⟨f, value⟩ ⟨hf, hvalue⟩
    refine (server hvalue).bind fun v hv => ?_
    refine (h f (some v) hf (by simpa using hv)).bind fun w hw => ?_
    exact agree_pure (.atServer hw)
  | zipAtClients => cases hop
  | zipAtServer =>
    cases ha with
    | tuple hvs =>
      refine (agree_each fun v hv => server (hvs v hv)).bind fun ws hws => ?_
      exact agree_pure (.atServer (.tuple hws))
    | _ => exact agree_fail
  | valueAtServer => exact agree_pure (.atServer ha)

theorem agree_expr_succ {n : Nat}
    (hexpr : ∀ env e, SteadyEnv env → e.Steady →
      Agree Value.Steady (expr s n env e) (expr s' n env e))
    (hcall : ∀ f a, f.Steady → (∀ v ∈ a, v.Steady) →
      Agree Value.Steady (call s n f a) (call s' n f a))
    {env : Env} (henv : SteadyEnv env) {e : Expr} (he : e.Steady) :
    Agree Value.Steady (expr s (n + 1) env e) (expr s' (n + 1) env e) := by
  unfold expr
  have hparts := he.children
  cases e with
  | ref x t =>
    simp only
    cases hx : env.lookup x with
    | none => exact agree_fail
    | some v =>
      obtain ⟨_, _, rfl, -⟩ := List.lookup_eq_some_iff.mp hx
      exact agree_pure (henv (x, v) (by simp))
  | lit a t =>
    cases a with
    | int n => exact agree_pure (.int n)
    | float x => exact agree_pure (.float x)
    | bool b => exact agree_pure (.bool b)
  | tuple es t =>
    refine (agree_each fun e h => hexpr env e henv (hparts e h)).bind fun vs hvs => ?_
    exact agree_pure (.tuple hvs)
  | select e i t =>
    refine (hexpr env e henv (hparts e (by simp [Expr.children]))).bind fun v hv => ?_
    refine agree_lift fun w hw => ?_
    obtain ⟨vs, rfl, hi⟩ := Value.element_ok.mp hw
    cases hv with
    | tuple hvs => exact hvs w (List.mem_of_getElem? hi)
  | call f a t =>
    refine (hexpr env f henv (hparts f (by simp [Expr.children]))).bind fun vf hf => ?_
    refine (hexpr env a henv (hparts a (by simp [Expr.children]))).bind fun va ha => ?_
    exact hcall vf (some va) hf (by simpa using ha)
  | force f t =>
    refine (hexpr env f henv (hparts f (by simp [Expr.children]))).bind fun vf hf => ?_
    exact hcall vf none hf (by simp)
  | lambda x body t => exact agree_pure (.closure (hparts body (by simp [Expr.children])) henv)
  | block ls r t =>
    have hls : ∀ l ∈ ls, l.2.Steady :=
      fun l hl => hparts l.2 (by simpa [Expr.children] using .inl ⟨l.1, hl⟩)
    refine (agree_locals hexpr henv hls).bind fun env henv => ?_
    exact hexpr env r henv (hparts r (by simp [Expr.children]))
  | intrinsic uri t =>
    simp only
    cases ho : Intrinsic.ofUri? uri with
    | none => exact agree_fail
    | some op => exact agree_pure (.intrinsic (he _ (Expr.mem_subterms_self _) op ho) t)
  | builtin b t => exact agree_pure (.builtin b t.resultOrEmpty)

theorem agree_call_succ {n : Nat}
    (hexpr : ∀ env e, SteadyEnv env → e.Steady →
      Agree Value.Steady (expr s n env e) (expr s' n env e))
    (hcall : ∀ f a, f.Steady → (∀ v ∈ a, v.Steady) →
      Agree Value.Steady (call s n f a) (call s' n f a))
    {f : Value} (hf : f.Steady) {a : Option Value} (ha : ∀ v ∈ a, v.Steady) :
    Agree Value.Steady (call s (n + 1) f a) (call s' (n + 1) f a) := by
  unfold call
  cases hf with
  | @closure x body env hbody henv =>
    refine hexpr _ body ?_ hbody
    cases x with
    | none => exact henv
    | some x =>
      cases a with
      | none => exact henv
      | some v => exact List.forall_mem_cons.mpr ⟨ha v rfl, henv⟩
  | builtin op t =>
    exact agree_lift fun v hv => Value.steady_of_isData (Value.isData_applyBuiltin hv)
  | @intrinsic op hop t =>
    have hargument : (a.getD .empty).Steady := by
      cases a with
      | none => exact .tuple (by simp)
      | some v => exact ha v rfl
    refine Agree.bind (P := fun _ => True) ⟨rfl, fun _ _ => trivial⟩ fun _ _ => ?_
    cases op with
    | crossing => cases hop
    | within op => exact agree_within hcall hop hargument
  | _ => exact agree_fail

theorem agree_steady (s s' : Setting) (n : Nat) :
    (∀ env e, SteadyEnv env → e.Steady → Agree Value.Steady (expr s n env e) (expr s' n env e)) ∧
      ∀ f a, f.Steady → (∀ v ∈ a, v.Steady) →
      Agree Value.Steady (call s n f a) (call s' n f a) := by
  induction n with
  | zero => exact ⟨fun _ _ _ _ => agree_fail, fun _ _ _ _ => agree_fail⟩
  | succ n ih =>
    exact ⟨fun _ _ henv he => agree_expr_succ ih.1 ih.2 henv he,
      fun _ _ hf ha => agree_call_succ ih.1 ih.2 hf ha⟩

end Eval

/-- A block of the coordinator or of no tier gives the same outcome whatever the number of
participants and the size of their groups, if every mention of the zip at the participants in it is
a call on an argument. -/
theorem block_independent {e : Expr} {t : Ty} {tier : Tier} {slot : String} {b : Block}
    (hcheck : e.check = .ok ()) (hcalls : e.OnlyCalls (.within .zipAtClients))
    (htier : tier = .unplaced ∨ tier = .coordinator) (hb : (e.extract t tier slot).result = .ok b)
    {argument : Option Value} (hargument : ∀ v ∈ argument, v.isData = true) (s s' : Setting)
    (budget : Nat) : Eval.block s budget b argument = Eval.block s' budget b argument := by
  obtain ⟨hleak, -, rfl⟩ := Expr.extract_ok.mp hb
  have hsteady := Expr.steady_of_leak? hcheck hcalls htier hleak
  have hvalue : ∀ v ∈ argument, v.Steady := fun v hv => Value.steady_of_isData (hargument v hv)
  obtain ⟨hexpr, hcall⟩ := Eval.agree_steady s s' budget
  have hagree : Agree Value.Steady (Eval.block s budget ⟨t, e, tier⟩ argument)
      (Eval.block s' budget ⟨t, e, tier⟩ argument) :=
    (hexpr [] e (by simp [Eval.SteadyEnv]) hsteady).bind fun f hf => hcall f argument hf hvalue
  exact hagree.1

def increment : Expr :=
  let successor := Expr.mkLambda "x" .int32 (.call (.builtin .add
    (.func (.tuple [.int32, .int32]) .int32)) (.mkTuple [.ref "x" .int32, .int 1]) .int32)
  let state := Ty.atCoordinator .int32
  let operands := Expr.mkTuple [successor, .ref "s" state]
  .mkLambda "s" state
    (.call (.intrinsic "federated_apply" (.func operands.ty state)) operands state)

theorem block_independent_increment :
    ∃ b, (increment.extract increment.ty .coordinator "server_prepare").result = .ok b ∧
    Eval.block ⟨3, 2⟩ 9 b (some (.atServer (.int 4))) =
    Eval.block ⟨0, 1⟩ 9 b (some (.atServer (.int 4))) := by
  have hb : (increment.extract increment.ty .coordinator "server_prepare").result =
      .ok ⟨increment.ty, increment, .coordinator⟩ := rfl
  have hcalls : increment.OnlyCalls (.within .zipAtClients) := by decide
  exact ⟨_, hb, block_independent rfl hcalls (.inr rfl) hb (by simp [Value.isData]) ⟨3, 2⟩ ⟨0, 1⟩ 9⟩

/-- Zip nothing at the participants, under a type that does not say so. -/
def hiddenZip : Expr :=
  .mkLambda "x" .int32 (.mkBlock [("z", .intrinsic "federated_zip_at_clients"
    (.func .empty .int32))] (.call (.ref "z" (.func .empty .int32)) .unit .int32))

/-- A mention of the zip that is no call on an argument lets a checked block without tier count the
participants. -/
theorem block_counts_participants : hiddenZip.check = .ok () ∧
    ∃ b, (hiddenZip.extract hiddenZip.ty .unplaced "prepare").result = .ok b ∧
      (Eval.block ⟨0, 2⟩ 9 b (some (.int 4))).result = .ok (.atClients []) ∧
      (Eval.block ⟨1, 2⟩ 9 b (some (.int 4))).result = .ok (.atClients [.tuple []]) :=
  ⟨rfl, ⟨hiddenZip.ty, hiddenZip, .unplaced⟩, rfl, rfl, rfl⟩

end TwoTier

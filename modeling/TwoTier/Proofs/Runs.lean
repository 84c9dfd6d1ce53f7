import Mathlib.Order.Filter.AtTopBot.Basic
import Mathlib.Order.Filter.Finite
import TwoTier.Proofs.Itemwise
import TwoTier.Proofs.Outcome

/-! # Evaluation without a budget

A relation between what is run and its value. Large enough budgets find exactly these values, so
that an evaluation can be taken apart without counting how deep it nests.
-/

namespace TwoTier

def Literal.value : Literal → Value
  | .int v => .int v
  | .float v => .float v
  | .bool v => .bool v

/-- The variables of a closure when its body is entered. -/
def Env.enter (param : Option String) (argument : Option Value) (env : Env) : Env :=
  match param, argument with
  | some x, some v => (x, v) :: env
  | _, _ => env

/-- The intrinsic calls no function. -/
def Intrinsic.isPlain : Intrinsic → Bool
  | .crossing .aggregate | .within .map | .within .apply => false
  | _ => true

/-- What can be run: an expression, a call, or calls that combine items one after the other. -/
inductive Task where
  | expr (env : Env) (e : Expr)
  | call (f : Value) (argument : Option Value)
  | fold (f total : Value) (items : List Value)

/-- The task ends with a value. Lists of runs are pairs of lists, so that the relation has a plain
induction. -/
inductive Runs (s : Setting) : Task → Value → Prop where

  | ref {env : Env} {x : String} {t : Ty} {v : Value} :
      env.lookup x = some v → Runs s (.expr env (.ref x t)) v

  | lit {env : Env} {a : Literal} {t : Ty} : Runs s (.expr env (.lit a t)) a.value

  | tuple {env : Env} {es : List Expr} {t : Ty} {vs : List Value} : es.length = vs.length →
      (∀ p ∈ es.zip vs, Runs s (.expr env p.1) p.2) → Runs s (.expr env (.tuple es t)) (.tuple vs)

  | select {env : Env} {e : Expr} {i : Nat} {t : Ty} {vs : List Value} {v : Value} :
      Runs s (.expr env e) (.tuple vs) → vs[i]? = some v → Runs s (.expr env (.select e i t)) v

  | call {env : Env} {f a : Expr} {t : Ty} {g b v : Value} :
      Runs s (.expr env f) g → Runs s (.expr env a) b →
      Runs s (.call g (some b)) v → Runs s (.expr env (.call f a t)) v

  | force {env : Env} {f : Expr} {t : Ty} {g v : Value} :
      Runs s (.expr env f) g → Runs s (.call g none) v →
      Runs s (.expr env (.force f t)) v

  | lambda {env : Env} {x : Option String} {e : Expr} {t : Ty} :
      Runs s (.expr env (.lambda x e t)) (.closure x e env)

  | blockNil {env : Env} {r : Expr} {t : Ty} {v : Value} : Runs s (.expr env r) v →
      Runs s (.expr env (.block [] r t)) v

  | blockCons {env : Env} {x : String} {e r : Expr} {ls : List (String × Expr)}
      {t : Ty} {u v : Value} :
      Runs s (.expr env e) u → Runs s (.expr ((x, u) :: env) (.block ls r t)) v →
      Runs s (.expr env (.block ((x, e) :: ls) r t)) v

  | intrinsic {env : Env} {uri : String} {op : Intrinsic} {t : Ty} :
      Intrinsic.ofUri? uri = some op →
      Runs s (.expr env (.intrinsic uri t)) (.intrinsic op t)

  | builtin {env : Env} {b : Builtin} {t : Ty} :
      Runs s (.expr env (.builtin b t)) (.builtin b t.resultOrEmpty)

  | closure {x : Option String} {e : Expr} {env : Env} {a : Option Value} {v : Value} :
      Runs s (.expr (Env.enter x a env) e) v → Runs s (.call (.closure x e env) a) v

  | arithmetic {b : Builtin} {t : Ty} {a : Option Value} {v : Value} :
      Value.applyBuiltin b t (a.getD .empty) = .ok v → Runs s (.call (.builtin b t) a) v

  | plain {op : Intrinsic} {t : Ty} {a : Option Value} {v : Value} : op.isPlain = true →
      (Eval.intrinsic s (fun _ _ => Traced.fail .outOfBudget) op t (a.getD .empty)).result = .ok v →
      Runs s (.call (.intrinsic op t) a) v

  | mapClients {t : Ty} {f : Value} {vs ws : List Value} : vs.length = ws.length →
      (∀ p ∈ vs.zip ws, Runs s (.call f (some p.1)) p.2) →
      Runs s (.call (.intrinsic (.within .map) t) (some (.tuple [f, .atClients vs])))
      (.atClients ws)

  | mapServer {op : LocalOp} {t : Ty} {f v w : Value} :
      op = .map ∨ op = .apply → Runs s (.call f (some v)) w →
      Runs s (.call (.intrinsic (.within op) t) (some (.tuple [f, .atServer v]))) (.atServer w)

  | aggregate {t : Ty} {vs parts : List Value} {zero accumulate merge report total r : Value} :
      (Eval.groups s.groupSize vs).length = parts.length →
      (∀ p ∈ (Eval.groups s.groupSize vs).zip parts, Runs s (.fold accumulate zero p.1) p.2) →
      Runs s (.fold merge (parts.headD zero) parts.tail) total →
      Runs s (.call report (some total)) r →
      Runs s (.call (.intrinsic (.crossing .aggregate) t)
        (some (.tuple [.atClients vs, zero, accumulate, merge, report]))) (.atServer r)

  | foldNil {f total : Value} : Runs s (.fold f total []) total

  | foldCons {f total v u r : Value} {vs : List Value} :
      Runs s (.call f (some (.tuple [total, v]))) u →
      Runs s (.fold f u vs) r → Runs s (.fold f total (v :: vs)) r

open Filter

variable {s : Setting}

def Task.eval (s : Setting) (budget : Nat) : Task → Eval Value
  | .expr env e => Eval.expr s budget env e
  | .call f a => Eval.call s budget f a
  | .fold f total vs => Eval.fold (Eval.call s budget) f total vs

section Sound

variable {call : Value → Option Value → Eval Value}

theorem runs_of_locals {eval : Env → Expr → Eval Value}
    (he : ∀ {env e v}, (eval env e).result = .ok v → Runs s (.expr env e) v)
    {r : Expr} {t : Ty} {v : Value} (ls : List (String × Expr)) {env env' : Env}
    (hl : (Eval.locals eval env ls).result = .ok env') (hr : (eval env' r).result = .ok v) :
    Runs s (.expr env (.block ls r t)) v := by
  induction ls generalizing env with
  | nil =>
    simp only [Eval.locals, Traced.pure_ok] at hl
    exact .blockNil (hl ▸ he hr)
  | cons l ls ih =>
    simp only [Eval.locals, Traced.bind_ok] at hl
    obtain ⟨u, hu, hl⟩ := hl
    exact .blockCons (he hu) (ih hl)

theorem runs_of_fold (hc : ∀ {f a v}, (call f a).result = .ok v → Runs s (.call f a) v)
    {f r : Value} (vs : List Value) {total : Value}
    (h : (Eval.fold call f total vs).result = .ok r) :
    Runs s (.fold f total vs) r := by
  induction vs generalizing total with
  | nil =>
    simp only [Eval.fold, Traced.pure_ok] at h
    exact h ▸ .foldNil
  | cons v vs ih =>
    simp only [Eval.fold, Traced.bind_ok] at h
    obtain ⟨u, hu, h⟩ := h
    exact .foldCons (hc hu) (ih h)

theorem runs_of_map (hc : ∀ {f a v}, (call f a).result = .ok v → Runs s (.call f a) v) {t : Ty}
    {a v : Value} (h : (Eval.within s call .map a).result = .ok v) :
    Runs s (.call (.intrinsic (.within .map) t) (some a)) v := by
  simp only [Eval.within, Traced.bind_ok, Eval.liftM_ok, Value.two_ok] at h
  obtain ⟨⟨f, vs⟩, rfl, h⟩ := h
  cases vs <;> simp only [Traced.bind_ok, Traced.pure_ok, Eval.misshapen_ok] at h
  case atServer u =>
    obtain ⟨w, hw, rfl⟩ := h
    exact .mapServer (.inl rfl) (hc hw)
  case atClients us =>
    obtain ⟨ws, hws, rfl⟩ := h
    obtain ⟨hl, hws⟩ := zip_forall (Traced.each_ok.mp hws)
    exact .mapClients hl fun p hp => hc (hws p hp)

theorem runs_of_apply (hc : ∀ {f a v}, (call f a).result = .ok v → Runs s (.call f a) v) {t : Ty}
    {a v : Value} (h : (Eval.within s call .apply a).result = .ok v) :
    Runs s (.call (.intrinsic (.within .apply) t) (some a)) v := by
  simp only [Eval.within, Traced.bind_ok, Traced.pure_ok, Eval.liftM_ok, Value.two_ok,
    Value.serverContent_ok] at h
  obtain ⟨⟨f, _⟩, rfl, u, hu, w, hw, rfl⟩ := h
  exact hu ▸ .mapServer (.inr rfl) (hc hw)

theorem Eval.aggregate_ok {us : List Value} {zero accumulate merge total : Value} :
    (Eval.aggregate s call us zero accumulate merge).result = .ok total ↔
      ∃ parts, List.Forall₂ (fun us part => (Eval.fold call accumulate zero us).result = .ok part)
        (Eval.groups s.groupSize us) parts ∧
        (Eval.fold call merge (parts.headD zero) parts.tail).result = .ok total := by
  simp only [Eval.aggregate, Traced.bind_ok, Traced.each_ok]
  refine exists_congr fun parts => and_congr_right fun _ => ?_
  cases parts with
  | nil => simp [Eval.fold]
  | cons => exact Iff.rfl

theorem runs_of_aggregate (hc : ∀ {f a v}, (call f a).result = .ok v → Runs s (.call f a) v)
    {t : Ty} {a v : Value} (h : (Eval.intrinsic s call (.crossing .aggregate) t a).result = .ok v) :
    Runs s (.call (.intrinsic (.crossing .aggregate) t) (some a)) v := by
  simp only [Eval.intrinsic, Traced.bind_ok, Traced.pure_ok, Eval.liftM_ok, Value.five_ok,
    Value.clientContents_ok, Eval.aggregate_ok] at h
  obtain ⟨⟨_, zero, accumulate, merge, report⟩, rfl, us, rfl, total, ⟨parts, hparts, htotal⟩,
    r, hr, rfl⟩ := h
  obtain ⟨hl, hparts⟩ := zip_forall hparts
  exact .aggregate hl (fun p hp => runs_of_fold hc _ (hparts p hp))
    (runs_of_fold hc _ htotal) (hc hr)

theorem runs_of_intrinsic (hc : ∀ {f a v}, (call f a).result = .ok v → Runs s (.call f a) v)
    {op : Intrinsic} {t : Ty} {a : Option Value} {v : Value}
    (h : (Eval.intrinsic s call op t (a.getD .empty)).result = .ok v) :
    Runs s (.call (.intrinsic op t) a) v := by
  match op, a with
  | .crossing .broadcast, _ | .crossing .bitwidthSum, _ | .crossing .boundedSum, _
      | .crossing .modularSum, _
  | .within .zipAtClients, _ | .within .zipAtServer, _ | .within .valueAtServer, _ =>
    exact .plain rfl h
  | .within .map, some a => exact runs_of_map hc h
  | .within .apply, some a => exact runs_of_apply hc h
  | .crossing .aggregate, some a => exact runs_of_aggregate hc h
  | .within .map, none | .within .apply, none | .crossing .aggregate, none =>
    simp [Eval.intrinsic, Eval.within, Value.empty] at h

end Sound

/-- What the evaluator finds is the value of a run. By induction on the budget. -/
theorem runs_of_eval (n : Nat) :
    (∀ {env : Env} {e : Expr} {v : Value}, (Eval.expr s n env e).result = .ok v →
    Runs s (.expr env e) v) ∧
    (∀ {f : Value} {a : Option Value} {v : Value}, (Eval.call s n f a).result = .ok v →
    Runs s (.call f a) v) := by
  induction n with
  | zero => simp [Eval.expr, Eval.call]
  | succ n ih =>
    obtain ⟨he, hc⟩ := ih
    constructor
    · intro env e v h
      cases e with
      | ref x t =>
        simp only [Eval.expr] at h
        split at h
        · rename_i u hu
          simp only [Traced.pure_ok] at h
          exact .ref (h ▸ hu)
        · simp at h
      | lit a t => cases a <;> simp only [Eval.expr, Traced.pure_ok] at h <;> exact h ▸ .lit
      | tuple es t =>
        simp only [Eval.expr, Traced.bind_ok, Traced.pure_ok] at h
        obtain ⟨vs, hvs, rfl⟩ := h
        obtain ⟨hl, hvs⟩ := zip_forall (Traced.each_ok.mp hvs)
        exact .tuple hl fun p hp => he (hvs p hp)
      | select e i t =>
        simp only [Eval.expr, Traced.bind_ok, Eval.liftM_ok, Value.element_ok] at h
        obtain ⟨_, hu, vs, rfl, hi⟩ := h
        exact .select (he hu) hi
      | call f a t =>
        simp only [Eval.expr, Traced.bind_ok] at h
        obtain ⟨g, hg, b, hb, h⟩ := h
        exact .call (he hg) (he hb) (hc h)
      | force f t =>
        simp only [Eval.expr, Traced.bind_ok] at h
        obtain ⟨g, hg, h⟩ := h
        exact .force (he hg) (hc h)
      | lambda x e t =>
        simp only [Eval.expr, Traced.pure_ok] at h
        exact h ▸ .lambda
      | block ls r t =>
        simp only [Eval.expr, Traced.bind_ok] at h
        obtain ⟨env', hl, hr⟩ := h
        exact runs_of_locals he ls hl hr
      | intrinsic uri t =>
        simp only [Eval.expr] at h
        split at h
        · rename_i op ho
          simp only [Traced.pure_ok] at h
          exact h ▸ .intrinsic ho
        · simp at h
      | builtin b t =>
        simp only [Eval.expr, Traced.pure_ok] at h
        exact h ▸ .builtin
    · intro f a v h
      cases f <;> simp only [Eval.call, Eval.misshapen_ok] at h
      case closure x e env => exact .closure (he h)
      case builtin b t => exact .arithmetic (Eval.liftM_ok.mp h)
      case intrinsic op t =>
        simp only [Traced.bind_ok] at h
        obtain ⟨_, _, h⟩ := h
        exact runs_of_intrinsic hc h

theorem Task.runs_of_eval {n : Nat} {task : Task} {v : Value} (h : (task.eval s n).result = .ok v) :
    Runs s task v := by
  cases task with
  | expr env e => exact (TwoTier.runs_of_eval n).1 h
  | call f a => exact (TwoTier.runs_of_eval n).2 h
  | fold f total vs => exact runs_of_fold (TwoTier.runs_of_eval n).2 vs h

theorem eventually_succ {P Q : Nat → Prop} (hP : ∀ᶠ n in atTop, P n) (h : ∀ n, P n → Q (n + 1)) :
    ∀ᶠ n in atTop, Q n := by
  obtain ⟨n, hn⟩ := eventually_atTop.mp hP
  refine eventually_atTop.mpr ⟨n + 1, fun m hm => ?_⟩
  obtain ⟨m, rfl⟩ : ∃ m', m = m' + 1 := ⟨m - 1, by omega⟩
  exact h m (hn m (by omega))

theorem eventually_forall_mem {α : Type} {P : α → Nat → Prop} {l : List α} :
    (∀ᶠ n in atTop, ∀ a ∈ l, P a n) ↔ ∀ a ∈ l, ∀ᶠ n in atTop, P a n :=
  eventually_all_finite (List.finite_toSet l)

theorem eventually_forall₂ {α β : Type} {P : Nat → α → β → Prop} {as : List α} {bs : List β}
    (h : List.Forall₂ (fun a b => ∀ᶠ n in atTop, P n a b) as bs) :
    ∀ᶠ n in atTop, List.Forall₂ (P n) as bs := by
  induction h with
  | nil => exact .of_forall fun _ => .nil
  | cons h _ ih =>
    filter_upwards [h, ih] with n h ih
    exact .cons h ih

theorem each_of_zip {α β ε : Type} {f : α → Traced ε β} {as : List α} {bs : List β}
    (hl : as.length = bs.length) (h : ∀ p ∈ as.zip bs, (f p.1).result = .ok p.2) :
    (Traced.each f as).result = .ok bs :=
  Traced.each_ok.mpr (forall₂_of_zip hl h)

theorem Eval.intrinsic_of_isPlain {op : Intrinsic} (hp : op.isPlain = true) {t : Ty} {a : Value}
    {call : Value → Option Value → Eval Value} (call' : Value → Option Value → Eval Value) :
    Eval.intrinsic s call op t a = Eval.intrinsic s call' op t a := by
  rcases op with (_ | _ | _ | _ | _) | (_ | _ | _ | _ | _) <;>
    first | rfl | simp [Intrinsic.isPlain] at hp

/-- Large enough budgets find the value of a run. -/
theorem Runs.eval {task : Task} {v : Value} (h : Runs s task v) :
    ∀ᶠ n in atTop, (task.eval s n).result = .ok v := by
  have now : ∀ᶠ _ in atTop (α := Nat), True := .of_forall fun _ => trivial
  induction h with
  | ref h => exact eventually_succ now fun n _ => by simp [Task.eval, Eval.expr, h]
  | @lit env a t =>
    exact eventually_succ now fun n _ => by cases a <;> simp [Task.eval, Eval.expr, Literal.value]
  | tuple hl _ ih =>
    refine eventually_succ (eventually_forall_mem.mpr ih) fun n h => ?_
    simpa [Task.eval, Eval.expr] using each_of_zip hl h
  | select _ hi ih =>
    refine eventually_succ ih fun n h => ?_
    simp only [Task.eval, Eval.expr, Traced.bind_ok, Eval.liftM_ok, Value.element_ok]
    exact ⟨_, h, _, rfl, hi⟩
  | call _ _ _ ihf iha ihc =>
    refine eventually_succ (ihf.and (iha.and ihc)) fun n h => ?_
    obtain ⟨hf, ha, hc⟩ := h
    simpa [Task.eval, Eval.expr] using ⟨_, hf, _, ha, hc⟩
  | force _ _ ihf ihc =>
    refine eventually_succ (ihf.and ihc) fun n h => ?_
    obtain ⟨hf, hc⟩ := h
    simpa [Task.eval, Eval.expr] using ⟨_, hf, hc⟩
  | lambda => exact eventually_succ now fun n _ => by simp [Task.eval, Eval.expr]
  | blockNil _ ih =>
    refine eventually_succ ih fun n h => ?_
    simpa [Task.eval, Eval.expr, Eval.locals] using h
  | @blockCons env x e r ls t u v _ _ ihe ihr =>
    -- The rest of the block is run with the budget of the whole one.
    have hr := (tendsto_add_atTop_nat 1).eventually ihr
    refine eventually_succ (ihe.and hr) fun n h => ?_
    obtain ⟨he, hr⟩ := h
    simp only [Task.eval, Eval.expr, Traced.bind_ok] at he hr ⊢
    obtain ⟨env', hl, hr⟩ := hr
    exact ⟨env', by simpa [Eval.locals] using ⟨u, he, hl⟩, hr⟩
  | intrinsic h => exact eventually_succ now fun n _ => by simp [Task.eval, Eval.expr, h]
  | builtin => exact eventually_succ now fun n _ => by simp [Task.eval, Eval.expr]
  | closure _ ih => exact eventually_succ ih fun n h => h
  | arithmetic h => exact eventually_succ now fun n _ => by simpa [Task.eval, Eval.call] using h
  | plain hp h =>
    refine eventually_succ now fun n _ => ?_
    rw [Eval.intrinsic_of_isPlain hp (Eval.call s n)] at h
    simp only [Task.eval, Eval.call, Traced.bind_ok]
    exact ⟨(), Traced.note_ok, h⟩
  | mapClients hl _ ih =>
    refine eventually_succ (eventually_forall_mem.mpr ih) fun n h => ?_
    simp only [Task.eval, Eval.call, Eval.intrinsic, Eval.within, Traced.bind_ok, Eval.liftM_ok,
      Value.two_ok, Option.getD_some]
    exact ⟨(), Traced.note_ok, (_, _), rfl, by simpa using each_of_zip hl h⟩
  | mapServer ho _ ih =>
    refine eventually_succ ih fun n h => ?_
    rcases ho with rfl | rfl <;> simp only [Task.eval, Eval.call, Eval.intrinsic, Eval.within,
      Traced.bind_ok, Eval.liftM_ok, Value.two_ok,
        Option.getD_some] <;>
      exact ⟨(), Traced.note_ok, (_, _), rfl, by simpa [Task.eval] using h⟩
  | @aggregate t vs parts zero accumulate merge report total r hl _ _ _ ihp iht ihr =>
    refine eventually_succ ((eventually_forall_mem.mpr ihp).and (iht.and ihr)) fun n h => ?_
    obtain ⟨hp, ht, hr⟩ := h
    have htotal : (Eval.aggregate s (Eval.call s n) vs zero accumulate merge).result = .ok total :=
      Eval.aggregate_ok.mpr ⟨parts, forall₂_of_zip hl hp, ht⟩
    simp only [Task.eval, Eval.call, Eval.intrinsic, Traced.bind_ok, Eval.liftM_ok, Value.five_ok,
      Value.clientContents_ok, Traced.pure_ok, Option.getD_some]
    exact ⟨(), Traced.note_ok, (_, _, _, _, _), rfl, _, rfl, _, htotal, _, hr, rfl⟩
  | foldNil => exact .of_forall fun n => by simp [Task.eval, Eval.fold]
  | foldCons _ _ ihc ihf =>
    refine (ihc.and ihf).mono fun n h => ?_
    obtain ⟨hc, hf⟩ := h
    simpa [Task.eval, Eval.fold, Value.pair] using ⟨_, hc, hf⟩

theorem Runs.unique {task : Task} {v w : Value} (hv : Runs s task v)
    (hw : Runs s task w) : v = w := by
  obtain ⟨n, hv, hw⟩ := (hv.eval.and hw.eval).exists
  simpa using hv.symm.trans hw

section Parts

variable {env : Env} {v : Value}

@[simp] theorem runs_ref {x : String} {t : Ty} :
    Runs s (.expr env (.ref x t)) v ↔ env.lookup x = some v :=
  ⟨fun | .ref h => h, .ref⟩

@[simp] theorem runs_lit {a : Literal} {t : Ty} : Runs s (.expr env (.lit a t)) v ↔ v = a.value :=
  ⟨fun | .lit => rfl, fun h => h ▸ .lit⟩

theorem runs_tuple {es : List Expr} {t : Ty} : Runs s (.expr env (.tuple es t)) v ↔
    ∃ vs, List.Forall₂ (fun e v => Runs s (.expr env e) v) es vs ∧ v = .tuple vs := by
  constructor
  · rintro (_ | _ | ⟨hl, h⟩)
    exact ⟨_, forall₂_of_zip hl h, rfl⟩
  · rintro ⟨vs, h, rfl⟩
    obtain ⟨hl, h⟩ := zip_forall h
    exact .tuple hl h

theorem runs_select {e : Expr} {i : Nat} {t : Ty} : Runs s (.expr env (.select e i t)) v ↔
    ∃ vs, Runs s (.expr env e) (.tuple vs) ∧ vs[i]? = some v :=
  ⟨fun | .select h hi => ⟨_, h, hi⟩, fun ⟨_, h, hi⟩ => .select h hi⟩

theorem runs_call {f a : Expr} {t : Ty} : Runs s (.expr env (.call f a t)) v ↔
    ∃ g b, Runs s (.expr env f) g ∧ Runs s (.expr env a) b ∧ Runs s (.call g (some b)) v :=
  ⟨fun | .call hf ha h => ⟨_, _, hf, ha, h⟩, fun ⟨_, _, hf, ha, h⟩ => .call hf ha h⟩

theorem runs_force {f : Expr} {t : Ty} : Runs s (.expr env (.force f t)) v ↔
    ∃ g, Runs s (.expr env f) g ∧ Runs s (.call g none) v :=
  ⟨fun | .force hf h => ⟨_, hf, h⟩, fun ⟨_, hf, h⟩ => .force hf h⟩

@[simp] theorem runs_lambda {x : Option String} {e : Expr} {t : Ty} :
    Runs s (.expr env (.lambda x e t)) v ↔ v = .closure x e env :=
  ⟨fun | .lambda => rfl, fun h => h ▸ .lambda⟩

@[simp] theorem runs_intrinsic {uri : String} {t : Ty} : Runs s (.expr env (.intrinsic uri t)) v ↔
    ∃ op, Intrinsic.ofUri? uri = some op ∧ v = .intrinsic op t :=
  ⟨fun | .intrinsic h => ⟨_, h, rfl⟩, fun ⟨_, h, hv⟩ => hv ▸ .intrinsic h⟩

@[simp] theorem runs_builtin {b : Builtin} {t : Ty} :
    Runs s (.expr env (.builtin b t)) v ↔ v = .builtin b t.resultOrEmpty :=
  ⟨fun | .builtin => rfl, fun h => h ▸ .builtin⟩

/-- Binding the locals one after the other leads from the first variables to the second. -/
def Binds (s : Setting) : Env → List (String × Expr) → Env → Prop
  | env, [], env' => env' = env
  | env, (x, e) :: ls, env' => ∃ u, Runs s (.expr env e) u ∧ Binds s ((x, u) :: env) ls env'

theorem runs_block {ls : List (String × Expr)} {r : Expr} {t : Ty} :
    Runs s (.expr env (.block ls r t)) v ↔
    ∃ env', Binds s env ls env' ∧ Runs s (.expr env' r) v := by
  induction ls generalizing env with
  | nil => exact ⟨fun | .blockNil h => ⟨env, rfl, h⟩, fun | ⟨_, rfl, h⟩ => .blockNil h⟩
  | cons l ls ih =>
    constructor
    · intro h
      cases h with
      | blockCons he hr =>
        obtain ⟨env', hl, hr⟩ := ih.mp hr
        exact ⟨env', ⟨_, he, hl⟩, hr⟩
    · rintro ⟨env', ⟨u, he, hl⟩, hr⟩
      exact .blockCons he (ih.mpr ⟨env', hl, hr⟩)

theorem runs_mkBlock {ls : List (String × Expr)} {r : Expr} :
    Runs s (.expr env (Expr.mkBlock ls r)) v ↔
    ∃ env', Binds s env ls env' ∧ Runs s (.expr env' r) v := by
  cases ls with
  | nil => simp [Expr.mkBlock, Binds]
  | cons l ls => simpa [Expr.mkBlock] using runs_block

theorem binds_append {ls ls' : List (String × Expr)} {env'' : Env} : Binds s env (ls ++ ls') env'' ↔
    ∃ env', Binds s env ls env' ∧ Binds s env' ls' env'' := by
  induction ls generalizing env with
  | nil => simp [Binds]
  | cons l ls ih =>
    simp only [List.cons_append, Binds, ih]
    exact ⟨fun ⟨u, hu, env', h⟩ => ⟨env', ⟨u, hu, h.1⟩, h.2⟩,
      fun ⟨env', ⟨u, hu, h⟩, h'⟩ => ⟨u, hu, env', h, h'⟩⟩

end Parts

section Folds

variable {v : Value}

theorem runs_fold_nil {f total : Value} : Runs s (.fold f total []) v ↔ v = total := by
  constructor
  · rintro ⟨⟩
    rfl
  · rintro rfl
    exact .foldNil

theorem runs_fold_cons {f total u : Value} {us : List Value} : Runs s (.fold f total (u :: us)) v ↔
    ∃ total', Runs s (.call f (some (.pair total u))) total' ∧ Runs s (.fold f total' us) v := by
  constructor
  · intro h
    cases h with
    | foldCons hu hus => exact ⟨_, hu, hus⟩
  · rintro ⟨total', hu, hus⟩
    exact .foldCons hu hus

end Folds

section Calls

variable {t : Ty} {v : Value}

@[simp] theorem runs_closure {x : Option String} {e : Expr} {env : Env} {a : Option Value} :
    Runs s (.call (.closure x e env) a) v ↔ Runs s (.expr (Env.enter x a env) e) v :=
  ⟨fun | .closure h => h, .closure⟩

@[simp] theorem runs_arithmetic {b : Builtin} {a : Option Value} :
    Runs s (.call (.builtin b t) a) v ↔ Value.applyBuiltin b t (a.getD .empty) = .ok v :=
  ⟨fun | .arithmetic h => h, .arithmetic⟩

theorem runs_plain {op : Intrinsic} (hp : op.isPlain = true) {a : Value} :
    Runs s (.call (.intrinsic op t) (some a)) v ↔
      (Eval.intrinsic s (fun _ _ => Traced.fail .outOfBudget) op t a).result = .ok v := by
  constructor
  · intro h
    cases h with
    | plain _ h => exact h
    | mapClients => simp [Intrinsic.isPlain] at hp
    | mapServer ho => rcases ho with rfl | rfl <;> simp [Intrinsic.isPlain] at hp
    | aggregate => simp [Intrinsic.isPlain] at hp
  · exact fun h => .plain hp h

theorem runs_broadcast {a : Value} :
    Runs s (.call (.intrinsic (.crossing .broadcast) t) (some a)) v ↔
    ∃ u, a = .atServer u ∧ v = .atClients (List.replicate s.participants u) := by
  rw [runs_plain rfl]
  simp [Eval.intrinsic, @eq_comm _ _ v]

theorem runs_valueAtServer {a : Value} :
    Runs s (.call (.intrinsic (.within .valueAtServer) t) (some a)) v ↔ v = .atServer a := by
  rw [runs_plain rfl]
  simp [Eval.intrinsic, Eval.within, @eq_comm _ _ v]

theorem runs_zipAtServer {a : Value} :
    Runs s (.call (.intrinsic (.within .zipAtServer) t) (some a)) v ↔
    ∃ us : List Value, a = .tuple (us.map .atServer) ∧ v = .atServer (.tuple us) := by
  rw [runs_plain rfl]
  cases a <;> simp [Eval.intrinsic, Eval.within, Traced.each_ok, @eq_comm _ _ v, forall₂_eq_map]

theorem runs_map {a : Value} : Runs s (.call (.intrinsic (.within .map) t) (some a)) v ↔
    (∃ f us ws, a = .tuple [f, .atClients us] ∧ v = .atClients ws ∧
      List.Forall₂ (fun u w => Runs s (.call f (some u)) w) us ws) ∨
    (∃ f u w, a = .tuple [f, .atServer u] ∧ v = .atServer w ∧ Runs s (.call f (some u)) w) := by
  constructor
  · intro h
    cases h with
    | plain hp => simp [Intrinsic.isPlain] at hp
    | mapClients hl h => exact .inl ⟨_, _, _, rfl, rfl, forall₂_of_zip hl h⟩
    | mapServer _ h => exact .inr ⟨_, _, _, rfl, rfl, h⟩
  · rintro (⟨f, us, ws, rfl, rfl, h⟩ | ⟨f, u, w, rfl, rfl, h⟩)
    · obtain ⟨hl, h⟩ := zip_forall h
      exact .mapClients hl h
    · exact .mapServer (.inl rfl) h

theorem runs_apply {a : Value} : Runs s (.call (.intrinsic (.within .apply) t) (some a)) v ↔
    ∃ f u w, a = .tuple [f, .atServer u] ∧ v = .atServer w ∧ Runs s (.call f (some u)) w := by
  constructor
  · intro h
    cases h with
    | plain hp => simp [Intrinsic.isPlain] at hp
    | mapServer _ h => exact ⟨_, _, _, rfl, rfl, h⟩
  · rintro ⟨f, u, w, rfl, rfl, h⟩
    exact .mapServer (.inr rfl) h

theorem row_ok {columns : List (List Value)} {i : Nat} : (Eval.row columns i).result = .ok v ↔
    ∃ us, List.Forall₂ (fun column u => column[i]? = some u) columns us ∧ v = .tuple us := by
  simp only [Eval.row, Traced.bind_ok, Traced.pure_ok, Traced.each_ok, @eq_comm _ v]
  refine exists_congr fun us => and_congr_left fun _ => ?_
  constructor <;> refine fun h => h.imp fun column u h => ?_
  · split at h <;> simp_all
  · simp [h]

theorem runs_zipAtClients {a : Value} :
    Runs s (.call (.intrinsic (.within .zipAtClients) t) (some a)) v ↔
    ∃ (columns : List (List Value)) (rows : List Value), a = .tuple (columns.map .atClients) ∧
      v = .atClients rows ∧ List.Forall₂ (fun i row => ∃ us, row = .tuple us ∧
        List.Forall₂ (fun column u => column[i]? = some u) columns us)
        (List.range s.participants) rows := by
  rw [runs_plain rfl]
  cases a <;> simp [Eval.intrinsic, Eval.within, Traced.each_ok, @eq_comm _ _ v, forall₂_eq_map,
    row_ok, and_comm]

/-- What is held at the coordinator; anything else is that itself. -/
def Value.held : Value → Value
  | .atServer v => v
  | v => v

theorem secureSum_ok {op : Crossing} {us : List Value} {p : Value} :
    (Eval.secureSum op t us p).result = .ok v ↔
    ∃ m total, (t.signature?.bind fun (_, r) => r.member?) = some m ∧
      Value.secureSum op m us p.held = .ok total ∧ v = .atServer total := by
  unfold Eval.secureSum
  cases p <;> cases t.signature?.bind fun (_, r) => r.member? <;> simp [Value.held, @eq_comm _ v]

theorem runs_secureSum {op : Crossing} (ho : op.secureChannel?.isSome) {a : Value} :
    Runs s (.call (.intrinsic (.crossing op) t) (some a)) v ↔
      ∃ us p m total, a = .tuple [.atClients us, p] ∧
      (t.signature?.bind fun (_, r) => r.member?) = some m ∧
        Value.secureSum op m us p.held = .ok total ∧ v = .atServer total := by
  cases op <;> simp only [Crossing.secureChannel?, Option.isSome, Bool.false_eq_true] at ho <;>
    rw [runs_plain rfl] <;>
    simp only [Eval.intrinsic, Traced.bind_ok, Eval.liftM_ok, Value.two_ok, Value.clientContents_ok,
      secureSum_ok] <;>
    constructor <;>
    first
      | rintro ⟨⟨_, p⟩, ha, us, rfl, m, total, h⟩
        exact ⟨us, p, m, total, ha, h⟩
      | rintro ⟨us, p, m, total, ha, h⟩
        exact ⟨(_, p), ha, us, rfl, m, total, h⟩

/-- The values accumulated in groups and merged. -/
def Aggregates (s : Setting) (us : List Value) (zero accumulate merge total : Value) : Prop :=
  ∃ parts, List.Forall₂ (fun us part => Runs s (.fold accumulate zero us) part)
    (Eval.groups s.groupSize us) parts ∧
    Runs s (.fold merge (parts.headD zero) parts.tail) total

theorem aggregates_of_eval {n : Nat} {us : List Value} {zero accumulate merge total : Value}
    (h : (Eval.aggregate s (Eval.call s n) us zero accumulate merge).result = .ok total) :
    Aggregates s us zero accumulate merge total := by
  obtain ⟨parts, hparts, htotal⟩ := Eval.aggregate_ok.mp h
  have hc : ∀ {f a v}, (Eval.call s n f a).result = .ok v → Runs s (.call f a) v :=
    (runs_of_eval n).2
  exact ⟨parts, hparts.imp fun us _ h => runs_of_fold hc us h, runs_of_fold hc _ htotal⟩

theorem Aggregates.eval {us : List Value} {zero accumulate merge total : Value}
    (h : Aggregates s us zero accumulate merge total) : ∀ᶠ n in atTop,
    (Eval.aggregate s (Eval.call s n) us zero accumulate merge).result = .ok total := by
  obtain ⟨parts, hparts, htotal⟩ := h
  filter_upwards [eventually_forall₂ (hparts.imp fun _ _ h => h.eval),
    htotal.eval] with n hparts htotal
  exact Eval.aggregate_ok.mpr ⟨parts, hparts, htotal⟩

theorem runs_aggregate {a : Value} :
    Runs s (.call (.intrinsic (.crossing .aggregate) t) (some a)) v ↔
    ∃ us zero accumulate merge report total r, a =
    .tuple [.atClients us, zero, accumulate, merge, report] ∧
      v = .atServer r ∧ Aggregates s us zero accumulate merge total ∧
      Runs s (.call report (some total)) r := by
  constructor
  · intro h
    cases h with
    | plain hp => simp [Intrinsic.isPlain] at hp
    | aggregate hl hparts htotal hr =>
      exact ⟨_, _, _, _, _, _, _, rfl, rfl, ⟨_, forall₂_of_zip hl hparts, htotal⟩, hr⟩
  · rintro ⟨us, zero, accumulate, merge, report, total, r, rfl, rfl, ⟨parts, hparts, htotal⟩, hr⟩
    obtain ⟨hl, hparts⟩ := zip_forall hparts
    exact .aggregate hl hparts htotal hr

end Calls

end TwoTier

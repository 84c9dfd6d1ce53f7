import TwoTier.Proofs.Runs

/-! # Calls on an argument

Called without an argument, a function with a parameter reads the parameter's name in the variables
around it. The tasks that a run comes to are those its rules name; a run applies what it calls if
none of them is such a call.
-/

namespace TwoTier

variable {s : Setting}

/-- What running a task comes to next. A pair of a function and a value at the server counts as an
application, whatever intrinsic is called on it. -/
inductive Visits (s : Setting) : Task → Task → Prop where
  | element {env : Env} {es : List Expr} {t : Ty} {e : Expr} : e ∈ es →
      Visits s (.expr env (.tuple es t)) (.expr env e)
  | source {env : Env} {e : Expr} {i : Nat} {t : Ty} :
      Visits s (.expr env (.select e i t)) (.expr env e)
  | function {env : Env} {f a : Expr} {t : Ty} : Visits s (.expr env (.call f a t)) (.expr env f)
  | argument {env : Env} {f a : Expr} {t : Ty} : Visits s (.expr env (.call f a t)) (.expr env a)
  | call {env : Env} {f a : Expr} {t : Ty} {g b : Value} :
      Runs s (.expr env f) g → Runs s (.expr env a) b →
      Visits s (.expr env (.call f a t)) (.call g (some b))
  | thunk {env : Env} {f : Expr} {t : Ty} : Visits s (.expr env (.force f t)) (.expr env f)
  | force {env : Env} {f : Expr} {t : Ty} {g : Value} : Runs s (.expr env f) g →
      Visits s (.expr env (.force f t)) (.call g none)
  | result {env : Env} {r : Expr} {t : Ty} : Visits s (.expr env (.block [] r t)) (.expr env r)
  | bound {env : Env} {x : String} {e r : Expr} {ls : List (String × Expr)} {t : Ty} :
      Visits s (.expr env (.block ((x, e) :: ls) r t)) (.expr env e)
  | rest {env : Env} {x : String} {e r : Expr} {ls : List (String × Expr)} {t : Ty} {u : Value} :
      Runs s (.expr env e) u →
      Visits s (.expr env (.block ((x, e) :: ls) r t)) (.expr ((x, u) :: env) (.block ls r t))
  | body {x : Option String} {e : Expr} {env : Env} {a : Option Value} :
      Visits s (.call (.closure x e env) a) (.expr (Env.enter x a env) e)
  | participant {t : Ty} {f v : Value} {vs : List Value} : v ∈ vs →
      Visits s (.call (.intrinsic (.within .map) t) (some (.tuple [f, .atClients vs])))
      (.call f (some v))
  | coordinator {op : LocalOp} {t : Ty} {f v : Value} :
      Visits s (.call (.intrinsic (.within op) t) (some (.tuple [f, .atServer v])))
      (.call f (some v))
  | accumulate {t : Ty} {vs us : List Value} {zero accumulate merge report : Value} :
      us ∈ Eval.groups s.groupSize vs → Visits s (.call (.intrinsic (.crossing .aggregate) t)
        (some (.tuple [.atClients vs, zero, accumulate, merge, report]))) (.fold accumulate zero us)
  | merge {t : Ty} {vs parts : List Value} {zero accumulate merge report : Value} :
      List.Forall₂ (fun us part => Runs s (.fold accumulate zero us) part)
      (Eval.groups s.groupSize vs) parts →
      Visits s (.call (.intrinsic (.crossing .aggregate) t)
        (some (.tuple [.atClients vs, zero, accumulate, merge, report])))
        (.fold merge (parts.headD zero) parts.tail)
  | report {t : Ty} {vs : List Value} {zero accumulate merge report total : Value} :
      Aggregates s vs zero accumulate merge total →
      Visits s (.call (.intrinsic (.crossing .aggregate) t)
        (some (.tuple [.atClients vs, zero, accumulate, merge, report])))
        (.call report (some total))
  | combine {f total v : Value} {vs : List Value} :
      Visits s (.fold f total (v :: vs)) (.call f (some (.tuple [total, v])))
  | items {f total v u : Value} {vs : List Value} : Runs s (.call f (some (.tuple [total, v]))) u →
      Visits s (.fold f total (v :: vs)) (.fold f u vs)

/-- A function with a parameter is not called without an argument. -/
def Task.isApplied : Task → Bool
  | .call (.closure (some _) _ _) none => false
  | _ => true

def Task.isPlain : Task → Bool
  | .call (.intrinsic op _) _ => op.isPlain
  | _ => false

/-- A visit that a run makes: intrinsics that call no function come to nothing. -/
def Enters (s : Setting) (task task' : Task) : Prop :=
  Visits s task task' ∧ task.isPlain = false

/-- The run of a task comes to no call of a function with a parameter without an argument. -/
def Applied (s : Setting) (task : Task) : Prop :=
  ∀ task', Relation.ReflTransGen (Enters s) task task' → task'.isApplied = true

theorem Applied.step {task task' : Task} (h : Applied s task) (hv : Visits s task task')
    (hp : task.isPlain = false) :
    Applied s task' :=
  fun task'' hr => h task'' (.head ⟨hv, hp⟩ hr)

theorem Applied.isApplied {task : Task} (h : Applied s task) : task.isApplied = true :=
  h task .refl

theorem applied_of_visits {task : Task} (h : task.isApplied = true)
    (hv : ∀ task', Visits s task task' → task.isPlain = false → Applied s task') :
    Applied s task := by
  intro task' hr
  cases hr using Relation.ReflTransGen.head_induction_on with
  | refl => exact h
  | head hvisit hr => exact hv _ hvisit.1 hvisit.2 _ hr

section Applied

variable {env : Env} {e f a : Expr} {es : List Expr} {t : Ty}

theorem applied_leaf (he : e.children = [] ∨ e.isLambda = true) : Applied s (.expr env e) :=
  applied_of_visits rfl fun task' hv _ => by cases hv <;> simp_all [Expr.children, Expr.isLambda]

theorem applied_tuple (h : ∀ e ∈ es, Applied s (.expr env e)) :
    Applied s (.expr env (.tuple es t)) := by
  apply applied_of_visits rfl
  rintro _ (he | _) -
  exact h _ he

theorem applied_call (hf : Applied s (.expr env f)) (ha : Applied s (.expr env a))
    (h : ∀ g b, Runs s (.expr env f) g → Runs s (.expr env a) b → Applied s (.call g (some b))) :
    Applied s (.expr env (.call f a t)) := by
  apply applied_of_visits rfl
  intro task' hv _
  cases hv with
  | function => exact hf
  | argument => exact ha
  | call hg hb => exact h _ _ hg hb

theorem applied_closure {x : Option String} {b : Option Value}
    (hx : x.isSome = true → b.isSome = true) (h : Applied s (.expr (Env.enter x b env) e)) :
    Applied s (.call (.closure x e env) b) := by
  apply applied_of_visits
  · cases x <;> cases b <;> simp_all [Task.isApplied]
  · rintro _ ⟨⟩ -
    exact h

end Applied

/-- A run that applies what it calls. -/
structure Completes (s : Setting) (task : Task) (v : Value) : Prop where
  runs : Runs s task v
  applied : Applied s task

section Completes

variable {env : Env} {e f a r : Expr} {es : List Expr} {ls : List (String × Expr)} {t : Ty}
  {x : String} {i : Nat} {b g u v : Value} {vs : List Value}

theorem Runs.completes (h : Runs s (.expr env e) v) (he : e.children = [] ∨ e.isLambda = true) :
    Completes s (.expr env e) v :=
  ⟨h, applied_leaf he⟩

theorem completes_ref (h : env.lookup x = some v) : Completes s (.expr env (.ref x t)) v :=
  (runs_ref.mpr h).completes (.inl rfl)

theorem completes_tuple (h : List.Forall₂ (fun e v => Completes s (.expr env e) v) es vs) :
    Completes s (.expr env (.tuple es t)) (.tuple vs) where
  runs := runs_tuple.mpr ⟨vs, h.imp fun _ _ h => h.runs, rfl⟩
  applied := applied_tuple fun e he => by
    obtain ⟨v, -, hv⟩ := forall₂_mem h he
    exact hv.applied

theorem completes_select (h : Completes s (.expr env e) (.tuple vs)) (hi : vs[i]? = some v) :
    Completes s (.expr env (.select e i t)) v where
  runs := runs_select.mpr ⟨vs, h.runs, hi⟩
  applied := by
    apply applied_of_visits rfl
    rintro _ ⟨⟩ -
    exact h.applied

theorem completes_call (hf : Completes s (.expr env f) g) (ha : Completes s (.expr env a) b)
    (h : Completes s (.call g (some b)) v) : Completes s (.expr env (.call f a t)) v where
  runs := .call hf.runs ha.runs h.runs
  applied := applied_call hf.applied ha.applied fun _ _ hg hb => by
    rw [hg.unique hf.runs, hb.unique ha.runs]
    exact h.applied

theorem completes_force (hf : Completes s (.expr env f) g) (h : Completes s (.call g none) v) :
    Completes s (.expr env (.force f t)) v where
  runs := .force hf.runs h.runs
  applied := by
    apply applied_of_visits rfl
    intro task' hv _
    cases hv with
    | thunk => exact hf.applied
    | force hg =>
      rw [hg.unique hf.runs]
      exact h.applied

theorem completes_block_nil (h : Completes s (.expr env r) v) :
    Completes s (.expr env (.block [] r t)) v where
  runs := .blockNil h.runs
  applied := by
    apply applied_of_visits rfl
    rintro _ ⟨⟩ -
    exact h.applied

theorem completes_block_cons (he : Completes s (.expr env e) u)
    (h : Completes s (.expr ((x, u) :: env) (.block ls r t)) v) :
    Completes s (.expr env (.block ((x, e) :: ls) r t)) v where
  runs := .blockCons he.runs h.runs
  applied := by
    apply applied_of_visits rfl
    intro task' hv _
    cases hv with
    | bound => exact he.applied
    | rest hu =>
      rw [hu.unique he.runs]
      exact h.applied

theorem completes_closure {x : Option String} {a : Option Value}
    (hx : x.isSome = true → a.isSome = true) (h : Completes s (.expr (Env.enter x a env) e) v) :
    Completes s (.call (.closure x e env) a) v where
  runs := .closure h.runs
  applied := applied_closure hx h.applied

theorem completes_builtin {op : Builtin} {a : Option Value}
    (h : Runs s (.call (.builtin op t) a) v) :
    Completes s (.call (.builtin op t) a) v where
  runs := h
  applied := by
    apply applied_of_visits rfl
    rintro _ ⟨⟩

theorem completes_plain {op : Intrinsic} (hop : op.isPlain = true) {a : Option Value}
    (h : Runs s (.call (.intrinsic op t) a) v) : Completes s (.call (.intrinsic op t) a) v where
  runs := h
  applied := applied_of_visits rfl fun _ _ hp => by simp [Task.isPlain, hop] at hp

theorem Completes.elements (h : Completes s (.expr env (.tuple es t)) v) :
    ∃ vs, v = .tuple vs ∧ List.Forall₂ (fun e v => Completes s (.expr env e) v) es vs := by
  obtain ⟨vs, hvs, rfl⟩ := runs_tuple.mp h.runs
  have happ : ∀ e ∈ es, Applied s (.expr env e) := fun e he => h.applied.step (.element he) rfl
  exact ⟨vs, rfl, ((List.forall₂_and_left _ _).mpr ⟨happ, hvs⟩).imp fun _ _ h => ⟨h.2, h.1⟩⟩

theorem Completes.source (h : Completes s (.expr env (.select e i t)) v) :
    ∃ vs, Completes s (.expr env e) (.tuple vs) ∧ vs[i]? = some v := by
  obtain ⟨vs, he, hi⟩ := runs_select.mp h.runs
  exact ⟨vs, ⟨he, h.applied.step .source rfl⟩, hi⟩

theorem Completes.operands (h : Completes s (.expr env (.call f a t)) v) :
    ∃ g b, Completes s (.expr env f) g ∧ Completes s (.expr env a) b ∧
    Completes s (.call g (some b)) v := by
  obtain ⟨g, b, hg, hb, hc⟩ := runs_call.mp h.runs
  exact ⟨g, b, ⟨hg, h.applied.step .function rfl⟩, ⟨hb, h.applied.step .argument rfl⟩,
    ⟨hc, h.applied.step (.call hg hb) rfl⟩⟩

theorem Completes.bound (h : Completes s (.expr env (.block ((x, e) :: ls) r t)) v) :
    ∃ u, Completes s (.expr env e) u ∧ Completes s (.expr ((x, u) :: env) (.block ls r t)) v := by
  obtain ⟨env', ⟨u, he, hls⟩, hr⟩ := runs_block.mp h.runs
  exact ⟨u, ⟨he, h.applied.step .bound rfl⟩,
    ⟨runs_block.mpr ⟨env', hls, hr⟩, h.applied.step (.rest he) rfl⟩⟩

theorem Completes.result (h : Completes s (.expr env (.block [] r t)) v) :
    Completes s (.expr env r) v := by
  obtain ⟨_, rfl, hr⟩ := runs_block.mp h.runs
  exact ⟨hr, h.applied.step .result rfl⟩

theorem Completes.body {x : Option String} {a : Option Value}
    (h : Completes s (.call (.closure x e env) a) v) :
    Completes s (.expr (Env.enter x a env) e) v :=
  ⟨runs_closure.mp h.runs, h.applied.step .body rfl⟩

end Completes

section Calls

variable {t : Ty} {f u v : Value} {vs ws : List Value}

theorem completes_mapClients
    (h : List.Forall₂ (fun v w => Completes s (.call f (some v)) w) vs ws) :
    Completes s (.call (.intrinsic (.within .map) t) (some (.tuple [f, .atClients vs])))
    (.atClients ws) where
  runs := by
    obtain ⟨hl, h⟩ := zip_forall (h.imp fun _ _ h => h.runs)
    exact .mapClients hl h
  applied := by
    apply applied_of_visits rfl
    intro task' hv _
    cases hv with
    | participant hv =>
      obtain ⟨w, -, hw⟩ := forall₂_mem h hv
      exact hw.applied

theorem completes_mapServer {op : LocalOp} (ho : op = .map ∨ op = .apply)
    (h : Completes s (.call f (some v)) u) :
    Completes s (.call (.intrinsic (.within op) t) (some (.tuple [f, .atServer v])))
    (.atServer u) where
  runs := .mapServer ho h.runs
  applied := by
    apply applied_of_visits rfl
    intro task' hv _
    cases hv with
    | coordinator => exact h.applied

theorem completes_aggregate {parts : List Value} {zero accumulate merge report total : Value}
    (hparts : List.Forall₂ (fun us part => Completes s (.fold accumulate zero us) part)
      (Eval.groups s.groupSize vs) parts)
    (htotal : Completes s (.fold merge (parts.headD zero) parts.tail) total)
    (h : Completes s (.call report (some total)) v) :
    Completes s (.call (.intrinsic (.crossing .aggregate) t)
      (some (.tuple [.atClients vs, zero, accumulate, merge, report]))) (.atServer v) where
  runs := by
    obtain ⟨hl, hparts⟩ := zip_forall (hparts.imp fun _ _ h => h.runs)
    exact .aggregate hl hparts htotal.runs h.runs
  applied := by
    have same : Relator.RightUnique fun us part => Runs s (.fold accumulate zero us) part :=
      fun _ _ _ => Runs.unique
    have hruns := hparts.imp fun _ _ h => h.runs
    apply applied_of_visits rfl
    intro task' hv _
    cases hv with
    | accumulate hus =>
      obtain ⟨part, -, hpart⟩ := forall₂_mem hparts hus
      exact hpart.applied
    | merge hparts' =>
      rw [same.forall₂ hparts' hruns]
      exact htotal.applied
    | report haggregates =>
      obtain ⟨parts', hparts', htotal'⟩ := haggregates
      obtain rfl := same.forall₂ hparts' hruns
      rw [htotal'.unique htotal.runs]
      exact h.applied

theorem completes_fold_nil : Completes s (.fold f u []) u where
  runs := .foldNil
  applied := by
    apply applied_of_visits rfl
    rintro _ ⟨⟩

theorem completes_fold_cons {total : Value}
    (hu : Completes s (.call f (some (.tuple [total, v]))) u)
    {w : Value} (h : Completes s (.fold f u vs) w) : Completes s (.fold f total (v :: vs)) w where
  runs := .foldCons hu.runs h.runs
  applied := by
    apply applied_of_visits rfl
    intro task' hv _
    cases hv with
    | combine => exact hu.applied
    | items hu' =>
      rw [hu'.unique hu.runs]
      exact h.applied

end Calls

end TwoTier

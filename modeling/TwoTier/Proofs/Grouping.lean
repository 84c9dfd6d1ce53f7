import TwoTier.Proofs.Runs

/-! # Accumulating in groups

Values are accumulated group by group, each group from the start, and the results are merged. Where
merging a group's result does what accumulating the group would have done, this gives what
accumulating all values at once gives, however they are grouped.
-/

namespace TwoTier

open Filter

variable {s : Setting} {zero accumulate merge a r : Value} {values : List Value}

/-- Every large enough budget gives the value. -/
def Eval.Returns (x : Nat → Eval Value) (v : Value) : Prop :=
  ∃ n₀, ∀ n ≥ n₀, (x n).result = .ok v

theorem Task.returns_iff (task : Task) {v : Value} :
    Eval.Returns (task.eval s) v ↔ Runs s task v := by
  constructor
  · rintro ⟨n, h⟩
    exact Task.runs_of_eval (h n le_rfl)
  · intro h
    exact eventually_atTop.mp h.eval

theorem returns_fold {f total v : Value} {vs : List Value} :
    Eval.Returns (fun n => Eval.fold (Eval.call s n) f total vs) v ↔ Runs s (.fold f total vs) v :=
  Task.returns_iff (.fold f total vs)

theorem returns_call {f v : Value} {argument : Option Value} :
    Eval.Returns (fun n => Eval.call s n f argument) v ↔ Runs s (.call f argument) v :=
  Task.returns_iff (.call f argument)

theorem flatten_groupsFrom {α : Type} (size : Nat) (skipped : Nat) (as : List α) :
    (Eval.groupsFrom size skipped as).flatten = as.drop skipped := by
  induction as generalizing skipped with
  | nil => simp [Eval.groupsFrom]
  | cons a as ih =>
    cases skipped with
    | zero => simp [Eval.groupsFrom, ih]
    | succ n => simp [Eval.groupsFrom, ih]

theorem flatten_groups {α : Type} (size : Nat) (as : List α) : (Eval.groups size as).flatten = as :=
  flatten_groupsFrom size 0 as

theorem groups_zero {α : Type} (as : List α) : Eval.groups 0 as = Eval.groups 1 as := by
  unfold Eval.groups
  induction as with
  | nil => rfl
  | cons a as ih => simp [Eval.groupsFrom, ih]

theorem intrinsic_groups_zero (call : Value → Option Value → Eval Value) :
    Eval.intrinsic { s with groupSize := 0 } call =
    Eval.intrinsic { s with groupSize := 1 } call := by
  funext op t argument
  simp only [Eval.intrinsic, Eval.aggregate, Eval.within, groups_zero]

/-- Groups of no items are taken for groups of one, in all that is evaluated. -/
theorem eval_groups_zero (n : Nat) :
    Eval.expr { s with groupSize := 0 } n = Eval.expr { s with groupSize := 1 } n ∧
      Eval.call { s with groupSize := 0 } n = Eval.call { s with groupSize := 1 } n := by
  induction n with
  | zero => exact ⟨rfl, rfl⟩
  | succ n ih =>
    obtain ⟨hexpr, hcall⟩ := ih
    constructor
    · funext env e
      simp only [Eval.expr, hexpr, hcall]
    · funext f argument
      simp only [Eval.call, hexpr, hcall, intrinsic_groups_zero]

theorem runs_fold_append {f total v : Value} {us ws : List Value} :
    Runs s (.fold f total (us ++ ws)) v ↔
    ∃ total', Runs s (.fold f total us) total' ∧ Runs s (.fold f total' ws) v := by
  induction us generalizing total with
  | nil => simp [runs_fold_nil]
  | cons u us ih =>
    simp only [List.cons_append, runs_fold_cons, ih]
    constructor
    · rintro ⟨t, ht, t', ht', h⟩
      exact ⟨t', ⟨t, ht, ht'⟩, h⟩
    · rintro ⟨t', ⟨t, ht, ht'⟩, h⟩
      exact ⟨t, ht, t', ht', h⟩

/-- What can be accumulated from `a` can be accumulated from the start, and merging the result into
`a` gives the same. -/
def Compatible (s : Setting) (zero accumulate merge a : Value) (c : List Value) : Prop :=
  ∀ r, Eval.Returns (fun n => Eval.fold (Eval.call s n) accumulate a c) r →
    ∃ p, Eval.Returns (fun n => Eval.fold (Eval.call s n) accumulate zero c) p ∧
      Eval.Returns (fun n => Eval.call s n merge (some (.pair a p))) r

section Groups

/-- Merging is compatible with accumulating, from whatever some of the values give on, for the
values that come next. -/
def CompatibleAlong (s : Setting) (zero accumulate merge : Value) (values : List Value) : Prop :=
  ∀ before c a, before ++ c <+: values →
    Eval.Returns (fun n => Eval.fold (Eval.call s n) accumulate zero before) a →
    Compatible s zero accumulate merge a c

variable {before : List Value} {gs : List (List Value)}

/-- Groups that follow values accumulated in `a` can be accumulated from the start and merged into
`a`. -/
theorem CompatibleAlong.merges (h : CompatibleAlong s zero accumulate merge (before ++ gs.flatten))
    (hbefore : Runs s (.fold accumulate zero before) a)
    (hfold : Runs s (.fold accumulate a gs.flatten) r) :
    ∃ parts, List.Forall₂ (fun c p => Runs s (.fold accumulate zero c) p) gs parts ∧
      Runs s (.fold merge a parts) r := by
  induction gs generalizing before a with
  | nil => exact ⟨[], .nil, runs_fold_nil.mpr (runs_fold_nil.mp hfold)⟩
  | cons c gs ih =>
    rw [List.flatten_cons, ← List.append_assoc] at h
    rw [List.flatten_cons, runs_fold_append] at hfold
    obtain ⟨b, hb, hrest⟩ := hfold
    obtain ⟨p, hp, hcall⟩ := h before c a (List.prefix_append _ _) (returns_fold.mpr hbefore) b
      (returns_fold.mpr hb)
    obtain ⟨parts, hparts, htotal⟩ := ih h (runs_fold_append.mpr ⟨a, hbefore, hb⟩) hrest
    exact ⟨p :: parts, .cons (returns_fold.mp hp) hparts,
      runs_fold_cons.mpr ⟨b, returns_call.mp hcall, htotal⟩⟩

/-- The first group needs no merging, and without groups there is nothing to accumulate. -/
theorem CompatibleAlong.merges_all (h : CompatibleAlong s zero accumulate merge gs.flatten)
    (hfold : Runs s (.fold accumulate zero gs.flatten) r) :
    ∃ parts, List.Forall₂ (fun c p => Runs s (.fold accumulate zero c) p) gs parts ∧
      Runs s (.fold merge (parts.headD zero) parts.tail) r := by
  cases gs with
  | nil => exact ⟨[], .nil, runs_fold_nil.mpr (runs_fold_nil.mp hfold)⟩
  | cons c gs =>
    rw [List.flatten_cons, runs_fold_append] at hfold
    obtain ⟨b, hb, hrest⟩ := hfold
    obtain ⟨parts, hparts, htotal⟩ := CompatibleAlong.merges h hb hrest
    exact ⟨b :: parts, .cons hb hparts, htotal⟩

end Groups

/-- Groups of any size give what accumulating all values at once gives, if merging is compatible
with accumulating. For that the accumulators and values that come up will do. A size of zero is
taken for one. -/
theorem aggregate_eq_fold (hmerge : CompatibleAlong s zero accumulate merge values)
    (hfold : Eval.Returns (fun n => Eval.fold (Eval.call s n) accumulate zero values) r) :
    Eval.Returns (fun n => Eval.aggregate s (Eval.call s n) values zero accumulate merge) r ∧
    (s.groupSize = 0 → ∀ n, Eval.aggregate s (Eval.call s n) =
      Eval.aggregate { s with groupSize := 1 } (Eval.call { s with groupSize := 1 } n)) := by
  constructor
  · rw [returns_fold, ← flatten_groups s.groupSize values] at hfold
    obtain ⟨parts, hparts, htotal⟩ :=
      CompatibleAlong.merges_all ((flatten_groups s.groupSize values).symm ▸ hmerge) hfold
    have hparts := eventually_forall₂ (hparts.imp fun _ _ h => h.eval)
    refine eventually_atTop.mp ((hparts.and htotal.eval).mono fun n h => ?_)
    exact Eval.aggregate_ok.mpr ⟨parts, h.1, h.2⟩
  · intro hsize n
    obtain ⟨participants, size⟩ := s
    obtain rfl : size = 0 := hsize
    have hcall := (eval_groups_zero (s := { participants }) n).2
    funext values zero accumulate merge
    simp only [Eval.aggregate, groups_zero, hcall]

section Largest

variable {t : Ty} {n : Int} {ns : List Int} {v : Value}

theorem runs_call_max {m : Int} :
    Runs s (.call (.builtin .max t) (some (.pair (.int n) (.int m)))) v ↔ v = .int (max n m) := by
  have hmax : Value.applyBuiltin .max t (.pair (.int n) (.int m)) = .ok (.int (max n m)) := by
    rw [max_def_lt]
    rfl
  rw [runs_arithmetic, Option.getD_some, hmax, Except.ok.injEq, eq_comm]

theorem runs_fold_max :
    Runs s (.fold (.builtin .max t) (.int n) (ns.map .int)) v ↔ v = .int (ns.foldl max n) := by
  induction ns generalizing n with
  | nil => exact runs_fold_nil
  | cons m ns ih =>
    simp only [List.map_cons, List.foldl_cons, runs_fold_cons, runs_call_max, exists_eq_left, ih]

theorem compatibleAlong_max (ns : List Int) :
    CompatibleAlong s (.int n) (.builtin .max t) (.builtin .max t) (ns.map .int) := by
  rintro before c a ⟨rest, hns⟩ ha r hr
  obtain ⟨_, ms', rfl, hms, -⟩ := List.map_eq_append_iff.mp hns.symm
  obtain ⟨ms, ks, rfl, rfl, rfl⟩ := List.map_eq_append_iff.mp hms
  rw [returns_fold, runs_fold_max] at ha
  subst ha
  rw [returns_fold, runs_fold_max] at hr
  refine ⟨_, returns_fold.mpr (runs_fold_max.mpr rfl), returns_call.mpr (runs_call_max.mpr ?_)⟩
  have hassoc (a b : Int) (ls : List Int) : max a (ls.foldl max b) = ls.foldl max (max a b) :=
    List.foldl_assoc.symm
  have hstart : max (ms.foldl max n) n = ms.foldl max n := by rw [max_comm, hassoc, max_self]
  rw [hr, hassoc, hstart]

end Largest

/-- The largest of five numbers, but zero at the least, two by two. -/
theorem aggregate_eq_fold_max :
    CompatibleAlong ⟨5, 2⟩ (.int 0) (.builtin .max .int32) (.builtin .max .int32)
      [.int 3, .int (-4), .int 9, .int 2, .int 7] ∧
    Eval.Returns (fun n => Eval.aggregate ⟨5, 2⟩ (Eval.call ⟨5, 2⟩ n)
      [.int 3, .int (-4), .int 9, .int 2, .int 7] (.int 0) (.builtin .max .int32)
      (.builtin .max .int32)) (.int 9) := by
  have hmerge := compatibleAlong_max (s := ⟨5, 2⟩) (t := .int32) (n := 0) [3, -4, 9, 2, 7]
  exact ⟨hmerge, (aggregate_eq_fold hmerge (returns_fold.mpr (runs_fold_max.mpr rfl))).1⟩

end TwoTier

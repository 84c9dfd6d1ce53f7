import Mathlib.Data.List.Nodup
import Mathlib.Data.List.Perm.Subperm
import Mathlib.Tactic.Common
import TwoTier.Expr.Build
import TwoTier.Expr.Fresh
import TwoTier.Proofs.Induction

/-! # Names in expressions

Which references an expression leaves free, part by part, and that fresh names are fresh.
-/

namespace TwoTier

namespace Expr

attribute [local simp] freeIn subterms

/-- The expression refers to `x` outside of anything that binds it. -/
def Refers (e : Expr) (x : String) : Prop :=
  x ∈ e.freeIn []

theorem mem_freeInList {bound : List String} {es : List Expr} {x : String} :
    x ∈ freeInList bound es ↔ ∃ e ∈ es, x ∈ e.freeIn bound := by
  induction es with
  | nil => simp [freeInList]
  | cons e es ih => simp [freeInList, ih]

theorem freeIn_block_cons {bound : List String} {y : String} {e r : Expr}
    {ls : List (String × Expr)} {t : Ty} :
    (Expr.block ((y, e) :: ls) r t).freeIn bound = e.freeIn bound ++
    (Expr.block ls r t).freeIn (y :: bound) :=
  List.append_assoc _ _ _

theorem mem_freeIn {e : Expr} {bound : List String} {x : String} :
    x ∈ e.freeIn bound ↔ e.Refers x ∧ x ∉ bound := by
  unfold Refers
  induction e generalizing bound with
  | ref y t => by_cases h : y ∈ bound <;> simp only [freeIn, h] <;> grind
  | lit | intrinsic | builtin => simp [freeIn]
  | tuple es t ih =>
    simp only [freeIn, mem_freeInList]
    constructor
    · rintro ⟨e, he, hx⟩
      exact ⟨⟨e, he, ((ih e he).mp hx).1⟩, ((ih e he).mp hx).2⟩
    · rintro ⟨⟨e, he, hx⟩, hb⟩
      exact ⟨e, he, (ih e he).mpr ⟨hx, hb⟩⟩
  | select e i t ih => exact ih
  | call f a t ihf iha => grind [freeIn]
  | force f t ih => exact ih
  | lambda y e t ih => cases y <;> grind [freeIn]
  | block ls r t ihl ihr =>
    induction ls generalizing bound with
    | nil => exact ihr
    | cons l ls ih =>
      have he := @ihl l (by simp)
      have hls := @ih fun l hl => ihl l (by simp [hl])
      obtain ⟨y, e⟩ := l
      simp only [freeIn_block_cons, List.mem_append]
      grind

section Refers

variable {x : String} {t : Ty}

@[simp] theorem refers_ref {y : String} : (Expr.ref y t).Refers x ↔ x = y :=
  List.mem_singleton

@[simp] theorem refers_lit {a : Literal} : ¬ (Expr.lit a t).Refers x :=
  List.not_mem_nil

@[simp] theorem refers_intrinsic {u : String} : ¬ (Expr.intrinsic u t).Refers x :=
  List.not_mem_nil

@[simp] theorem refers_builtin {b : Builtin} : ¬ (Expr.builtin b t).Refers x :=
  List.not_mem_nil

@[simp] theorem refers_tuple {es : List Expr} : (Expr.tuple es t).Refers x ↔ ∃ e ∈ es, e.Refers x :=
  mem_freeInList

@[simp] theorem refers_select {e : Expr} {i : Nat} : (Expr.select e i t).Refers x ↔ e.Refers x :=
  Iff.rfl

@[simp] theorem refers_call {f a : Expr} : (Expr.call f a t).Refers x ↔ f.Refers x ∨ a.Refers x :=
  List.mem_append

@[simp] theorem refers_force {f : Expr} : (Expr.force f t).Refers x ↔ f.Refers x :=
  Iff.rfl

@[simp] theorem refers_lambda {y : Option String} {e : Expr} :
    (Expr.lambda y e t).Refers x ↔ e.Refers x ∧ y ≠ some x := by
  cases y with
  | none => exact (and_iff_left nofun).symm
  | some y =>
    have h : (Expr.lambda (some y) e t).Refers x ↔ e.Refers x ∧ x ∉ [y] := @mem_freeIn e [y] x
    simp [h, eq_comm]

@[simp] theorem refers_block_nil {r : Expr} : (Expr.block [] r t).Refers x ↔ r.Refers x :=
  Iff.rfl

@[simp] theorem refers_block_cons {y : String} {e r : Expr} {ls : List (String × Expr)} :
    (Expr.block ((y, e) :: ls) r t).Refers x ↔ e.Refers x ∨ x ≠ y ∧
    (Expr.block ls r t).Refers x := by
  have h := @mem_freeIn (.block ls r t) [y] x
  simp only [Refers, freeIn_block_cons, List.mem_append] at h ⊢
  rw [h]
  simp [and_comm]

theorem refers_mkBlock {r : Expr} {ls : List (String × Expr)} :
    (Expr.mkBlock ls r).Refers x ↔ (Expr.block ls r t).Refers x := by
  cases ls with
  | nil => simp [mkBlock]
  | cons l ls => exact Iff.rfl

end Refers

mutual

/-- The references to names that are neither in `bound` nor bound within the expression, with their
recorded types. -/
def referencesIn (bound : List String) : Expr → List (String × Ty)
  | .ref x t => if x ∈ bound then [] else [(x, t)]
  | .lit _ _ | .intrinsic _ _ | .builtin _ _ => []
  | .tuple es _ => referencesInList bound es
  | .select e _ _ => referencesIn bound e
  | .call f a _ => referencesIn bound f ++ referencesIn bound a
  | .force f _ => referencesIn bound f
  | .lambda (some x) e _ => referencesIn (x :: bound) e
  | .lambda none e _ => referencesIn bound e
  | .block ls r _ =>
    referencesInLocals bound ls ++ referencesIn (ls.foldl (fun b l => l.1 :: b) bound) r

def referencesInList (bound : List String) : List Expr → List (String × Ty)
  | [] => []
  | e :: es => referencesIn bound e ++ referencesInList bound es

def referencesInLocals (bound : List String) : List (String × Expr) → List (String × Ty)
  | [] => []
  | (x, e) :: ls => referencesIn bound e ++ referencesInLocals (x :: bound) ls

end

theorem mem_referencesInList {bound : List String} {es : List Expr} {p : String × Ty} :
    p ∈ referencesInList bound es ↔ ∃ e ∈ es, p ∈ e.referencesIn bound := by
  induction es with
  | nil => simp [referencesInList]
  | cons e es ih => simp [referencesInList, ih]

theorem referencesIn_block_cons {bound : List String} {y : String} {e r : Expr}
    {ls : List (String × Expr)} {t : Ty} :
    (Expr.block ((y, e) :: ls) r t).referencesIn bound =
      e.referencesIn bound ++ (Expr.block ls r t).referencesIn (y :: bound) :=
  List.append_assoc _ _ _

theorem map_fst_referencesIn {e : Expr} {bound : List String} :
    (e.referencesIn bound).map Prod.fst = e.freeIn bound := by
  induction e generalizing bound with
  | ref x t => by_cases h : x ∈ bound <;> simp [referencesIn, freeIn, h]
  | lit | intrinsic | builtin => rfl
  | tuple es t ih =>
    simp only [referencesIn, freeIn]
    induction es with
    | nil => rfl
    | cons e es ihes =>
      rw [referencesInList, freeInList, List.map_append, ih e (by simp),
        ihes fun e he => ih e (by simp [he])]
  | select e i t ih => exact ih
  | call f a t ihf iha => rw [referencesIn, freeIn, List.map_append, ihf, iha]
  | force f t ih => exact ih
  | lambda x e t ih => cases x <;> exact ih
  | block ls r t ihl ihr =>
    induction ls generalizing bound with
    | nil => exact ihr
    | cons l ls ih =>
      have he := @ihl l (by simp) bound
      obtain ⟨y, e⟩ := l
      rw [referencesIn_block_cons, freeIn_block_cons, List.map_append, he,
        ih fun l hl => ihl l (by simp [hl])]

theorem refers_of_mem_referencesIn {e : Expr} {bound : List String} {p : String × Ty}
    (h : p ∈ e.referencesIn bound) :
    e.Refers p.1 :=
  (mem_freeIn.mp (map_fst_referencesIn ▸ List.mem_map_of_mem h)).1

theorem mem_insertName {x y : String} {xs : List String} :
    x ∈ insertName y xs ↔ x = y ∨ x ∈ xs := by
  induction xs with
  | nil => simp [insertName]
  | cons z zs ih => grind [insertName]

theorem mem_free {e : Expr} {x : String} : x ∈ e.free ↔ e.Refers x := by
  have h : ∀ xs : List String, x ∈ xs.foldr insertName [] ↔ x ∈ xs := by
    intro xs
    induction xs with
    | nil => simp
    | cons y ys ih => simp [mem_insertName, ih]
  exact h _

theorem isClosed_iff {e : Expr} : e.isClosed = true ↔ ∀ x, ¬ e.Refers x := by
  simp only [isClosed, List.isEmpty_iff, List.eq_nil_iff_forall_not_mem, mem_free]

theorem mem_subtermsList {es : List Expr} {e' : Expr} :
    e' ∈ subtermsList es ↔ ∃ e ∈ es, e' ∈ e.subterms := by
  induction es with
  | nil => simp [subtermsList]
  | cons e es ih => simp [subtermsList, ih]

theorem mem_subtermsLocals {ls : List (String × Expr)} {e' : Expr} :
    e' ∈ subtermsLocals ls ↔ ∃ l ∈ ls, e' ∈ l.2.subterms := by
  induction ls with
  | nil => simp [subtermsLocals]
  | cons l ls ih => simp [subtermsLocals, ih]

section AllNames

variable {x : String} {t : Ty}

theorem allNames_ref {y : String} : (Expr.ref y t).allNames = [y] := rfl

theorem allNames_select {e : Expr} {i : Nat} : (Expr.select e i t).allNames = e.allNames := rfl

theorem allNames_call {f a : Expr} : (Expr.call f a t).allNames = f.allNames ++ a.allNames :=
  List.flatMap_append

theorem allNames_force {f : Expr} : (Expr.force f t).allNames = f.allNames := rfl

theorem allNames_lambda {y : Option String} {e : Expr} :
    (Expr.lambda y e t).allNames = y.toList ++ e.allNames := by
  cases y <;> rfl

theorem mem_allNames_tuple {es : List Expr} :
    x ∈ (Expr.tuple es t).allNames ↔ ∃ e ∈ es, x ∈ e.allNames := by
  simp only [allNames, subterms, List.mem_flatMap, List.mem_cons, mem_subtermsList]
  constructor
  · rintro ⟨e', rfl | ⟨e, he, he'⟩, hx⟩
    · simp [ownNames] at hx
    · exact ⟨e, he, e', he', hx⟩
  · rintro ⟨e, he, e', he', hx⟩
    exact ⟨e', .inr ⟨e, he, he'⟩, hx⟩

theorem mem_allNames_block {ls : List (String × Expr)} {r : Expr} :
    x ∈ (Expr.block ls r t).allNames ↔
    (∃ l ∈ ls, x = l.1 ∨ x ∈ l.2.allNames) ∨ x ∈ r.allNames := by
  simp only [allNames, subterms, List.mem_flatMap, List.mem_cons, List.mem_append,
    mem_subtermsLocals]
  constructor
  · rintro ⟨e', rfl | ⟨l, hl, he'⟩ | he', hx⟩
    · obtain ⟨l, hl, rfl⟩ := List.mem_map.mp hx
      exact .inl ⟨l, hl, .inl rfl⟩
    · exact .inl ⟨l, hl, .inr ⟨e', he', hx⟩⟩
    · exact .inr ⟨e', he', hx⟩
  · rintro (⟨l, hl, rfl | ⟨e', he', hx⟩⟩ | ⟨e', he', hx⟩)
    · exact ⟨_, .inl rfl, List.mem_map.mpr ⟨l, hl, rfl⟩⟩
    · exact ⟨e', .inr (.inl ⟨l, hl, he'⟩), hx⟩
    · exact ⟨e', .inr (.inr he'), hx⟩

theorem mem_allNames_block_cons {l : String × Expr} {ls : List (String × Expr)} {r : Expr}
    (h : x ∈ (Expr.block ls r t).allNames) : x ∈ (Expr.block (l :: ls) r t).allNames := by
  rcases mem_allNames_block.mp h with ⟨l', hl', hx⟩ | hx
  · exact mem_allNames_block.mpr (.inl ⟨l', List.mem_cons_of_mem _ hl', hx⟩)
  · exact mem_allNames_block.mpr (.inr hx)

end AllNames

theorem Refers.mem_allNames {e : Expr} {x : String} (h : e.Refers x) : x ∈ e.allNames := by
  induction e with
  | ref y t => simpa [allNames_ref] using h
  | lit | intrinsic | builtin => simp at h
  | tuple es t ih =>
    obtain ⟨e, he, hx⟩ := refers_tuple.mp h
    exact mem_allNames_tuple.mpr ⟨e, he, ih e he hx⟩
  | select e i t ih =>
    rw [allNames_select]
    exact ih (refers_select.mp h)
  | call f a t ihf iha =>
    rw [allNames_call, List.mem_append]
    exact (refers_call.mp h).imp ihf iha
  | force f t ih =>
    rw [allNames_force]
    exact ih (refers_force.mp h)
  | lambda y e t ih =>
    rw [allNames_lambda, List.mem_append]
    exact .inr (ih (refers_lambda.mp h).1)
  | block ls r t ihl ihr =>
    rw [mem_allNames_block]
    induction ls with
    | nil => exact .inr (ihr (refers_block_nil.mp h))
    | cons l ls ih =>
      rcases refers_block_cons.mp h with h | ⟨-, h⟩
      · exact .inl ⟨l, by simp, .inr (ihl l (by simp) h)⟩
      · rcases ih (fun l hl => ihl l (by simp [hl])) h with ⟨l, hl, h⟩ | h
        · exact .inl ⟨l, by simp [hl], h⟩
        · exact .inr h

end Expr

namespace Names

theorem isReserved_iff {names : Names} {x : String} :
    names.isReserved x = true ↔ x ∈ names.used := by
  simp [isReserved]

theorem mem_reserve {names : Names} {x y : String} :
    y ∈ (names.reserve x).used ↔ y = x ∨ y ∈ names.used := by
  unfold reserve
  split
  · rename_i h
    rw [isReserved_iff] at h
    grind
  · simp

theorem mem_reserveList {names : Names} {xs : List String} {y : String} :
    y ∈ (names.reserveList xs).used ↔ y ∈ xs ∨ y ∈ names.used := by
  induction xs generalizing names with
  | nil => simp [reserveList]
  | cons x xs ih =>
    have h := @ih (names.reserve x)
    simp only [reserveList, List.foldl_cons] at h ⊢
    rw [h, mem_reserve, List.mem_cons]
    tauto

/-- The search for a free number ends at a free name, unless every candidate is taken. -/
theorem numbered_free {names : Names} {base : String} (fuel n : Nat) :
    names.numbered base fuel n ∉ names.used ∨
      ∀ i ≤ fuel, base ++ "_" ++ toString (n + i) ∈ names.used := by
  induction fuel generalizing n with
  | zero =>
    by_cases h : base ++ "_" ++ toString n ∈ names.used
    · exact .inr fun i hi => by simpa [Nat.le_zero.mp hi] using h
    · exact .inl h
  | succ fuel ih =>
    simp only [numbered, isReserved_iff]
    split
    · rename_i h
      refine (ih (n + 1)).imp_right fun hi i hle => ?_
      cases i with
      | zero => exact h
      | succ i => simpa [Nat.add_assoc, Nat.add_comm 1] using hi i (by omega)
    · rename_i h
      exact .inl h

theorem candidate_injective (base : String) :
    Function.Injective fun n : Nat => base ++ "_" ++ toString n := by
  intro n m h
  have h : toString n = toString m := (String.append_right_inj _).mp h
  rw [Nat.toString_eq_ofList_toDigits, Nat.toString_eq_ofList_toDigits, String.ofList_inj] at h
  simpa using congrArg (Nat.ofDigitChars 10 · 0) h

theorem pick_not_mem (names : Names) (base : String) : names.pick base ∉ names.used := by
  unfold pick
  split
  · rcases @numbered_free names base names.used.length 1 with h | h
    · exact h
    · -- One more candidate than there are names cannot all be taken.
      exfalso
      let candidates :=
        (List.range (names.used.length + 1)).map fun i => base ++ "_" ++ toString (1 + i)
      have hnodup : candidates.Nodup := List.nodup_range.map fun i j hij =>
        Nat.add_left_cancel (candidate_injective base hij)
      have hsub : candidates ⊆ names.used := fun x hx => by
        obtain ⟨i, hi, rfl⟩ := List.mem_map.mp hx
        exact h i (Nat.lt_succ_iff.mp (List.mem_range.mp hi))
      have hle := (List.subperm_of_subset hnodup hsub).length_le
      simp only [candidates, List.length_map, List.length_range] at hle
      omega
  · rename_i h
    simpa [isReserved_iff] using h

theorem fresh_not_mem {names names' : Names} {base x : String}
    (h : names.fresh base = (x, names')) :
    x ∉ names.used := by
  simp only [fresh, Prod.mk.injEq] at h
  exact h.1 ▸ names.pick_not_mem base

theorem mem_fresh {names names' : Names} {base x y : String} (h : names.fresh base = (x, names')) :
    y ∈ names'.used ↔ y = x ∨ y ∈ names.used := by
  simp only [fresh, Prod.mk.injEq] at h
  rw [← h.2, h.1, mem_reserve]

theorem fresh_avoids {names : Names} (base : String) {used : List String} (h : used ⊆ names.used) :
    (names.fresh base).1 ∉ used ∧ used ⊆ (names.fresh base).2.used :=
  ⟨fun hx => fresh_not_mem rfl (h hx), fun _ hy => (mem_fresh rfl).mpr (.inr (h hy))⟩

theorem mem_avoiding {e : Expr} {x : String} : x ∈ (avoiding e).used ↔ x ∈ e.allNames := by
  simp [avoiding, reserveAll, mem_reserveList]

end Names

end TwoTier

import Mathlib.Algebra.BigOperators.Group.List.Basic
import Mathlib.Algebra.Order.BigOperators.Group.List
import Mathlib.Algebra.Order.Ring.Int
import Mathlib.Data.List.Infix
import TwoTier.Proofs.SecureSum

/-! # What secure sums compute

A value of an integer type is given by its numbers, each at its place. A secure sum takes the
numbers at each place by themselves: it is a sum of integers there, with the number of the parameter
that goes with the place.
-/

namespace TwoTier

namespace Ty

def nextPlace : List Nat → List Nat
  | [] => []
  | i :: place => (i + 1) :: place

mutual

/-- Where the values of an integer type have their numbers: positions in tuples, from the outside
in. -/
def places : Ty → List (List Nat)
  | .scalar .int32 => [[]]
  | .tuple ts => placesEach ts
  | _ => []

def placesEach : List Ty → List (List Nat)
  | [] => []
  | t :: ts => (places t).map (0 :: ·) ++ (placesEach ts).map nextPlace

end

theorem forall_places_cons {t : Ty} {ts : List Ty} {P : List Nat → Prop} :
    (∀ l ∈ (Ty.tuple (t :: ts)).places, P l) ↔
      (∀ l ∈ t.places, P (0 :: l)) ∧ ∀ l ∈ (Ty.tuple ts).places, P (nextPlace l) := by
  simp [places, placesEach, or_imp, forall_and]

theorem isInteger_cons {t : Ty} {ts : List Ty} : (Ty.tuple (t :: ts)).isInteger = true ↔
    t.isInteger = true ∧ (Ty.tuple ts).isInteger = true := by
  simp [isInteger_tuple]

theorem isInteger_induction {motive : (t : Ty) → t.isInteger = true → Prop}
    (int : motive (.scalar .int32) rfl) (nil : motive (.tuple []) rfl)
    (cons : ∀ t ts (ht : t.isInteger = true) (hts : (Ty.tuple ts).isInteger = true), motive t ht →
      motive (.tuple ts) hts → motive (.tuple (t :: ts)) (isInteger_cons.mpr ⟨ht, hts⟩))
    (t : Ty) (h : t.isInteger = true) : motive t h := by
  induction t with
  | scalar k =>
    cases k <;> simp only [isInteger, Bool.false_eq_true] at h
    exact int
  | tuple ts ih =>
    induction ts with
    | nil => exact nil
    | cons t ts iht =>
      obtain ⟨ht, hts⟩ := isInteger_cons.mp h
      exact cons t ts ht hts (ih t (by simp) ht) (iht (fun t ht => ih t (by simp [ht])) hts)
  | seq | func | thunk | placed => simp [isInteger] at h

theorem suits_self {t : Ty} (h : t.isInteger = true) : t.suits t = true := by
  induction t, h using isInteger_induction with
  | int | nil => rfl
  | cons t ts ht hts iht ihts =>
    rw [suits, suitsEach, iht]
    exact ihts

end Ty

namespace Value

/-- The number at a place, zero where there is none. -/
def number : Value → List Nat → Int
  | .int n, [] => n
  | .tuple vs, i :: place => match vs[i]? with
    | some v => v.number place
    | none => 0
  | _, _ => 0

/-- The number of a parameter that goes with a place. One number goes with all places below its
own. -/
def numberFor : Value → List Nat → Int
  | .int n, _ => n
  | .tuple ps, i :: place => match ps[i]? with
    | some p => p.numberFor place
    | none => 0
  | _, _ => 0

@[simp] theorem number_int {n : Int} : (Value.int n).number [] = n := rfl

@[simp] theorem number_zero {v : Value} {vs : List Value} {l : List Nat} :
    (Value.tuple (v :: vs)).number (0 :: l) = v.number l := rfl

@[simp] theorem number_next {v : Value} {vs : List Value} {l : List Nat} :
    (Value.tuple (v :: vs)).number (Ty.nextPlace l) = (Value.tuple vs).number l := by
  cases l <;> rfl

@[simp] theorem numberFor_int {n : Int} {l : List Nat} : (Value.int n).numberFor l = n := by
  cases l <;> rfl

@[simp] theorem numberFor_zero {p : Value} {ps : List Value} {l : List Nat} :
    (Value.tuple (p :: ps)).numberFor (0 :: l) = p.numberFor l := rfl

@[simp] theorem numberFor_next {p : Value} {ps : List Value} {l : List Nat} :
    (Value.tuple (p :: ps)).numberFor (Ty.nextPlace l) = (Value.tuple ps).numberFor l := by
  cases l <;> rfl

end Value

open Value

variable {s : Setting} {m p : Ty} {v w y : Value}

theorem eq_of_numbers (hm : m.isInteger = true) (hv : Inhabits s m v) (hw : Inhabits s m w)
    (h : ∀ l ∈ m.places, v.number l = w.number l) : v = w := by
  induction m, hm using Ty.isInteger_induction generalizing v w with
  | int =>
    obtain ⟨a, rfl⟩ := inhabits_int.mp hv
    obtain ⟨b, rfl⟩ := inhabits_int.mp hw
    simpa [Ty.places] using h
  | nil => rw [inhabits_nil.mp hv, inhabits_nil.mp hw]
  | cons t ts _ _ iht ihts =>
    obtain ⟨v, vs, rfl, hv, hvs⟩ := inhabits_cons.mp hv
    obtain ⟨w, ws, rfl, hw, hws⟩ := inhabits_cons.mp hw
    simp only [Ty.forall_places_cons, number_zero, number_next] at h
    cases iht hv hw h.1
    cases ihts hvs hws h.2
    rfl

theorem exists_numbers (hm : m.isInteger = true) (g : List Nat → Int) :
    ∃ w, Inhabits s m w ∧ ∀ l ∈ m.places, w.number l = g l := by
  induction m, hm using Ty.isInteger_induction generalizing g with
  | int => exact ⟨.int (g []), inhabits_int.mpr ⟨_, rfl⟩, by simp [Ty.places]⟩
  | nil => exact ⟨.tuple [], inhabits_nil.mpr rfl, by simp [Ty.places, Ty.placesEach]⟩
  | cons t ts _ _ iht ihts =>
    obtain ⟨w, hw, hg⟩ := iht fun l => g (0 :: l)
    obtain ⟨_, hws, hgs⟩ := ihts fun l => g (Ty.nextPlace l)
    obtain ⟨ws, _, rfl, -⟩ := id hws
    refine ⟨.tuple (w :: ws), inhabits_cons.mpr ⟨w, ws, rfl, hw, hws⟩, ?_⟩
    simpa only [Ty.forall_places_cons, number_zero, number_next] using ⟨hg, hgs⟩

theorem numberFor_eq_number (hm : m.isInteger = true) (hv : Inhabits s m v) :
    ∀ l ∈ m.places, v.numberFor l = v.number l := by
  induction m, hm using Ty.isInteger_induction generalizing v with
  | int =>
    obtain ⟨a, rfl⟩ := inhabits_int.mp hv
    simp [Ty.places]
  | nil => simp [Ty.places, Ty.placesEach]
  | cons t ts _ _ iht ihts =>
    obtain ⟨v, vs, rfl, hv, hvs⟩ := inhabits_cons.mp hv
    simp only [Ty.forall_places_cons, number_zero, number_next, numberFor_zero, numberFor_next]
    exact ⟨iht hv, ihts hvs⟩

section Splitting

variable {f : Int → Int → Except EvalFault Int} {t : Ty} {ts : List Ty} {y₁ y₂ : Value}

/-- A parameter for a tuple, split into those for its first element and for the others. -/
inductive Splits : Value → Value → Value → Prop where
  | all {n : Int} : Splits (.int n) (.int n) (.int n)
  | each {a : Value} {as : List Value} : Splits (.tuple (a :: as)) a (.tuple as)

theorem splits_of_suits (hs : p.suits (.tuple (t :: ts)) = true) (hy : Inhabits s p y) :
    ∃ y₁ y₂, Splits y y₁ y₂ ∧ (∃ q, q.suits t = true ∧ Inhabits s q y₁) ∧
      ∃ q, q.suits (.tuple ts) = true ∧ Inhabits s q y₂ := by
  rcases Ty.suits_cases hs with rfl | ⟨ps, _, rfl, ⟨⟩, hps⟩
  · obtain ⟨n, rfl⟩ := inhabits_int.mp hy
    exact ⟨_, _, .all, ⟨.int32, rfl, hy⟩, .int32, rfl, hy⟩
  · obtain _ | ⟨q, qs⟩ := ps
    · cases hps
    simp only [Ty.suitsEach, Bool.and_eq_true] at hps
    obtain ⟨a, as, rfl, ha, has⟩ := inhabits_cons.mp hy
    exact ⟨_, _, .each, ⟨q, hps.1, ha⟩, .tuple qs, hps.2, has⟩

theorem Splits.numberFor (h : Splits y y₁ y₂) (l : List Nat) :
    y.numberFor (0 :: l) = y₁.numberFor l ∧ y.numberFor (Ty.nextPlace l) = y₂.numberFor l := by
  cases h <;> simp

theorem Splits.leafwise_ok {vs : List Value} (h : Splits y y₁ y₂) :
    leafwise f (.tuple (v :: vs)) y = .ok w ↔
    ∃ u us, leafwise f v y₁ = .ok u ∧ leafwise f (.tuple vs) y₂ = .ok (.tuple us) ∧
    w = .tuple (u :: us) := by
  cases h with
  | all =>
    simp only [leafwise, leafwiseAll, except_map_ok, except_bind_ok, except_pure_ok]
    grind
  | each =>
    simp only [leafwise, leafwiseEach_cons, List.length_cons, Nat.add_right_cancel_iff]
    split
    · simp only [except_map_ok, except_bind_ok]
      grind
    · simp

end Splitting

/-- Pairing numbers with their parameters gives a value if `f` gives a number at every place, and
then with these. -/
theorem leafwise_ok {f : Int → Int → Except EvalFault Int} (hm : m.isInteger = true)
    (hs : p.suits m = true) (hv : Inhabits s m v) (hy : Inhabits s p y) : leafwise f v y = .ok w ↔
      Inhabits s m w ∧ ∀ l ∈ m.places, f (v.number l) (y.numberFor l) = .ok (w.number l) := by
  induction m, hm using Ty.isInteger_induction generalizing p v y w with
  | int =>
    obtain ⟨a, rfl⟩ := inhabits_int.mp hv
    obtain rfl | ⟨_, _, _, ⟨⟩, _⟩ := Ty.suits_cases hs
    obtain ⟨b, rfl⟩ := inhabits_int.mp hy
    rw [leafwise_int, except_map_ok, inhabits_int]
    constructor
    · rintro ⟨c, hc, rfl⟩
      exact ⟨⟨c, rfl⟩, by simpa [Ty.places] using hc⟩
    · rintro ⟨⟨c, rfl⟩, hc⟩
      exact ⟨c, by simpa [Ty.places] using hc, rfl⟩
  | nil =>
    obtain rfl := inhabits_nil.mp hv
    have hnil : leafwise f (.tuple []) y = .ok (.tuple []) := by
      obtain rfl | ⟨ps, _, rfl, ⟨⟩, hps⟩ := Ty.suits_cases hs
      · obtain ⟨n, rfl⟩ := inhabits_int.mp hy
        rfl
      · obtain rfl := List.eq_nil_of_length_eq_zero (Ty.length_of_suitsEach hps)
        rw [inhabits_nil.mp hy]
        rfl
    simp [hnil, inhabits_nil, Ty.places, Ty.placesEach, eq_comm]
  | cons t ts _ _ iht ihts =>
    obtain ⟨v, vs, rfl, hv, hvs⟩ := inhabits_cons.mp hv
    obtain ⟨y₁, y₂, hsplits, ⟨q₁, hs₁, hy₁⟩, q₂, hs₂, hy₂⟩ := splits_of_suits hs hy
    simp only [hsplits.leafwise_ok, iht hs₁ hv hy₁, ihts hs₂ hvs hy₂, inhabits_cons,
      Ty.forall_places_cons, number_zero, number_next, hsplits.numberFor]
    constructor
    · rintro ⟨u, us, ⟨hu, hnumbers⟩, ⟨hus, hnexts⟩, rfl⟩
      exact ⟨⟨u, us, rfl, hu, hus⟩, by simpa using hnumbers, by simpa using hnexts⟩
    · rintro ⟨⟨u, us, rfl, hu, hus⟩, hnumbers, hnexts⟩
      exact ⟨u, us, ⟨hu, by simpa using hnumbers⟩, ⟨hus, by simpa using hnexts⟩, rfl⟩

def plus (a b : Int) : Except EvalFault Int :=
  match Whole.add? a b with
  | some c => .ok c
  | none => .error (.overflow .add)

theorem combine_int {a b : Int} : combine .add (.int a) (.int b) = (plus a b).map .int := by
  simp only [combine, plus, Builtin.onWhole]
  cases Whole.add? a b <;> rfl

theorem combine_cons_ok {op : Builtin} {u : Value} {vs ws : List Value} :
    combine op (.tuple (v :: vs)) (.tuple (w :: ws)) = .ok u ↔ ∃ x xs, combine op v w = .ok x ∧
      combine op (.tuple vs) (.tuple ws) = .ok (.tuple xs) ∧ u = .tuple (x :: xs) := by
  simp only [combine, combineAll, List.length_cons, Nat.add_right_cancel_iff]
  split
  · simp only [except_map_ok, except_bind_ok, except_pure_ok]
    grind
  · simp

theorem combine_ok_iff_leafwise {u : Value} (hm : m.isInteger = true) (hv : Inhabits s m v)
    (hw : Inhabits s m w) :
    combine .add v w = .ok u ↔ leafwise plus v w = .ok u := by
  induction m, hm using Ty.isInteger_induction generalizing v w u with
  | int =>
    obtain ⟨a, rfl⟩ := inhabits_int.mp hv
    obtain ⟨b, rfl⟩ := inhabits_int.mp hw
    rw [combine_int, leafwise_int]
  | nil =>
    rw [inhabits_nil.mp hv, inhabits_nil.mp hw]
    rfl
  | cons t ts _ _ iht ihts =>
    obtain ⟨v, vs, rfl, hv, hvs⟩ := inhabits_cons.mp hv
    obtain ⟨w, ws, rfl, hw, hws⟩ := inhabits_cons.mp hw
    simp only [combine_cons_ok, Splits.each.leafwise_ok, iht hv hw, ihts hvs hws]

/-- The computation gives a value of the type if the others give a number at every place, and then
with these. -/
structure Placewise (s : Setting) (m : Ty) (x : Except EvalFault Value)
    (g : List Nat → Except EvalFault Value) : Prop where
  ok : ∀ w, x = .ok w ↔ Inhabits s m w ∧ ∀ l ∈ m.places, g l = .ok (.int (w.number l))
  isInt : ∀ l ∈ m.places, ∀ u, g l = .ok u → ∃ n, u = .int n

section Placewise

variable {x : Except EvalFault Value} {g : List Nat → Except EvalFault Value} {op : Crossing}

theorem placewise_pure (hm : m.isInteger = true) (hv : Inhabits s m v) :
    Placewise s m (.ok v) fun l => .ok (.int (v.number l)) where
  ok w := by
    constructor
    · rintro ⟨⟩
      exact ⟨hv, fun _ _ => rfl⟩
    · rintro ⟨hw, h⟩
      rw [eq_of_numbers hm hv hw fun l hl => by simpa using h l hl]
  isInt := by simp

theorem Placewise.bind {f : Value → Except EvalFault Value}
    {h : List Nat → Value → Except EvalFault Value}
    (hm : m.isInteger = true) (hx : Placewise s m x g)
    (hf : ∀ v, Inhabits s m v → Placewise s m (f v) fun l => h l (.int (v.number l))) :
    Placewise s m (x >>= f) fun l => g l >>= h l where
  ok w := by
    simp only [except_bind_ok]
    constructor
    · rintro ⟨v, hv, hw⟩
      obtain ⟨hv, hgv⟩ := (hx.ok v).mp hv
      obtain ⟨hw, hhw⟩ := ((hf v hv).ok w).mp hw
      exact ⟨hw, fun l hl => ⟨_, hgv l hl, hhw l hl⟩⟩
    · rintro ⟨hw, hbind⟩
      -- The numbers between the two computations are those of one value.
      have hbetween :
          ∀ l ∈ m.places, ∃ n, g l = .ok (.int n) ∧ h l (.int n) = .ok (.int (w.number l)) := by
        intro l hl
        obtain ⟨u, hg, hh⟩ := hbind l hl
        obtain ⟨n, rfl⟩ := hx.isInt l hl u hg
        exact ⟨n, hg, hh⟩
      choose! n hg hh using hbetween
      obtain ⟨v, hv, hnumbers⟩ := exists_numbers (s := s) hm n
      refine ⟨v, (hx.ok v).mpr ⟨hv, fun l hl => ?_⟩, ((hf v hv).ok w).mpr ⟨hw, fun l hl => ?_⟩⟩
      · rw [hnumbers l hl, hg l hl]
      · rw [hnumbers l hl, hh l hl]
  isInt l hl u hu := by
    obtain ⟨a, ha, hu⟩ := except_bind_ok.mp hu
    obtain ⟨n, rfl⟩ := hx.isInt l hl a ha
    obtain ⟨v, hv, hnumbers⟩ := exists_numbers (s := s) hm fun _ => n
    exact (hf v hv).isInt l hl u (by rwa [hnumbers l hl])

theorem placewise_leafwise {f : Int → Int → Except EvalFault Int} (hm : m.isInteger = true)
    (hs : p.suits m = true) (hv : Inhabits s m v) (hy : Inhabits s p y) :
    Placewise s m (leafwise f v y) fun l =>
    leafwise f (.int (v.number l)) (.int (y.numberFor l)) where
  ok w := by simp [leafwise_ok hm hs hv hy, leafwise_int, except_map_ok]
  isInt l _ u hu := by
    rw [leafwise_int, except_map_ok] at hu
    obtain ⟨n, -, rfl⟩ := hu
    exact ⟨n, rfl⟩

theorem placewise_combine (hm : m.isInteger = true) (hv : Inhabits s m v) (hw : Inhabits s m w) :
    Placewise s m (combine .add v w) fun l =>
    combine .add (.int (v.number l)) (.int (w.number l)) := by
  have hadd := placewise_leafwise (f := plus) hm (Ty.suits_self hm) hv hw
  constructor
  · intro u
    rw [combine_ok_iff_leafwise hm hv hw, hadd.ok]
    refine and_congr_right fun _ => forall₂_congr fun l hl => ?_
    rw [combine_int, leafwise_int, numberFor_eq_number hm hw l hl]
  · intro l hl u hu
    rw [combine_int, ← leafwise_int, ← numberFor_eq_number hm hw l hl] at hu
    exact hadd.isInt l hl u hu

theorem placewise_accept (hm : m.isInteger = true) (hs : p.suits m = true) (hv : Inhabits s m v)
    (hy : Inhabits s p y) : Placewise s m (accept op y v) fun l =>
    accept op (.int (y.numberFor l)) (.int (v.number l)) := by
  cases op with
  | boundedSum => exact placewise_leafwise hm hs hv hy
  | broadcast | aggregate | bitwidthSum | modularSum => exact placewise_pure hm hv

theorem placewise_reduce (hm : m.isInteger = true) (hs : p.suits m = true) (hv : Inhabits s m v)
    (hy : Inhabits s p y) : Placewise s m (reduce op y v) fun l =>
    reduce op (.int (y.numberFor l)) (.int (v.number l)) := by
  cases op with
  | bitwidthSum | modularSum => exact placewise_leafwise hm hs hv hy
  | broadcast | aggregate | boundedSum => exact placewise_pure hm hv

variable {us : List Value}

theorem placewise_sumAdmitted (hm : m.isInteger = true) (hs : p.suits m = true)
    (hv : Inhabits s m v) (hy : Inhabits s p y) (hus : ∀ u ∈ us, Inhabits s m u) :
    Placewise s m (sumAdmitted op y v us) fun l =>
      sumAdmitted op (.int (y.numberFor l)) (.int (v.number l))
          (us.map fun u => .int (u.number l)) := by
  induction us generalizing v with
  | nil => exact placewise_pure hm hv
  | cons u us ih =>
    simp only [List.mem_cons, forall_eq_or_imp] at hus
    refine (placewise_accept hm hs hus.1 hy).bind hm fun a ha => ?_
    exact (placewise_combine hm hv ha).bind hm fun b hb => ih hb hus.2

theorem eq_empty_or_ne (hm : m.isInteger = true) (hv : Inhabits s m v) :
    (m = .tuple [] ∧ v = .tuple []) ∨ v ≠ .tuple [] := by
  cases m, hm using Ty.isInteger_induction with
  | int =>
    obtain ⟨n, rfl⟩ := inhabits_int.mp hv
    exact .inr (by simp)
  | nil => exact .inl ⟨rfl, inhabits_nil.mp hv⟩
  | cons t ts =>
    obtain ⟨v, vs, rfl, -, -⟩ := inhabits_cons.mp hv
    exact .inr (by simp)

theorem placewise_secureSum (hm : m.isInteger = true) (hs : p.suits m = true) (hy : Inhabits s p y)
    (hne : us ≠ []) (hus : ∀ u ∈ us, Inhabits s m u) :
    Placewise s m (secureSum op m us y) fun l =>
      secureSum op .int32 (us.map fun u => .int (u.number l)) (.int (y.numberFor l)) := by
  obtain ⟨u, us, rfl⟩ := List.exists_cons_of_ne_nil hne
  simp only [List.mem_cons, forall_eq_or_imp] at hus
  rcases eq_empty_or_ne hm hus.1 with ⟨rfl, rfl⟩ | hu
  · exact ⟨by simp [secureSum, inhabits_nil, Ty.places, Ty.placesEach, Value.empty, eq_comm],
      by simp [Ty.places, Ty.placesEach]⟩
  · rw [secureSum]
    · refine (placewise_accept hm hs hus.1 hy).bind hm fun a ha => ?_
      refine (placewise_sumAdmitted hm hs ha hy hus.2).bind hm fun b hb => ?_
      exact placewise_reduce hm hs hb hy
    · exact hu

theorem Placewise.computes {C : List Nat → Prop} {F : List Nat → Int} (hm : m.isInteger = true)
    (hx : Placewise s m x g) (hg : ∀ l ∈ m.places, ∀ n, g l = .ok (.int n) ↔ C l ∧ n = F l) :
    ((∃ w, x = .ok w) ↔ ∀ l ∈ m.places, C l) ∧
      ∀ w, x = .ok w → Inhabits s m w ∧ ∀ l ∈ m.places, C l ∧ w.number l = F l := by
  have hok : ∀ w, x = .ok w ↔ Inhabits s m w ∧ ∀ l ∈ m.places, C l ∧ w.number l = F l := fun w => by
    rw [hx.ok]
    exact and_congr_right fun _ => forall₂_congr fun l hl => hg l hl _
  refine ⟨⟨?_, fun hC => ?_⟩, fun w hw => (hok w).mp hw⟩
  · rintro ⟨w, hw⟩ l hl
    exact (((hok w).mp hw).2 l hl).1
  · obtain ⟨w, hw, hnumbers⟩ := exists_numbers (s := s) hm F
    exact ⟨w, (hok w).mpr ⟨hw, fun l hl => ⟨hC l hl, hnumbers l hl⟩⟩⟩

end Placewise

section Numbers

variable {op : Crossing} {x k t n : Int} {xs : List Int} {u : Value}

theorem accept_int : accept op (.int k) (.int x) = .ok u ↔ (op = .boundedSum → 0 ≤ x ∧ x ≤ k) ∧
    u = .int x := by
  cases op with
  | boundedSum =>
    rw [accept, leafwise_int]
    by_cases h : 0 ≤ x ∧ x ≤ k <;> simp [h, Except.map, @eq_comm _ u]
  | broadcast | aggregate | bitwidthSum | modularSum => simp [accept, @eq_comm _ u]

theorem combine_int_ok : combine .add (.int t) (.int x) = .ok u ↔ Whole.inRange (t + x) = true ∧
    u = .int (t + x) := by
  simp only [combine, Builtin.onWhole, Whole.add?, Whole.checked]
  by_cases h : Whole.inRange (t + x) = true <;> simp [h, @eq_comm _ u]

/-- Numbers are summed if all are admitted and no sum on the way leaves the range. By induction on
the numbers. -/
theorem sumAdmitted_int (ht : Whole.inRange t = true) :
    sumAdmitted op (.int k) (.int t) (xs.map .int) = .ok u ↔
    (op = .boundedSum → ∀ x ∈ xs, 0 ≤ x ∧ x ≤ k) ∧
    (∀ ys, ys <+: xs → Whole.inRange (t + ys.sum) = true) ∧
      u = .int (t + xs.sum) := by
  induction xs generalizing t with
  | nil => simp [sumAdmitted, ht, @eq_comm _ u]
  | cons x xs ih =>
    have hstep : sumAdmitted op (.int k) (.int t) ((x :: xs).map .int) = .ok u ↔
        (op = .boundedSum → 0 ≤ x ∧ x ≤ k) ∧ Whole.inRange (t + x) = true ∧
          sumAdmitted op (.int k) (.int (t + x)) (xs.map .int) = .ok u := by
      simp only [List.map_cons, sumAdmitted, except_bind_ok, accept_int]
      constructor
      · rintro ⟨_, ⟨hx, rfl⟩, _, h, hxs⟩
        obtain ⟨hr, rfl⟩ := combine_int_ok.mp h
        exact ⟨hx, hr, hxs⟩
      · rintro ⟨hx, hr, hxs⟩
        exact ⟨_, ⟨hx, rfl⟩, _, combine_int_ok.mpr ⟨hr, rfl⟩, hxs⟩
    rw [hstep]
    constructor
    · rintro ⟨hx, hr, h⟩
      obtain ⟨hxs, hrs, rfl⟩ := (ih hr).mp h
      refine ⟨fun hop => List.forall_mem_cons.mpr ⟨hx hop, hxs hop⟩, fun ys hys => ?_,
        by rw [List.sum_cons, Int.add_assoc]⟩
      obtain rfl | ⟨zs, rfl, hzs⟩ := List.prefix_cons_iff.mp hys
      · simpa using ht
      · simpa [Int.add_assoc] using hrs zs hzs
    · rintro ⟨hxs, hrs, rfl⟩
      have hr : Whole.inRange (t + x) = true := by simpa using hrs [x] (by simp)
      refine ⟨fun hop => hxs hop x (by simp), hr, (ih hr).mpr ⟨fun hop y hy =>
        hxs hop y (by simp [hy]), fun ys hys => ?_, by rw [List.sum_cons, Int.add_assoc]⟩⟩
      simpa [Int.add_assoc] using hrs (x :: ys) (by simpa using hys)

/-- No sum of the first few numbers leaves the range. -/
def Whole.SumsInRange (xs : List Int) : Prop := ∀ ys, ys <+: xs → Whole.inRange ys.sum = true

instance {xs : List Int} : Decidable (Whole.SumsInRange xs) :=
  decidable_of_iff (∀ ys ∈ xs.inits, Whole.inRange ys.sum = true) (by simp [Whole.SumsInRange])

theorem secureSum_int (hne : xs ≠ []) (hxs : ∀ x ∈ xs, Whole.inRange x = true) :
    secureSum op .int32 (xs.map .int) (.int k) = .ok u ↔
    (op = .boundedSum → ∀ x ∈ xs, 0 ≤ x ∧ x ≤ k) ∧
      Whole.SumsInRange xs ∧ reduce op (.int k) (.int xs.sum) = .ok u := by
  obtain ⟨x, xs, rfl⟩ := List.exists_cons_of_ne_nil hne
  have hx : Whole.inRange x = true := hxs x (by simp)
  have hsums : Whole.SumsInRange (x :: xs) ↔ ∀ ys, ys <+: xs →
      Whole.inRange (x + ys.sum) = true := by
    constructor
    · intro h ys hys
      simpa using h (x :: ys) (by simpa using hys)
    · intro h ys hys
      obtain rfl | ⟨zs, rfl, hzs⟩ := List.prefix_cons_iff.mp hys
      · rfl
      · simpa using h zs hzs
  simp only [List.map_cons, secureSum, except_bind_ok, accept_int, hsums, List.forall_mem_cons,
    List.sum_cons]
  constructor
  · rintro ⟨_, ⟨hfirst, rfl⟩, _, h, hu⟩
    obtain ⟨hrest, hrs, rfl⟩ := (sumAdmitted_int hx).mp h
    exact ⟨fun hop => ⟨hfirst hop, hrest hop⟩, hrs, hu⟩
  · rintro ⟨hadmitted, hrs, hu⟩
    have hsum := (sumAdmitted_int hx).mpr ⟨fun hop => (hadmitted hop).2, hrs, rfl⟩
    exact ⟨_, ⟨fun hop => (hadmitted hop).1, rfl⟩, _, hsum, hu⟩

theorem bitwidthSum_int (k : Int) (xs : List Int) (n : Int) (hne : xs ≠ [])
    (hxs : ∀ x ∈ xs, Whole.inRange x = true) :
    secureSum .bitwidthSum .int32 (xs.map .int) (.int k) = .ok (.int n) ↔
      (Whole.SumsInRange xs ∧ 1 ≤ k ∧ k ≤ 62) ∧ n = xs.sum % 2 ^ k.toNat := by
  rw [secureSum_int hne hxs, reduce, leafwise_int]
  by_cases h : 1 ≤ k ∧ k ≤ 62 <;> simp [h, Except.map, @eq_comm _ n]

theorem modularSum_int (k : Int) (xs : List Int) (n : Int) (hne : xs ≠ [])
    (hxs : ∀ x ∈ xs, Whole.inRange x = true) :
    secureSum .modularSum .int32 (xs.map .int) (.int k) = .ok (.int n) ↔
      (Whole.SumsInRange xs ∧ 0 < k) ∧ n = xs.sum % k := by
  rw [secureSum_int hne hxs, reduce, leafwise_int]
  by_cases h : 0 < k <;> simp [h, Except.map, @eq_comm _ n]

/-- Sums of natural numbers only grow, so that the last one decides. -/
theorem sumsInRange_iff (hxs : ∀ x ∈ xs, 0 ≤ x) :
    Whole.SumsInRange xs ↔ Whole.inRange xs.sum = true := by
  refine ⟨fun h => h xs (List.prefix_refl xs), fun h ys hys => ?_⟩
  have hle : ys.sum ≤ xs.sum := hys.sublist.sum_le_sum hxs
  have hnonneg : 0 ≤ ys.sum := List.sum_nonneg fun y hy => hxs y (hys.subset hy)
  rw [Whole.inRange_iff] at h ⊢
  omega

theorem boundedSum_int (k : Int) (xs : List Int) (n : Int) (hne : xs ≠ [])
    (hxs : ∀ x ∈ xs, Whole.inRange x = true) :
    secureSum .boundedSum .int32 (xs.map .int) (.int k) = .ok (.int n) ↔
      ((∀ x ∈ xs, 0 ≤ x ∧ x ≤ k) ∧ Whole.inRange xs.sum = true) ∧ n = xs.sum := by
  have hreduce : reduce .boundedSum (.int k) (.int xs.sum) = .ok (.int n) ↔ n = xs.sum := by
    simp [reduce, eq_comm]
  rw [secureSum_int hne hxs, hreduce, and_assoc]
  simp only [true_implies]
  exact and_congr_right fun hadmitted => by rw [sumsInRange_iff fun x hx => (hadmitted x hx).1]

end Numbers

def Value.numbersAt (l : List Nat) (us : List Value) : List Int := us.map fun u => u.number l

/-- Values of one integer type, at least one, to be summed with a parameter that suits them. -/
structure Summands (s : Setting) (m : Ty) (us : List Value) (y : Value) : Prop where
  isInteger : m.isInteger = true
  suits : ∃ p, p.suits m = true ∧ Inhabits s p y
  ne_nil : us ≠ []
  inhabits : ∀ u ∈ us, Inhabits s m u
  inRange : ∀ l ∈ m.places, ∀ x ∈ numbersAt l us, Whole.inRange x = true

namespace Summands

variable {op : Crossing} {us vs : List Value}

theorem perm_numbersAt (h : us.Perm vs) (l : List Nat) : (numbersAt l us).Perm (numbersAt l vs) :=
  h.map _

theorem perm (h : Summands s m us y) (hperm : us.Perm vs) : Summands s m vs y where
  isInteger := h.isInteger
  suits := h.suits
  ne_nil := fun hnil => h.ne_nil (List.perm_nil.mp (hnil ▸ hperm))
  inhabits := fun u hu => h.inhabits u (hperm.mem_iff.mpr hu)
  inRange := fun l hl x hx => h.inRange l hl x ((perm_numbersAt hperm l).mem_iff.mpr hx)

section Computing

-- The condition for the sum of numbers, and its result.
variable {C : Int → List Int → Prop} {F : Int → List Int → Int} (hop : ∀ k xs n, xs ≠ [] →
  (∀ x ∈ xs, Whole.inRange x = true) →
  (secureSum op .int32 (xs.map .int) (.int k) = .ok (.int n) ↔ C k xs ∧ n = F k xs))

include hop

theorem computes (h : Summands s m us y) :
    ((∃ w, secureSum op m us y = .ok w) ↔ ∀ l ∈ m.places, C (y.numberFor l) (numbersAt l us)) ∧
      ∀ w, secureSum op m us y = .ok w → Inhabits s m w ∧ ∀ l ∈ m.places,
        C (y.numberFor l) (numbersAt l us) ∧ w.number l = F (y.numberFor l) (numbersAt l us) := by
  obtain ⟨p, hs, hy⟩ := h.suits
  refine (placewise_secureSum h.isInteger hs hy h.ne_nil h.inhabits).computes h.isInteger
    fun l hl n => ?_
  rw [← hop _ _ _ (by simpa [numbersAt] using h.ne_nil) (h.inRange l hl), numbersAt, List.map_map]
  rfl

theorem eq_of_perm (hF : ∀ k xs ys, xs.Perm ys → F k xs = F k ys)
    (h : Summands s m us y) (hperm : us.Perm vs) (hv : secureSum op m us y = .ok v)
    (hw : secureSum op m vs y = .ok w) : v = w := by
  obtain ⟨hv, hvs⟩ := (h.computes hop).2 v hv
  obtain ⟨hw, hws⟩ := ((h.perm hperm).computes hop).2 w hw
  refine eq_of_numbers h.isInteger hv hw fun l hl => ?_
  rw [(hvs l hl).2, (hws l hl).2, hF _ _ _ (perm_numbersAt hperm l)]

end Computing

theorem boundedSum_perm (h : Summands s m us y) (hperm : us.Perm vs)
    (hw : secureSum .boundedSum m us y = .ok w) :
    secureSum .boundedSum m vs y = .ok w := by
  have hvs : ∃ w, secureSum .boundedSum m vs y = .ok w := by
    refine ((h.perm hperm).computes boundedSum_int).1.mpr fun l hl => ?_
    obtain ⟨hadmitted, hsum⟩ := (((h.computes boundedSum_int).2 w hw).2 l hl).1
    have hl := perm_numbersAt hperm l
    exact ⟨fun x hx => hadmitted x (hl.mem_iff.mpr hx), hl.sum_eq ▸ hsum⟩
  obtain ⟨u, hu⟩ := hvs
  rwa [h.eq_of_perm boundedSum_int (fun _ _ _ h => h.sum_eq) hperm hw hu]

end Summands

/-- Secure sums, in every place of the values: modulo a power of two, modulo any number, and exact.
The order of the values does not matter, as long as no sum on the way leaves the range. -/
theorem secureSum_computes {us : List Value} (h : Summands s m us y) :
    (((∃ w, secureSum .bitwidthSum m us y = .ok w) ↔ ∀ l ∈ m.places,
        Whole.SumsInRange (numbersAt l us) ∧ 1 ≤ y.numberFor l ∧ y.numberFor l ≤ 62) ∧
      ∀ w, secureSum .bitwidthSum m us y = .ok w → Inhabits s m w ∧ ∀ l ∈ m.places,
        w.number l = (numbersAt l us).sum % 2 ^ (y.numberFor l).toNat ∧
          0 ≤ w.number l ∧ w.number l < 2 ^ (y.numberFor l).toNat) ∧
    (((∃ w, secureSum .modularSum m us y = .ok w) ↔ ∀ l ∈ m.places,
        Whole.SumsInRange (numbersAt l us) ∧ 0 < y.numberFor l) ∧
      ∀ w, secureSum .modularSum m us y = .ok w → Inhabits s m w ∧ ∀ l ∈ m.places,
        w.number l = (numbersAt l us).sum % y.numberFor l ∧ 0 ≤ w.number l ∧
        w.number l < y.numberFor l) ∧
    (((∃ w, secureSum .boundedSum m us y = .ok w) ↔ ∀ l ∈ m.places,
        (∀ x ∈ numbersAt l us, 0 ≤ x ∧ x ≤ y.numberFor l) ∧
        Whole.inRange (numbersAt l us).sum = true) ∧
      ∀ w, secureSum .boundedSum m us y = .ok w → Inhabits s m w ∧ ∀ l ∈ m.places,
        w.number l = (numbersAt l us).sum) ∧
    ∀ vs, us.Perm vs →
      (∀ w, secureSum .boundedSum m us y = .ok w ↔ secureSum .boundedSum m vs y = .ok w) ∧
      ∀ op, op = .bitwidthSum ∨ op = .modularSum → ∀ v w,
        secureSum op m us y = .ok v → secureSum op m vs y = .ok w → v = w := by
  obtain ⟨hbitsok, hbitsnumbers⟩ := h.computes bitwidthSum_int
  obtain ⟨hmodok, hmodnumbers⟩ := h.computes modularSum_int
  obtain ⟨hboundedok, hboundednumbers⟩ := h.computes boundedSum_int
  refine ⟨⟨hbitsok, fun w hw => ?_⟩, ⟨hmodok, fun w hw => ?_⟩, ⟨hboundedok, fun w hw => ?_⟩,
    fun vs hperm => ⟨fun w => ?_, ?_⟩⟩
  · obtain ⟨hinhabits, hnumbers⟩ := hbitsnumbers w hw
    refine ⟨hinhabits, fun l hl => ?_⟩
    obtain ⟨-, hnumber⟩ := hnumbers l hl
    have hpos : (0 : Int) < 2 ^ (y.numberFor l).toNat := Int.pow_pos (by decide)
    rw [hnumber]
    exact ⟨rfl, Int.emod_nonneg _ hpos.ne', Int.emod_lt_of_pos _ hpos⟩
  · obtain ⟨hinhabits, hnumbers⟩ := hmodnumbers w hw
    refine ⟨hinhabits, fun l hl => ?_⟩
    obtain ⟨⟨-, hpos⟩, hnumber⟩ := hnumbers l hl
    rw [hnumber]
    exact ⟨rfl, Int.emod_nonneg _ hpos.ne', Int.emod_lt_of_pos _ hpos⟩
  · obtain ⟨hinhabits, hnumbers⟩ := hboundednumbers w hw
    exact ⟨hinhabits, fun l hl => (hnumbers l hl).2⟩
  · exact ⟨h.boundedSum_perm hperm, (h.perm hperm).boundedSum_perm hperm.symm⟩
  · rintro op (rfl | rfl) v w hv hw
    · exact h.eq_of_perm bitwidthSum_int (fun k xs ys hxs => by rw [hxs.sum_eq]) hperm hv hw
    · exact h.eq_of_perm modularSum_int (fun k xs ys hxs => by rw [hxs.sum_eq]) hperm hv hw

/-- A number modulo seven beside a pair modulo ten, from three participants. The first number of the
pair is as large as possible halfway, so that in another order there is no sum. -/
theorem secureSum_computes_pairs :
    ∃ w, secureSum .modularSum (.tuple [.int32, .tuple [.int32, .int32]])
      [.tuple [.int 12, .tuple [.int (-1), .int 4]],
        .tuple [.int (-3), .tuple [.int 9223372036854775807, .int 0]],
        .tuple [.int 2, .tuple [.int 1, .int (-7)]]] (.tuple [.int 7, .int 10]) = .ok w ∧
      w.number [0] = 11 % 7 ∧ w.number [1, 0] = 9223372036854775807 % 10 ∧
      w.number [1, 1] = -3 % 10 := by
  have hsummands : Summands ⟨3, 1⟩ (.tuple [.int32, .tuple [.int32, .int32]]) [.tuple [.int 12,
      .tuple [.int (-1), .int 4]], .tuple [.int (-3), .tuple [.int 9223372036854775807, .int 0]],
        .tuple [.int 2, .tuple [.int 1, .int (-7)]]] (.tuple [.int 7, .int 10]) := by
    refine ⟨rfl, ⟨.tuple [.int32, .int32], rfl, ?_⟩, by simp, ?_, by decide⟩
    · simp [inhabits_cons, inhabits_nil, Ty.int32, inhabits_int]
    · simp [inhabits_cons, inhabits_nil, Ty.int32, inhabits_int]
  obtain ⟨-, ⟨hok, hnumbers⟩, -⟩ := secureSum_computes hsummands
  obtain ⟨w, hw⟩ := hok.mpr (by decide)
  obtain ⟨-, hnumbers⟩ := hnumbers w hw
  exact ⟨w, hw, (hnumbers [0] (by decide)).1, (hnumbers [1, 0] (by decide)).1,
    (hnumbers [1, 1] (by decide)).1⟩

end TwoTier

import TwoTier.Proofs.Ending

/-! # Parameters of secure sums

The typing rule asks for integers, in the values that are summed and in the parameter, each on its
own. The evaluator takes numbers and parameters in pairs. A parameter suits the values if it is one
number for all of theirs, or a tuple of parameters for their elements; without that, some values of
these types cannot be summed.
-/

namespace TwoTier

namespace Ty

mutual

/-- A parameter of the type has a number for each number of a value of type `m`. -/
def suits : Ty → (m : Ty) → Bool
  | .scalar .int32, _ => true
  | .tuple ps, .tuple ts => suitsEach ps ts
  | _, _ => false

def suitsEach : List Ty → List Ty → Bool
  | [], [] => true
  | p :: ps, t :: ts => p.suits t && suitsEach ps ts
  | _, _ => false

end

theorem isInteger_tuple {ts : List Ty} :
    (Ty.tuple ts).isInteger = true ↔ ∀ t ∈ ts, t.isInteger = true := by
  rw [isInteger]
  induction ts with
  | nil => simp [allInteger]
  | cons t ts ih => simp [allInteger, ih]

theorem length_of_suitsEach {ps ts : List Ty} (h : suitsEach ps ts = true) :
    ps.length = ts.length := by
  induction ps generalizing ts with
  | nil => cases ts <;> simp_all [suitsEach]
  | cons p ps ih =>
    cases ts with
    | nil => simp [suitsEach] at h
    | cons t ts =>
      simp only [suitsEach, Bool.and_eq_true] at h
      simp [ih h.2]

theorem suitsEach_replicate {ts : List Ty} :
    suitsEach (List.replicate ts.length (.scalar .int32)) ts = true := by
  induction ts with
  | nil => rfl
  | cons t ts ih => simp [List.replicate_succ, suitsEach, suits, ih]

theorem suits_cases {p m : Ty} (h : p.suits m = true) :
    p = .scalar .int32 ∨ ∃ ps ts, p = .tuple ps ∧ m = .tuple ts ∧ suitsEach ps ts = true := by
  unfold suits at h
  split at h
  · exact .inl rfl
  · exact .inr ⟨_, _, rfl, rfl, h⟩
  · cases h

end Ty

variable {s : Setting} {m p : Ty} {v y : Value} {f : Int → Int → Except EvalFault Int}
    {e : EvalFault}

theorem leafwise_int {a b : Int} : Value.leafwise f (.int a) (.int b) = (f a b).map .int := by
  change (f a b >>= fun c => pure (Value.int c)) = _
  cases f a b <;> rfl

theorem leafwiseEach_cons {vs ys : List Value} : Value.leafwiseEach f (v :: vs) (y :: ys) =
    (Value.leafwise f v y >>= fun w => (Value.leafwiseEach f vs ys).map (w :: ·)) := by
  change (Value.leafwise f v y >>= fun w => Value.leafwiseEach f vs ys >>= fun ws =>
    pure (w :: ws)) = _
  cases Value.leafwise f v y with
  | error e => rfl
  | ok w =>
    change (Value.leafwiseEach f vs ys >>= fun ws => pure (w :: ws)) =
      (Value.leafwiseEach f vs ys).map (w :: ·)
    cases Value.leafwiseEach f vs ys <;> rfl

theorem leafwise_tuple_int {n : Int} {vs : List Value} : Value.leafwise f (.tuple vs) (.int n) =
    Value.leafwise f (.tuple vs) (.tuple (List.replicate vs.length (.int n))) := by
  have h :
      Value.leafwiseAll f n vs = Value.leafwiseEach f vs (List.replicate vs.length (.int n)) := by
    induction vs with
    | nil => rfl
    | cons v vs ih =>
      rw [Value.leafwiseAll, ih, List.length_cons, List.replicate_succ, Value.leafwiseEach]
  simp [Value.leafwise, h]

theorem inhabits_replicate {k : Nat} {n : Int} :
    Inhabits s (.tuple (List.replicate k (.scalar .int32)))
    (.tuple (List.replicate k (.int n))) := by
  induction k with
  | zero => exact inhabits_nil.mpr rfl
  | succ k ih => exact inhabits_cons.mpr ⟨_, _, rfl, inhabits_int.mpr ⟨n, rfl⟩, ih⟩

theorem leafwiseEach_fault {ts ps : List Ty} {vs ys : List Value}
    (ih : ∀ t ∈ ts, ∀ p v y, p.suits t = true → Inhabits s t v → Inhabits s p y →
      Value.leafwise f v y = .error e → ∃ a b, f a b = .error e)
    (hps : Ty.suitsEach ps ts = true) (hvs : Inhabits s (.tuple ts) (.tuple vs))
    (hys : Inhabits s (.tuple ps) (.tuple ys)) (h : Value.leafwiseEach f vs ys = .error e) :
    ∃ a b, f a b = .error e := by
  induction ts generalizing ps vs ys with
  | nil =>
    cases inhabits_nil.mp hvs
    cases h
  | cons t ts iht =>
    obtain ⟨v, vs, ⟨⟩, hv, hvs⟩ := inhabits_cons.mp hvs
    obtain _ | ⟨p, ps⟩ := ps
    · cases hps
    obtain ⟨y, ys, ⟨⟩, hy, hys⟩ := inhabits_cons.mp hys
    simp only [Ty.suitsEach, Bool.and_eq_true] at hps
    rw [leafwiseEach_cons, except_bind_error] at h
    rcases h with h | ⟨w, -, h⟩
    · exact ih t (by simp) p v y hps.1 hv hy h
    · exact iht (fun t ht => ih t (by simp [ht])) hps.2 hvs hys (except_map_error.mp h)

/-- A parameter that suits the values leaves only the faults of the numbers. By induction on the
type of the values. -/
theorem leafwise_fault_of_suits (hm : m.isInteger = true) (hs : p.suits m = true)
    (hv : Inhabits s m v) (hy : Inhabits s p y) (h : Value.leafwise f v y = .error e) :
    ∃ a b, f a b = .error e := by
  induction m generalizing p v y with
  | scalar k =>
    cases k <;> simp only [Ty.isInteger, Bool.false_eq_true] at hm
    obtain ⟨a, rfl⟩ := inhabits_int.mp hv
    rcases Ty.suits_cases hs with rfl | ⟨_, _, _, hts, _⟩
    · obtain ⟨b, rfl⟩ := inhabits_int.mp hy
      rw [leafwise_int, except_map_error] at h
      exact ⟨a, b, h⟩
    · cases hts
  | tuple ts ih =>
    obtain ⟨vs, _, rfl, -, hvs⟩ := id hv
    -- One number for all is that number for each, so that both cases are the one of tuples.
    have hsuits : ∃ ps ys, Ty.suitsEach ps ts = true ∧ Inhabits s (.tuple ps) (.tuple ys) ∧
        Value.leafwise f (.tuple vs) (.tuple ys) = .error e := by
      rcases Ty.suits_cases hs with rfl | ⟨ps, _, rfl, ⟨⟩, hps⟩
      · obtain ⟨n, rfl⟩ := inhabits_int.mp hy
        refine ⟨_, _, Ty.suitsEach_replicate, ?_, leafwise_tuple_int ▸ h⟩
        rw [← hvs.length.1]
        exact inhabits_replicate
      · obtain ⟨ys, _, rfl, -, -⟩ := id hy
        exact ⟨ps, ys, hps, hy, h⟩
    obtain ⟨ps, ys, hps, hys, h⟩ := hsuits
    obtain ⟨_, _, heq, -, hlength⟩ := id hys
    cases heq
    have hl : vs.length = ys.length := by
      rw [← hvs.length.1, ← hlength.length.1, Ty.length_of_suitsEach hps]
    rw [Value.leafwise, if_pos hl, except_map_error] at h
    exact leafwiseEach_fault
      (fun t ht p v y => ih t ht (Ty.isInteger_tuple.mp hm t ht)) hps hv hys h
  | seq | func | thunk | placed => simp [Ty.isInteger] at hm

def EvalFault.isShape : EvalFault → Bool
  | .shape _ => true
  | _ => false

theorem secureSum_gives_of_suits {op : Crossing} {us : List Value} (hm : m.isInteger = true)
    (hs : p.suits m = true) (hus : ∀ u ∈ us, Inhabits s m u) (hy : Inhabits s p y) :
    Gives (Value.secureSum op m us y) (Inhabits s m) fun e => e.isShape = false := by
  apply secureSum_gives_of hm
  · intro u hu
    rcases h : Value.accept op y u with e | w
    · obtain rfl : op = .boundedSum := by cases op <;> simp_all [Value.accept]
      obtain ⟨a, b, hf⟩ := leafwise_fault_of_suits hm hs hu hy h
      split at hf <;> cases hf
      exact .inr ⟨_, rfl, rfl⟩
    · exact .inl ⟨w, rfl, hu.accept hm h⟩
  · intro u hu
    rcases h : Value.reduce op y u with e | w
    · have hop : op = .bitwidthSum ∨ op = .modularSum := by cases op <;> simp_all [Value.reduce]
      rcases hop with rfl | rfl <;> obtain ⟨a, b, hf⟩ := leafwise_fault_of_suits hm hs hu hy h <;>
        split at hf <;> cases hf <;> exact .inr ⟨_, rfl, rfl⟩
    · exact .inl ⟨w, rfl, hu.reduce hm h⟩
  · rfl
  · exact hus

namespace Value

mutual

/-- The value of an integer type that has the same number everywhere. -/
def filled (n : Int) : Ty → Value
  | .tuple ts => .tuple (filledEach n ts)
  | _ => .int n

def filledEach (n : Int) : List Ty → List Value
  | [] => []
  | t :: ts => filled n t :: filledEach n ts

end

end Value

open Value

theorem length_filledEach {n : Int} {ts : List Ty} : (filledEach n ts).length = ts.length := by
  induction ts with
  | nil => rfl
  | cons t ts ih => simp [filledEach, ih]

theorem filledEach_replicate {n : Int} {k : Nat} :
    filledEach n (List.replicate k (.scalar .int32)) = List.replicate k (.int n) := by
  induction k with
  | zero => rfl
  | succ k ih => simp [List.replicate_succ, filledEach, ih, filled]

theorem inhabits_filled {n : Int} {t : Ty} (ht : t.isInteger = true) :
    Inhabits s t (filled n t) := by
  induction t with
  | scalar k =>
    cases k <;> simp only [Ty.isInteger, Bool.false_eq_true] at ht
    exact inhabits_int.mpr ⟨n, rfl⟩
  | tuple ts ih =>
    replace ih : ∀ t ∈ ts, Inhabits s t (filled n t) :=
      fun t h => ih t h (Ty.isInteger_tuple.mp ht t h)
    rw [filled]
    clear ht
    induction ts with
    | nil => exact inhabits_nil.mpr rfl
    | cons t ts iht =>
      exact inhabits_cons.mpr ⟨_, _, rfl, ih t (by simp), iht fun t h => ih t (by simp [h])⟩
  | seq | func | thunk | placed => simp [Ty.isInteger] at ht

theorem combine_filled {t : Ty} (ht : t.isInteger = true) :
    combine .add (filled 0 t) (filled 0 t) = .ok (filled 0 t) := by
  induction t with
  | scalar k => rfl
  | tuple ts ih =>
    replace ih : ∀ t ∈ ts, combine .add (filled 0 t) (filled 0 t) = .ok (filled 0 t) :=
      fun t h => ih t h (Ty.isInteger_tuple.mp ht t h)
    have h : combineAll .add (filledEach 0 ts) (filledEach 0 ts) = .ok (filledEach 0 ts) := by
      clear ht
      induction ts with
      | nil => rfl
      | cons t ts iht =>
        simp [filledEach, combineAll, ih t (by simp), iht fun t h => ih t (by simp [h])]
    simp [filled, combine, h, Except.map]
  | seq | func | thunk | placed => simp [Ty.isInteger] at ht

section Filled

variable {a b c : Int}

theorem leafwiseEach_filled {ts ps : List Ty}
    (ih : ∀ t ∈ ts, ∀ p ∈ ps,
      (p.suits t = true → leafwise f (filled a t) (filled b p) = .ok (filled c t)) ∧
      (p.suits t = false → ∃ g, leafwise f (filled a t) (filled b p) = .error (.shape g)))
    (hl : ts.length = ps.length) :
    (Ty.suitsEach ps ts = true →
        leafwiseEach f (filledEach a ts) (filledEach b ps) = .ok (filledEach c ts)) ∧
      (Ty.suitsEach ps ts = false →
        ∃ g, leafwiseEach f (filledEach a ts) (filledEach b ps) = .error (.shape g)) := by
  induction ts generalizing ps with
  | nil =>
    cases ps with
    | nil => exact ⟨fun _ => rfl, fun h => (by cases h)⟩
    | cons p ps => cases hl
  | cons t ts iht =>
    obtain _ | ⟨p, ps⟩ := ps
    · cases hl
    obtain ⟨hok, hshape⟩ := ih t (by simp) p (by simp)
    obtain ⟨hoks, hshapes⟩ :=
      iht (fun t ht p hp => ih t (List.mem_cons_of_mem _ ht) p (List.mem_cons_of_mem _ hp))
      (Nat.succ.inj hl)
    rw [filledEach, filledEach, leafwiseEach_cons, Ty.suitsEach]
    cases hsuits : p.suits t with
    | false =>
      obtain ⟨g, hg⟩ := hshape hsuits
      refine ⟨fun h => (by cases h), fun _ => ⟨g, ?_⟩⟩
      rw [hg]
      rfl
    | true =>
      rw [hok hsuits, Bool.true_and]
      refine ⟨fun h => ?_, fun h => ?_⟩
      · change (leafwiseEach f (filledEach a ts) (filledEach b ps)).map (filled c t :: ·) = _
        rw [hoks h]
        rfl
      · obtain ⟨g, hg⟩ := hshapes h
        exact ⟨g, except_map_error.mpr hg⟩

/-- On values that are the same number everywhere, the outcome is a matter of their shapes alone. -/
theorem leafwise_filled (hf : f a b = .ok c) (hm : m.isInteger = true) (hp : p.isInteger = true) :
    (p.suits m = true → leafwise f (filled a m) (filled b p) = .ok (filled c m)) ∧
      (p.suits m = false → ∃ g, leafwise f (filled a m) (filled b p) = .error (.shape g)) := by
  induction m generalizing p with
  | scalar k =>
    cases p with
    | scalar k =>
      cases k <;> simp only [Ty.isInteger, Bool.false_eq_true] at hp
      exact ⟨fun _ => by simp only [filled, leafwise_int, hf, Except.map], fun h => (by cases h)⟩
    | tuple ps => exact ⟨fun h => (by cases h), fun _ => ⟨_, rfl⟩⟩
    | seq | func | thunk | placed => simp [Ty.isInteger] at hp
  | tuple ts ih =>
    have hts := Ty.isInteger_tuple.mp hm
    have key : ∀ ps : List Ty, (∀ p ∈ ps, p.isInteger = true) →
        (Ty.suitsEach ps ts = true →
          leafwise f (filled a (.tuple ts)) (.tuple (filledEach b ps)) =
          .ok (filled c (.tuple ts))) ∧
        (Ty.suitsEach ps ts = false →
          ∃ g, leafwise f (filled a (.tuple ts)) (.tuple (filledEach b ps)) =
          .error (.shape g)) := by
      intro ps hps
      simp only [filled, leafwise, length_filledEach]
      split
      case isTrue hl =>
        obtain ⟨hok, hshape⟩ :=
          leafwiseEach_filled (fun t ht p hp => ih t ht (hts t ht) (hps p hp)) hl
        exact ⟨fun h => except_map_ok.mpr ⟨_, hok h, rfl⟩,
          fun h => (hshape h).imp fun g => except_map_error.mpr⟩
      case isFalse hl => exact ⟨fun h => absurd (Ty.length_of_suitsEach h).symm hl,
        fun _ => ⟨_, rfl⟩⟩
    cases p with
    | scalar k =>
      cases k <;> simp only [Ty.isInteger, Bool.false_eq_true] at hp
      refine ⟨fun _ => ?_, fun h => (by cases h)⟩
      have hall := (key (List.replicate ts.length (.scalar .int32)) (by simp [Ty.isInteger])).1
        Ty.suitsEach_replicate
      rwa [filledEach_replicate, ← length_filledEach (n := a), filled, ← leafwise_tuple_int] at hall
    | tuple ps => exact key ps (Ty.isInteger_tuple.mp hp)
    | seq | func | thunk | placed => simp [Ty.isInteger] at hp
  | seq | func | thunk | placed => simp [Ty.isInteger] at hm

end Filled

section Sums

variable {op : Crossing} {n : Nat}

theorem sumAdmitted_filled (hm : m.isInteger = true)
    (haccept : accept op y (filled 0 m) = .ok (filled 0 m)) :
    sumAdmitted op y (filled 0 m) (List.replicate n (filled 0 m)) = .ok (filled 0 m) := by
  induction n with
  | zero => rfl
  | succ n ih => simp [List.replicate_succ, sumAdmitted, haccept, combine_filled hm, ih]

theorem secureSum_filled (hop : op.secureChannel?.isSome = true)
    (hm : m.isInteger = true) (hne : m ≠ .empty)
    (hleaf : ∀ f c, f 0 1 = .ok c → ∃ g, leafwise f (filled 0 m) y = .error (.shape g)) :
    ∃ g, secureSum op m (List.replicate (n + 1) (filled 0 m)) y = .error (.shape g) := by
  have hfirst : secureSum op m (List.replicate (n + 1) (filled 0 m)) y = (do
      let first ← accept op y (filled 0 m)
      let total ← sumAdmitted op y first (List.replicate n (filled 0 m))
      reduce op y total) := by
    rw [List.replicate_succ, secureSum]
    intro h
    cases m <;> simp only [filled, reduceCtorEq] at h
    rename_i ts
    cases ts with
    | nil => exact hne rfl
    | cons t ts => simp [filledEach] at h
  have hreduce : accept op y (filled 0 m) = .ok (filled 0 m) →
      (∃ g, reduce op y (filled 0 m) = .error (.shape g)) →
      ∃ g, secureSum op m (List.replicate (n + 1) (filled 0 m)) y = .error (.shape g) := by
    rintro haccept ⟨g, hg⟩
    refine ⟨g, hfirst ▸ except_bind_error.mpr (.inr ⟨_, haccept, ?_⟩)⟩
    exact except_bind_error.mpr (.inr ⟨_, sumAdmitted_filled hm haccept, hg⟩)
  cases op with
  | broadcast | aggregate => cases hop
  | bitwidthSum => exact hreduce rfl (hleaf _ _ (if_pos (by decide)))
  | modularSum => exact hreduce rfl (hleaf _ _ (if_pos (by decide)))
  | boundedSum =>
    obtain ⟨g, hg⟩ : ∃ g, accept .boundedSum y (filled 0 m) = .error (.shape g) :=
      hleaf _ _ (if_pos (by decide))
    exact ⟨g, hfirst ▸ except_bind_error.mpr (.inl hg)⟩

theorem leafwise_atServer {w : Value} :
    ∃ g, leafwise f (filled 0 m) (.atServer w) = .error (.shape g) := by
  cases m <;> exact ⟨_, rfl⟩

theorem exists_misfit (hm : m.isInteger = true) (hs : p.suits m = false)
    (hp : p.isInteger = true ∨ ∃ t flag, p = .placed t .coordinator flag ∧ t.isInteger = true) :
    ∃ y, Inhabits s p y ∧ ∀ f c, f 0 1 = .ok c → ∃ g, leafwise f (filled 0 m) y =
    .error (.shape g) := by
  rcases hp with hp | ⟨t, flag, rfl, ht⟩
  · exact ⟨filled 1 p, inhabits_filled hp, fun f c hf => (leafwise_filled hf hm hp).2 hs⟩
  · exact ⟨.atServer (filled 1 t), ⟨_, _, rfl, rfl, inhabits_filled ht⟩,
      fun f c hf => leafwise_atServer⟩

/-- Sums of `n` values of type `m` with a parameter of type `p`, as the typing rule accepts them,
never fail for the shape of a value exactly if there is no value, if the values are empty tuples, or
if the parameter suits them. -/
theorem secureSum_shapely {q : Ty} {flag : Bool} (hop : op.secureChannel?.isSome = true)
    (hq : q = p ∨ ∃ flag, q = .placed p .coordinator flag)
    (hsig : ∃ sig,
      Intrinsic.signature (.crossing op) (.tuple [.placed m .participants flag, q]) = .ok sig) :
    (∀ us y, us.length = n → (∀ u ∈ us, Inhabits s m u) → Inhabits s p y →
      ∀ g, secureSum op m us y ≠ .error (.shape g)) ↔
    n = 0 ∨ m = .empty ∨ p.suits m = true := by
  obtain ⟨sig, hsig⟩ := hsig
  obtain ⟨r, hr, -⟩ := except_map_ok.mp hsig
  have hrule : Intrinsic.secureSumResult op (.tuple [.placed m .participants flag, q]) = .ok r := by
    cases op with
    | broadcast | aggregate => cases hop
    | bitwidthSum | boundedSum | modularSum => exact hr
  obtain ⟨_, _, _, ⟨⟩, hm, -, hparam⟩ := secureSumResult_ok hrule
  have hp : p.isInteger = true ∨ ∃ t flag, p = .placed t .coordinator flag ∧
      t.isInteger = true := by
    rcases hq with rfl | ⟨flag, rfl⟩
    · exact hparam.symm
    · rcases hparam with ⟨t, _, ⟨⟩, ht⟩ | hplaced
      · exact .inl ht
      · simp [Ty.isInteger] at hplaced
  constructor
  · intro h
    by_contra hcon
    simp only [not_or, Bool.not_eq_true] at hcon
    obtain ⟨hn, hne, hs⟩ := hcon
    obtain ⟨k, rfl⟩ := Nat.exists_eq_succ_of_ne_zero hn
    obtain ⟨y, hy, hleaf⟩ := exists_misfit hm hs hp
    obtain ⟨g, hg⟩ := secureSum_filled hop hm hne hleaf
    refine h _ y List.length_replicate (fun u hu => ?_) hy g hg
    rw [List.eq_of_mem_replicate hu]
    exact inhabits_filled hm
  · rintro h us y rfl hus hy g hfail
    rcases h with hn | rfl | hs
    · rw [List.length_eq_zero_iff.mp hn, secureSum] at hfail
      obtain ⟨z, hz⟩ := zero_ok_of_isNumeric (isNumeric_of_isInteger hm)
      rw [hz] at hfail
      cases hfail
    · cases us with
      | nil => cases hfail
      | cons u us =>
        obtain rfl := inhabits_nil.mp (hus u (by simp))
        cases hfail
    · have hgives : Gives (secureSum op m us y) (Inhabits s m) _ :=
        secureSum_gives_of_suits hm hs hus hy
      rcases hgives with ⟨v, hv, -⟩ | ⟨e, he, hshape⟩
      · cases hv.symm.trans hfail
      · cases he.symm.trans hfail
        cases hshape

/-- A number beside a pair of numbers, with two bounds: one for the number, one for both numbers of
the pair. -/
theorem secureSum_shapely_bounds :
    Ty.suits (.tuple [.int32, .int32]) (.tuple [.int32, .tuple [.int32, .int32]]) = true ∧ ∀ us y,
    us.length = 3 → (∀ u ∈ us, Inhabits ⟨3, 1⟩ (.tuple [.int32, .tuple [.int32, .int32]]) u) →
      Inhabits ⟨3, 1⟩ (.tuple [.int32, .int32]) y →
      ∀ g, secureSum .boundedSum (.tuple [.int32, .tuple [.int32, .int32]]) us y ≠ .error
      (.shape g) := by
  have hsig : ∃ sig, Intrinsic.signature (.crossing .boundedSum)
      (.tuple [.placed (.tuple [.int32, .tuple [.int32, .int32]]) .participants false,
        .placed (.tuple [.int32, .int32]) .coordinator true]) = .ok sig := ⟨_, rfl⟩
  exact ⟨rfl, (secureSum_shapely rfl (.inr ⟨true, rfl⟩) hsig).mpr (.inr (.inr rfl))⟩

/-- A number with a tuple for its bound is well-typed, and cannot be summed. -/
theorem secureSum_misfit :
    (∃ sig, Intrinsic.signature (.crossing .boundedSum)
      (.tuple [.placed .int32 .participants false, .tuple [.int32]]) = .ok sig) ∧
    Inhabits ⟨1, 1⟩ .int32 (.int 1) ∧ Inhabits ⟨1, 1⟩ (.tuple [.int32]) (.tuple [.int 5]) ∧
    secureSum .boundedSum .int32 [.int 1] (.tuple [.int 5]) =
    .error (.shape (.notAnInteger (.tuple [.int 5]))) :=
  ⟨⟨_, rfl⟩, ⟨rfl, rfl⟩, inhabits_filled rfl, rfl⟩

end Sums

end TwoTier

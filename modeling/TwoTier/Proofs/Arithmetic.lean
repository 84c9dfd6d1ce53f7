import TwoTier.Proofs.Similar

/-! # Types of sums

Arithmetic and secure sums of values of a numeric type are values of that type.
-/

namespace TwoTier

theorem Whole.inRange_iff {v : Int} :
    inRange v = true ↔ -9223372036854775808 ≤ v ∧ v < 9223372036854775808 :=
  Bool.and_eq_true_iff.trans (and_congr decide_eq_true_iff decide_eq_true_iff)

variable {s : Setting} {t : Ty} {ts : List Ty}

theorem inhabits_nil {v : Value} : Inhabits s (.tuple []) v ↔ v = .tuple [] := by
  constructor
  · rintro ⟨vs, _, rfl, -, rfl, -⟩
    rfl
  · rintro rfl
    exact ⟨[], [], rfl, rfl, rfl, rfl⟩

theorem inhabits_cons {v : Value} : Inhabits s (.tuple (t :: ts)) v ↔
    ∃ u us, v = .tuple (u :: us) ∧ Inhabits s t u ∧ Inhabits s (.tuple ts) (.tuple us) := by
  constructor
  · rintro ⟨_, _, rfl, ⟨⟩, u, us, _, _, rfl, ⟨⟩, hu, hus⟩
    exact ⟨u, us, rfl, hu, us, us, rfl, rfl, hus⟩
  · rintro ⟨u, us, rfl, hu, _, _, ⟨⟩, ⟨⟩, hus⟩
    exact ⟨_, _, rfl, rfl, u, us, u, us, rfl, rfl, hu, hus⟩

theorem inhabits_int {v : Value} : Inhabits s (.scalar .int32) v ↔ ∃ n, v = .int n := by
  constructor
  · rintro ⟨-, h⟩
    cases v <;> simp_all [Value.isScalar]
  · rintro ⟨n, rfl⟩
    exact ⟨rfl, rfl⟩

theorem inhabits_float {v : Value} : Inhabits s (.scalar .float32) v ↔ ∃ x, v = .float x := by
  constructor
  · rintro ⟨-, h⟩
    cases v <;> simp_all [Value.isScalar]
  · rintro ⟨n, rfl⟩
    exact ⟨rfl, rfl⟩

theorem isNumeric_of_isInteger (h : t.isInteger = true) : t.isNumeric = true := by
  induction t with
  | scalar k => cases k <;> simp_all [Ty.isInteger, Ty.isNumeric]
  | tuple ts ih =>
    simp only [Ty.isInteger, Ty.isNumeric] at h ⊢
    induction ts with
    | nil => rfl
    | cons t ts iht =>
      simp only [Ty.allInteger, Ty.allNumeric, Bool.and_eq_true] at h ⊢
      exact ⟨ih t (by simp) h.1, iht (fun t ht => ih t (by simp [ht])) h.2⟩
  | seq | func | thunk | placed => simp [Ty.isInteger] at h

theorem Inhabits.combine {op : Builtin} {x y z : Value} (ht : t.isNumeric = true)
    (hx : Inhabits s t x) (hy : Inhabits s t y) (h : Value.combine op x y = .ok z) :
    Inhabits s t z := by
  induction t generalizing x y z with
  | scalar k =>
    cases k with
    | int32 =>
      obtain ⟨n, rfl⟩ := inhabits_int.mp hx
      obtain ⟨m, rfl⟩ := inhabits_int.mp hy
      simp only [Value.combine] at h
      split at h <;> cases h
      exact inhabits_int.mpr ⟨_, rfl⟩
    | float32 =>
      obtain ⟨n, rfl⟩ := inhabits_float.mp hx
      obtain ⟨m, rfl⟩ := inhabits_float.mp hy
      simp only [Value.combine] at h
      cases h
      exact inhabits_float.mpr ⟨_, rfl⟩
    | bool => simp [Ty.isNumeric] at ht
  | tuple ts ih =>
    obtain ⟨xs, _, rfl, -, -⟩ := id hx
    obtain ⟨ys, _, rfl, -, -⟩ := id hy
    simp only [Value.combine] at h
    split at h
    · obtain ⟨zs, hz, rfl⟩ := except_map_ok.mp h
      clear h
      induction ts generalizing xs ys zs with
      | nil =>
        cases inhabits_nil.mp hx
        simp only [Value.combineAll, Except.ok.injEq] at hz
        simpa [← hz] using hx
      | cons t ts iht =>
        obtain ⟨x, xs, ⟨⟩, hx, hxs⟩ := inhabits_cons.mp hx
        obtain ⟨y, ys, ⟨⟩, hy, hys⟩ := inhabits_cons.mp hy
        simp only [Value.combineAll, except_bind_ok, except_pure_ok] at hz
        obtain ⟨z, hz, zs, hzs, rfl⟩ := hz
        simp only [Ty.isNumeric, Ty.allNumeric, Bool.and_eq_true] at ht
        rename_i hl
        exact inhabits_cons.mpr ⟨z, zs, rfl, ih t (by simp) ht.1 hx hy hz,
          iht (fun t ht => ih t (by simp [ht])) ht.2 xs hxs ys hys (by simpa using hl) zs hzs⟩
    · simp at h
  | seq | func | thunk | placed => simp [Ty.isNumeric] at ht

theorem inhabits_zero {v : Value} (h : Value.zero t = .ok v) : Inhabits s t v := by
  induction t generalizing v with
  | scalar k =>
    cases k with
    | int32 =>
      cases h
      exact inhabits_int.mpr ⟨_, rfl⟩
    | float32 =>
      cases h
      exact inhabits_float.mpr ⟨_, rfl⟩
    | bool => simp [Value.zero] at h
  | tuple ts ih =>
    simp only [Value.zero, except_bind_ok, except_pure_ok] at h
    obtain ⟨vs, hvs, rfl⟩ := h
    induction ts generalizing vs with
    | nil =>
      simp only [Value.zero.zeros, Except.ok.injEq] at hvs
      exact inhabits_nil.mpr (by rw [← hvs])
    | cons t ts iht =>
      simp only [Value.zero.zeros, except_bind_ok, except_pure_ok] at hvs
      obtain ⟨v, hv, vs, hvs, rfl⟩ := hvs
      exact inhabits_cons.mpr ⟨v, vs, rfl, ih t (by simp) hv,
        iht (fun t ht => ih t (by simp [ht])) vs hvs⟩
  | seq | func | thunk | placed => simp [Value.zero] at h

theorem Inhabits.sum {total v : Value} {items : List Value} (ht : t.isNumeric = true)
    (htotal : Inhabits s t total) (hitems : ∀ u ∈ items, Inhabits s t u)
    (h : Value.sum total items = .ok v) :
    Inhabits s t v := by
  induction items generalizing total with
  | nil =>
    cases h
    exact htotal
  | cons u us ih =>
    simp only [Value.sum, except_bind_ok] at h
    obtain ⟨total', htotal', h⟩ := h
    exact ih (htotal.combine ht (hitems u (by simp)) htotal')
      (fun u hu => hitems u (by simp [hu])) h

theorem Inhabits.applyBuiltin {op : Builtin} {a v : Value} (ht : t.isNumeric = true)
    (ha : Inhabits s (op.paramType t) a) (h : Value.applyBuiltin op t a = .ok v) :
    Inhabits s t v := by
  by_cases ho : op = .sequenceSum
  · subst ho
    obtain ⟨items, _, rfl, ⟨⟩, hitems⟩ := ha
    simp only [Value.applyBuiltin, except_bind_ok, Value.zeroOf, except_mapError_ok] at h
    obtain ⟨z, hz, h⟩ := h
    have hitems : ∀ u ∈ items, Similar s t u u := List.forall₂_same.mp hitems
    exact (inhabits_zero hz).sum ht hitems h
  · have ha : Inhabits s (.tuple [t, t]) a := by cases op <;> simp_all [Builtin.paramType]
    obtain ⟨x, _, rfl, hx, h'⟩ := inhabits_cons.mp ha
    obtain ⟨y, _, ⟨⟩, hy, h'⟩ := inhabits_cons.mp h'
    cases inhabits_nil.mp h'
    have h : Value.combine op x y = .ok v := by cases op <;> simp_all [Value.applyBuiltin]
    exact hx.combine ht hy h

theorem Inhabits.leafwise {f : Int → Int → Except EvalFault Int} {v p w : Value}
    (ht : t.isInteger = true) (hv : Inhabits s t v) (h : Value.leafwise f v p = .ok w) :
    Inhabits s t w := by
  induction t generalizing v p w with
  | scalar k =>
    cases k <;> simp only [Ty.isInteger, Bool.false_eq_true] at ht
    obtain ⟨n, rfl⟩ := inhabits_int.mp hv
    simp only [Value.leafwise, except_bind_ok, except_pure_ok] at h
    obtain ⟨_, -, m, -, rfl⟩ := h
    exact inhabits_int.mpr ⟨m, rfl⟩
  | tuple ts ih =>
    obtain ⟨vs, _, rfl, -, -⟩ := id hv
    cases p <;> simp only [Value.leafwise, Value.misshapen_ok] at h
    case int n =>
      obtain ⟨ws, hws, rfl⟩ := except_map_ok.mp h
      clear h
      induction ts generalizing vs ws with
      | nil =>
        cases inhabits_nil.mp hv
        cases hws
        exact hv
      | cons t ts iht =>
        obtain ⟨v, vs, ⟨⟩, hv, hvs⟩ := inhabits_cons.mp hv
        simp only [Value.leafwiseAll, except_bind_ok, except_pure_ok] at hws
        obtain ⟨w, hw, ws, hws, rfl⟩ := hws
        simp only [Ty.isInteger, Ty.allInteger, Bool.and_eq_true] at ht
        exact inhabits_cons.mpr ⟨w, ws, rfl, ih t (by simp) ht.1 hv hw,
          iht (fun t ht => ih t (by simp [ht])) ht.2 vs hvs ws hws⟩
    case tuple ps =>
      split at h
      · obtain ⟨ws, hws, rfl⟩ := except_map_ok.mp h
        clear h
        induction ts generalizing vs ps ws with
        | nil =>
          cases inhabits_nil.mp hv
          cases hws
          exact hv
        | cons t ts iht =>
          obtain ⟨v, vs, ⟨⟩, hv, hvs⟩ := inhabits_cons.mp hv
          rename_i hl
          obtain _ | ⟨p, ps⟩ := ps
          · simp at hl
          simp only [Value.leafwiseEach, except_bind_ok, except_pure_ok] at hws
          obtain ⟨w, hw, ws, hws, rfl⟩ := hws
          simp only [Ty.isInteger, Ty.allInteger, Bool.and_eq_true] at ht
          exact inhabits_cons.mpr ⟨w, ws, rfl, ih t (by simp) ht.1 hv hw,
            iht (fun t ht => ih t (by simp [ht])) ht.2 vs hvs ps (by simpa using hl) ws hws⟩
      · simp at h
  | seq | func | thunk | placed => simp [Ty.isInteger] at ht

theorem Inhabits.accept {op : Crossing} {v p w : Value} (ht : t.isInteger = true)
    (hv : Inhabits s t v) (h : Value.accept op p v = .ok w) : Inhabits s t w := by
  cases op <;> simp only [Value.accept, Except.ok.injEq] at h <;>
    first | exact h ▸ hv | exact hv.leafwise ht h

theorem Inhabits.reduce {op : Crossing} {v p w : Value} (ht : t.isInteger = true)
    (hv : Inhabits s t v) (h : Value.reduce op p v = .ok w) : Inhabits s t w := by
  cases op <;> simp only [Value.reduce, Except.ok.injEq] at h <;>
    first | exact h ▸ hv | exact hv.leafwise ht h

theorem Inhabits.sumAdmitted {op : Crossing} {p total w : Value} {us : List Value}
    (ht : t.isInteger = true) (htotal : Inhabits s t total) (hus : ∀ u ∈ us, Inhabits s t u)
    (h : Value.sumAdmitted op p total us = .ok w) : Inhabits s t w := by
  induction us generalizing total with
  | nil =>
    cases h
    exact htotal
  | cons u us ih =>
    simp only [Value.sumAdmitted, except_bind_ok] at h
    obtain ⟨u', hu', total', htotal', h⟩ := h
    have hu := (hus u (by simp)).accept ht hu'
    exact ih (htotal.combine (isNumeric_of_isInteger ht) hu htotal')
      (fun u hu => hus u (by simp [hu])) h

theorem inhabits_secureSum {op : Crossing} {p v : Value} {us : List Value} (ht : t.isInteger = true)
    (hus : ∀ u ∈ us, Inhabits s t u) (h : Value.secureSum op t us p = .ok v) : Inhabits s t v := by
  unfold Value.secureSum at h
  split at h
  · rw [Value.zeroOf, except_mapError_ok] at h
    exact inhabits_zero h
  · cases h
    exact hus (.tuple []) (by simp)
  · simp only [except_bind_ok] at h
    obtain ⟨first, hfirst, total, htotal, h⟩ := h
    have hfirst := (hus _ (by simp)).accept ht hfirst
    exact (hfirst.sumAdmitted ht (fun u hu => hus u (by simp [hu])) htotal).reduce ht h

end TwoTier

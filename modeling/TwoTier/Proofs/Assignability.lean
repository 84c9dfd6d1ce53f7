import TwoTier.Proofs.Induction
import TwoTier.Ty.Assignable

/-! # Assignability as an order

Which type stands for which is a relation with one rule per kind of type. Types are ordered by it,
in either direction alike, since parameters turn the direction around. A type mentions the same
tiers as those that stand for it, and without any tier nothing but the type itself does.
-/

namespace TwoTier.Ty

variable {reversed : Bool} {t u v : Ty}

/-- The second type may stand for the first or, when `reversed`, the first for the second. -/
inductive Stands : Bool → Ty → Ty → Prop
  | scalar {reversed : Bool} {k : Scalar} : Stands reversed (.scalar k) (.scalar k)
  | nil {reversed : Bool} : Stands reversed (.tuple []) (.tuple [])
  | cons {reversed : Bool} {t u : Ty} {ts us : List Ty} :
      Stands reversed t u → Stands reversed (.tuple ts) (.tuple us) →
      Stands reversed (.tuple (t :: ts)) (.tuple (u :: us))
  | seq {reversed : Bool} {t u : Ty} : Stands reversed t u → Stands reversed (.seq t) (.seq u)
  | func {reversed : Bool} {p q r s : Ty} : Stands (!reversed) p q → Stands reversed r s →
      Stands reversed (.func p r) (.func q s)
  | thunk {reversed : Bool} {r s : Ty} : Stands reversed r s → Stands reversed (.thunk r) (.thunk s)
  | placed {reversed : Bool} {t u : Ty} {p : Placement} {x y : Bool} :
      (if reversed then !y || x else !x || y) = true →
      Stands reversed t u → Stands reversed (.placed t p x) (.placed u p y)

theorem stands_of_standsFor (h : t.standsFor reversed u = true) : Stands reversed t u := by
  induction t generalizing reversed u with
  | scalar k =>
    cases u <;> simp [standsFor] at h
    exact h ▸ .scalar
  | tuple ts ih =>
    cases u <;> simp only [standsFor, Bool.false_eq_true] at h
    rename_i us
    induction ts generalizing us with
    | nil =>
      cases us <;> simp [standsForList] at h
      exact .nil
    | cons t ts ihs =>
      cases us <;> simp only [standsForList, Bool.false_eq_true, Bool.and_eq_true] at h
      exact .cons (ih t (by simp) h.1) (ihs (fun t ht => ih t (by simp [ht])) _ h.2)
  | seq t ih =>
    cases u <;> simp only [standsFor, Bool.false_eq_true] at h
    exact .seq (ih h)
  | func p r ihp ihr =>
    cases u <;> simp only [standsFor, Bool.false_eq_true, Bool.and_eq_true] at h
    exact .func (ihp h.1) (ihr h.2)
  | thunk r ih =>
    cases u <;> simp only [standsFor, Bool.false_eq_true] at h
    exact .thunk (ih h)
  | placed m p x ih =>
    cases u <;> simp only [standsFor, Bool.false_eq_true, Bool.and_eq_true, beq_iff_eq] at h
    obtain ⟨⟨rfl, hflags⟩, hm⟩ := h
    exact .placed hflags (ih hm)

theorem standsFor_iff : t.standsFor reversed u = true ↔ Stands reversed t u := by
  refine ⟨stands_of_standsFor, fun h => ?_⟩
  induction h with
  | scalar | nil => simp [standsFor, standsForList]
  | cons _ _ ih ihs => simp_all [standsFor, standsForList]
  | seq _ ih | thunk _ ih => simpa [standsFor] using ih
  | func _ _ ihp ihr => simp [standsFor, ihp, ihr]
  | placed hflags _ ih => simpa [standsFor, ih] using hflags

theorem standsFor_self (t : Ty) {reversed : Bool} : t.standsFor reversed t = true := by
  rw [standsFor_iff]
  induction t generalizing reversed with
  | scalar k => exact .scalar
  | tuple ts ih =>
    induction ts with
    | nil => exact .nil
    | cons t ts ihs => exact .cons (ih t (by simp)) (ihs fun t ht => ih t (by simp [ht]))
  | seq t ih => exact .seq ih
  | func p r ihp ihr => exact .func ihp ihr
  | thunk r ih => exact .thunk ih
  | placed m p x ih => exact .placed (by cases reversed <;> cases x <;> rfl) ih

theorem Stands.trans (h : Stands reversed t u) (h' : Stands reversed u v) :
    Stands reversed t v := by
  induction h generalizing v with
  | scalar | nil => exact h'
  | cons _ _ ih ihs =>
    cases h' with
    | cons h hs => exact .cons (ih h) (ihs hs)
  | seq _ ih =>
    cases h' with
    | seq h => exact .seq (ih h)
  | func _ _ ihp ihr =>
    cases h' with
    | func hp hr => exact .func (ihp hp) (ihr hr)
  | thunk _ ih =>
    cases h' with
    | thunk h => exact .thunk (ih h)
  | @placed reversed _ _ _ x y hxy _ ih =>
    cases h' with
    | @placed _ _ _ _ _ z hyz h =>
      refine .placed ?_ (ih h)
      revert hxy hyz
      cases reversed <;> cases x <;> cases y <;> cases z <;> decide

/-- Below a parameter the direction is the other one for both types, so that one induction is
enough. -/
theorem Stands.antisymm (h : Stands reversed t u) (h' : Stands reversed u t) : t = u := by
  induction h with
  | scalar | nil => rfl
  | cons _ _ ih ihs =>
    cases h' with
    | cons h hs => rw [ih h, Ty.tuple.inj (ihs hs)]
  | seq _ ih =>
    cases h' with
    | seq h => rw [ih h]
  | func _ _ ihp ihr =>
    cases h' with
    | func hp hr => rw [ihp hp, ihr hr]
  | thunk _ ih =>
    cases h' with
    | thunk h => rw [ih h]
  | @placed reversed _ _ _ x y hxy _ ih =>
    cases h' with
    | placed hyx h =>
      have hflags : x = y := by
        revert hxy hyx
        cases reversed <;> cases x <;> cases y <;> decide
      rw [ih h, hflags]

theorem Stands.mentions (h : Stands reversed t u) (p : Placement) :
    u.mentions p = t.mentions p := by
  induction h with
  | scalar | nil => rfl
  | cons _ _ ih ihs =>
    simp only [Ty.mentions] at ihs
    simp only [Ty.mentions, anyMentions, ih, ihs]
  | seq _ ih | thunk _ ih => exact ih
  | func _ _ ihp ihr => simp only [Ty.mentions, ihp, ihr]
  | placed _ _ ih => simp only [Ty.mentions, ih]

theorem isPlaced_of_standsFor (h : t.standsFor reversed u = true) : u.isPlaced = t.isPlaced := by
  have hmentions := (standsFor_iff.mp h).mentions
  simp only [isPlaced, hmentions]

theorem eq_of_standsFor (h : t.standsFor reversed u = true) (ht : t.isPlaced = false) : u = t := by
  have unmentioned : ∀ p, t.mentions p = false := by
    simp only [isPlaced, Bool.or_eq_false_iff] at ht
    rintro (_ | _)
    · exact ht.1
    · exact ht.2
  clear ht
  replace h := standsFor_iff.mp h
  induction h with
  | scalar | nil => rfl
  | cons _ _ ih ihs =>
    simp only [Ty.mentions, anyMentions, Bool.or_eq_false_iff] at unmentioned
    rw [ih fun p => (unmentioned p).1, Ty.tuple.inj (ihs fun p => (unmentioned p).2)]
  | seq _ ih | thunk _ ih => rw [ih unmentioned]
  | func _ _ ihp ihr =>
    simp only [Ty.mentions, Bool.or_eq_false_iff] at unmentioned
    rw [ihp fun p => (unmentioned p).1, ihr fun p => (unmentioned p).2]
  | @placed _ _ _ p _ _ _ _ _ => simpa [Ty.mentions] using unmentioned p

end TwoTier.Ty

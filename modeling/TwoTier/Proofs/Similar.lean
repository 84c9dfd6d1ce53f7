import TwoTier.Proofs.Runs
import TwoTier.Proofs.Typing

/-! # Similar values

Two values of a type are similar if nothing that is well typed and succeeds with the first can tell
the second from it. Functions are similar if they take similar arguments to similar results. A value
of a type is one that is similar to itself.
-/

namespace TwoTier

variable {s : Setting}

/-- If the first task ends with a value, so does the second, and the values are related. -/
def Mimics (s : Setting) (task task' : Task) (R : Value → Value → Prop) : Prop :=
  ∀ v, Runs s task v → ∃ w, Runs s task' w ∧ R v w

namespace Value

def isFunction : Value → Bool
  | .closure _ _ _ | .builtin _ _ | .intrinsic _ _ => true
  | _ => false

def isScalar : Scalar → Value → Bool
  | .int32, .int _ | .float32, .float _ | .bool, .bool _ => true
  | _, _ => false

end Value

mutual

/-- The first function must also take similar arguments to similar results by itself. Flags that say
whether all members are equal do not count. -/
def Similar (s : Setting) : Ty → Value → Value → Prop
  | .scalar k => fun v w => v = w ∧ v.isScalar k = true
  | .tuple ts => fun v w => ∃ vs ws, v = .tuple vs ∧ w = .tuple ws ∧ SimilarEach s ts vs ws
  | .seq t => fun v w => ∃ vs ws, v = .seq vs ∧ w = .seq ws ∧ List.Forall₂ (Similar s t) vs ws
  | .func p r => fun f g => f.isFunction = true ∧ g.isFunction = true ∧ ∀ a b, Similar s p a b →
      Mimics s (.call f (some a)) (.call f (some b)) (Similar s r) ∧
      Mimics s (.call f (some a)) (.call g (some b)) (Similar s r)
  | .thunk r => fun f g => f.isFunction = true ∧ g.isFunction = true ∧
      Mimics s (.call f none) (.call g none) (Similar s r)
  | .placed m .coordinator _ =>
    fun v w => ∃ a b, v = .atServer a ∧ w = .atServer b ∧ Similar s m a b
  | .placed m .participants _ => fun v w => ∃ vs ws, v = .atClients vs ∧ w = .atClients ws ∧
      vs.length = s.participants ∧ List.Forall₂ (Similar s m) vs ws

def SimilarEach (s : Setting) : List Ty → List Value → List Value → Prop
  | [] => fun vs ws => vs = [] ∧ ws = []
  | t :: ts =>
    fun vs ws => ∃ v vs' w ws', vs = v :: vs' ∧ ws = w :: ws' ∧ Similar s t v w ∧
      SimilarEach s ts vs' ws'

end

/-- The value is one of type `t`. -/
def Inhabits (s : Setting) (t : Ty) (v : Value) : Prop :=
  Similar s t v v

section Parts

variable {t u : Ty} {ts : List Ty} {v w : Value} {vs ws : List Value}

theorem SimilarEach.length (h : SimilarEach s ts vs ws) :
    ts.length = vs.length ∧ ts.length = ws.length := by
  induction ts generalizing vs ws with
  | nil =>
    obtain ⟨rfl, rfl⟩ := h
    simp
  | cons t ts ih =>
    obtain ⟨v, vs, w, ws, rfl, rfl, -, h⟩ := h
    simpa using ih h

theorem SimilarEach.getElem? (h : SimilarEach s ts vs ws) {i : Nat} (ht : ts[i]? = some t) :
    ∃ v w, vs[i]? = some v ∧ ws[i]? = some w ∧ Similar s t v w := by
  induction ts generalizing vs ws i with
  | nil => simp at ht
  | cons u ts ih =>
    obtain ⟨v, vs, w, ws, rfl, rfl, hv, h⟩ := h
    cases i with
    | zero =>
      simp only [List.getElem?_cons_zero, Option.some.injEq] at ht
      exact ⟨v, w, rfl, rfl, ht ▸ hv⟩
    | succ i => exact ih h ht

theorem Similar.length_tuple (h : Similar s (.tuple ts) (.tuple vs) w) : ts.length = vs.length := by
  obtain ⟨_, _, ⟨⟩, -, h⟩ := h
  exact h.length.1

theorem Similar.element (h : Similar s (.tuple ts) (.tuple vs) w) {i : Nat} (ht : ts[i]? = some t)
    (hv : vs[i]? = some v) : ∃ ws w', w = .tuple ws ∧ ws[i]? = some w' ∧ Similar s t v w' := by
  obtain ⟨_, ws, ⟨⟩, rfl, h⟩ := h
  obtain ⟨v', w', hv', hw, h⟩ := h.getElem? ht
  cases hv.symm.trans hv'
  exact ⟨ws, w', rfl, hw, h⟩

theorem exists_similarEach {α : Type} {P Q : α → Value → Prop} {f : α → Ty} {as : List α}
    (h : List.Forall₂ P as vs) (hP : ∀ a ∈ as, ∀ v, P a v → ∃ w, Q a w ∧ Similar s (f a) v w) :
    ∃ ws, List.Forall₂ Q as ws ∧ SimilarEach s (as.map f) vs ws := by
  induction h with
  | nil => exact ⟨[], .nil, rfl, rfl⟩
  | cons hv _ ih =>
    obtain ⟨w, hw, hvw⟩ := hP _ (by simp) _ hv
    obtain ⟨ws, hws, hvs⟩ := ih fun a ha => hP a (by simp [ha])
    exact ⟨w :: ws, .cons hw hws, _, _, _, _, rfl, rfl, hvw, hvs⟩

end Parts

section Types

variable {t u : Ty} {v w : Value}

theorem Similar.left (h : Similar s t v w) : Inhabits s t v := by
  unfold Inhabits
  induction t generalizing v w with
  | scalar k => exact ⟨rfl, h.2⟩
  | tuple ts ih =>
    obtain ⟨vs, ws, rfl, rfl, h⟩ := h
    refine ⟨vs, vs, rfl, rfl, ?_⟩
    induction ts generalizing vs ws with
    | nil => exact ⟨h.1, h.1⟩
    | cons t ts iht =>
      obtain ⟨v, vs, w, ws, rfl, rfl, hv, h⟩ := h
      exact ⟨v, vs, v, vs, rfl, rfl, ih t (by simp) hv,
        iht (fun t ht => ih t (by simp [ht])) vs ws h⟩
  | seq t ih =>
    obtain ⟨vs, ws, rfl, rfl, h⟩ := h
    exact ⟨vs, vs, rfl, rfl, forall₂_self h fun _ _ => ih⟩
  | func p r ihp ihr =>
    exact ⟨h.1, h.1, fun a b hab => ⟨(h.2.2 a b hab).1, (h.2.2 a b hab).1⟩⟩
  | thunk r ih =>
    refine ⟨h.1, h.1, fun v hv => ?_⟩
    obtain ⟨w, -, hw⟩ := h.2.2 v hv
    exact ⟨v, hv, ih hw⟩
  | placed m p e ih =>
    cases p with
    | coordinator =>
      obtain ⟨a, b, rfl, rfl, h⟩ := h
      exact ⟨a, a, rfl, rfl, ih h⟩
    | participants =>
      obtain ⟨vs, ws, rfl, rfl, hl, h⟩ := h
      exact ⟨vs, vs, rfl, rfl, hl, forall₂_self h fun _ _ => ih⟩

theorem similar_of_standsFor {reversed : Bool} (h : t.standsFor reversed u = true) :
    Similar s t = Similar s u := by
  induction t generalizing u reversed with
  | scalar k => cases u <;> simp_all [Ty.standsFor]
  | tuple ts ih =>
    cases u <;> simp only [Ty.standsFor, Bool.false_eq_true] at h
    rename_i us
    have hl : SimilarEach s ts = SimilarEach s us := by
      induction ts generalizing us with
      | nil => cases us <;> simp_all [Ty.standsForList]
      | cons t ts iht =>
        cases us <;> simp only [Ty.standsForList, Bool.false_eq_true, Bool.and_eq_true] at h
        simp only [SimilarEach, ih t (by simp) h.1, iht (fun t ht => ih t (by simp [ht])) _ h.2]
    simp only [Similar, hl]
  | seq t ih =>
    cases u <;> simp only [Ty.standsFor, Bool.false_eq_true] at h
    simp only [Similar, ih h]
  | func p r ihp ihr =>
    cases u <;> simp only [Ty.standsFor, Bool.false_eq_true, Bool.and_eq_true] at h
    simp only [Similar, ihp h.1, ihr h.2]
  | thunk r ih =>
    cases u <;> simp only [Ty.standsFor, Bool.false_eq_true] at h
    simp only [Similar, ih h]
  | placed m p e ih =>
    cases u <;> simp only [Ty.standsFor, Bool.false_eq_true, Bool.and_eq_true, beq_iff_eq] at h
    obtain ⟨⟨rfl, -⟩, h⟩ := h
    cases p <;> simp only [Similar, ih h]

end Types

namespace Value

mutual

/-- No function occurs in the value. -/
def isData : Value → Bool
  | .int _ | .float _ | .bool _ => true
  | .tuple vs | .seq vs | .atClients vs => allData vs
  | .atServer v => isData v
  | .closure _ _ _ | .builtin _ _ | .intrinsic _ _ => false

def allData : List Value → Bool
  | [] => true
  | v :: vs => isData v && allData vs

end

@[simp] theorem allData_iff {vs : List Value} : allData vs = true ↔ ∀ v ∈ vs, v.isData = true := by
  induction vs with
  | nil => simp [allData]
  | cons v vs ih => simp [allData, ih]

end Value

section Data

variable {t : Ty} {v w : Value}

theorem not_isData_of_isFunction (h : v.isFunction = true) : ¬ v.isData = true := by
  cases v <;> simp [Value.isFunction, Value.isData] at h ⊢

theorem Similar.eq_of_isData (h : Similar s t v w) (hv : v.isData = true) : w = v := by
  have each : ∀ {vs ws : List Value}, List.Forall₂ (fun v w => v.isData = true → w = v) vs ws →
      Value.allData vs = true → ws = vs := by
    intro vs ws h hvs
    induction h with
    | nil => rfl
    | cons hvw _ ih =>
      simp only [Value.allData, Bool.and_eq_true] at hvs
      rw [hvw hvs.1, ih hvs.2]
  induction t generalizing v w with
  | scalar k => exact h.1.symm
  | tuple ts ih =>
    obtain ⟨vs, ws, rfl, rfl, h⟩ := h
    congr 1
    induction ts generalizing vs ws with
    | nil => rw [h.1, h.2]
    | cons t ts iht =>
      obtain ⟨v, vs, w, ws, rfl, rfl, hv', h⟩ := h
      simp only [Value.isData, Value.allData, Bool.and_eq_true] at hv
      rw [ih t (by simp) hv' hv.1, iht (fun t ht => ih t (by simp [ht])) vs ws hv.2 h]
  | seq t ih =>
    obtain ⟨vs, ws, rfl, rfl, h⟩ := h
    rw [each (h.imp fun _ _ h => ih h) hv]
  | func p r ihp ihr => exact absurd hv (not_isData_of_isFunction h.1)
  | thunk r ih => exact absurd hv (not_isData_of_isFunction h.1)
  | placed m p e ih =>
    cases p with
    | coordinator =>
      obtain ⟨a, b, rfl, rfl, h⟩ := h
      rw [ih h hv]
    | participants =>
      obtain ⟨vs, ws, rfl, rfl, -, h⟩ := h
      rw [each (h.imp fun _ _ h => ih h) hv]

theorem Inhabits.isData (h : Inhabits s t v) (ht : t.isNumeric = true) : v.isData = true := by
  unfold Inhabits at h
  induction t generalizing v with
  | scalar k =>
    have h := h.2
    cases v <;> simp_all [Value.isScalar, Value.isData]
  | tuple ts ih =>
    obtain ⟨vs, _, rfl, ⟨⟩, h⟩ := h
    simp only [Value.isData]
    induction ts generalizing vs with
    | nil => simp [h.1, Value.allData]
    | cons t ts iht =>
      obtain ⟨v, vs, _, _, rfl, ⟨⟩, hv, h⟩ := h
      simp only [Ty.isNumeric, Ty.allNumeric, Bool.and_eq_true] at ht
      simp only [Value.allData, Bool.and_eq_true]
      exact ⟨ih t (by simp) hv ht.1, iht (fun t ht => ih t (by simp [ht])) ht.2 vs h⟩
  | seq | func | thunk | placed => simp [Ty.isNumeric] at ht

theorem Similar.eq_of_isNumeric (h : Similar s t v w) (ht : t.isNumeric = true) : w = v :=
  h.eq_of_isData (h.left.isData ht)

end Data

end TwoTier

import TwoTier.Round.Slice
import TwoTier.Proofs.Fundamental

/-! # Values inside a slot

A slot that keeps placements has the values of the round. A lowered slot has the bare value of the
coordinator, or of one participant, where the round has a placed one. Placements then stand only at
the top of types and in tuples.
-/

namespace TwoTier

namespace Ty

variable {t u p r : Ty} {ts : List Ty}

theorem anyMentions_eq {q : Placement} : anyMentions q ts = ts.any (mentions q) := by
  induction ts with
  | nil => rfl
  | cons t ts ih => simp [anyMentions, ih]

@[simp] theorem isPlaced_scalar {k : Scalar} : (Ty.scalar k).isPlaced = false := rfl

@[simp] theorem isPlaced_placed {q : Placement} {b : Bool} : (Ty.placed t q b).isPlaced = true := by
  cases q <;> simp [isPlaced, mentions]

@[simp] theorem isPlaced_seq : (Ty.seq t).isPlaced = t.isPlaced := rfl

@[simp] theorem isPlaced_thunk : (Ty.thunk t).isPlaced = t.isPlaced := rfl

theorem isPlaced_func :
    (Ty.func p r).isPlaced = false ↔ p.isPlaced = false ∧ r.isPlaced = false := by
  simp only [isPlaced, mentions, Bool.or_eq_false_iff]
  grind

theorem isPlaced_tuple : (Ty.tuple ts).isPlaced = false ↔ ∀ t ∈ ts, t.isPlaced = false := by
  simp only [isPlaced, mentions, anyMentions_eq, Bool.or_eq_false_iff, List.any_eq_false,
    Bool.not_eq_true]
  exact ⟨fun h t ht => ⟨h.1 t ht, h.2 t ht⟩,
    fun h => ⟨fun t ht => (h t ht).1, fun t ht => (h t ht).2⟩⟩

theorem isPlaced_of_isNumeric (h : t.isNumeric = true) : t.isPlaced = false := by
  induction t with
  | scalar k => rfl
  | tuple ts ih =>
    simp only [isNumeric] at h
    refine isPlaced_tuple.mpr fun t ht => ih t ht ?_
    induction ts with
    | nil => cases ht
    | cons u us ihs =>
      simp only [allNumeric, Bool.and_eq_true] at h
      rcases List.mem_cons.mp ht with rfl | ht
      · exact h.1
      · exact ihs (fun t ht => ih t (List.mem_cons_of_mem u ht)) h.2 ht
  | seq t | func p r | thunk t | placed t q b => simp [isNumeric] at h

theorem isPlaced_paramType {b : Builtin} (h : t.isPlaced = false) :
    (b.paramType t).isPlaced = false := by
  cases b <;> simp [Builtin.paramType, isPlaced_tuple, h]

mutual

/-- The type of what a lowered slot has for a value of this type. -/
def lower : Ty → Ty
  | .placed m _ _ => m
  | .tuple ts => .tuple (lowerList ts)
  | t => t

def lowerList : List Ty → List Ty
  | [] => []
  | t :: ts => lower t :: lowerList ts

end

mutual

/-- Only tuples may be between the top of the type and its placements. -/
def isFlat : Ty → Bool
  | .placed _ _ _ => true
  | .tuple ts => allFlat ts
  | t => !t.isPlaced

def allFlat : List Ty → Bool
  | [] => true
  | t :: ts => isFlat t && allFlat ts

end

theorem lowerList_eq : lowerList ts = ts.map lower := by
  induction ts with
  | nil => rfl
  | cons t ts ih => simp [lowerList, ih]

theorem allFlat_iff : allFlat ts = true ↔ ∀ t ∈ ts, t.isFlat = true := by
  induction ts with
  | nil => simp [allFlat]
  | cons t ts ih => simp [allFlat, ih]

theorem lower_of_not_isPlaced (h : t.isPlaced = false) : t.lower = t := by
  induction t with
  | tuple ts ih =>
    rw [lower, lowerList_eq]
    congr 1
    exact (List.map_congr_left fun t ht => ih t ht (isPlaced_tuple.mp h t ht)).trans
      (List.map_id' ts)
  | placed m q b => simp at h
  | scalar k | seq t | func p r | thunk t => rfl

theorem isFlat_of_not_isPlaced (h : t.isPlaced = false) : t.isFlat = true := by
  induction t with
  | tuple ts ih => exact allFlat_iff.mpr fun t ht => ih t ht (isPlaced_tuple.mp h t ht)
  | scalar k | placed m q b => rfl
  | seq t | func p r | thunk t => simpa [isFlat] using h

end Ty

mutual

/-- What a lowered slot has for a value of the round, in the place of participant `i`. -/
def Lowers (s : Setting) (i : Nat) : Ty → Value → Value → Prop
  | .placed m .coordinator _ => fun v w => ∃ u, v = .atServer u ∧ Similar s m u w
  | .placed m .participants _ =>
    fun v w => ∃ us u, v = .atClients us ∧ us[i]? = some u ∧ Similar s m u w
  | .tuple ts => fun v w => ∃ vs ws, v = .tuple vs ∧ w = .tuple ws ∧ LowersEach s i ts vs ws
  | t => Similar s t

def LowersEach (s : Setting) (i : Nat) : List Ty → List Value → List Value → Prop
  | [] => fun vs ws => vs = [] ∧ ws = []
  | t :: ts =>
    fun vs ws => ∃ v vs' w ws', vs = v :: vs' ∧ ws = w :: ws' ∧ Lowers s i t v w ∧
      LowersEach s i ts vs' ws'

end

def Each (R : Ty → Value → Value → Prop) : List Ty → List Value → List Value → Prop
  | [], vs, ws => vs = [] ∧ ws = []
  | t :: ts, vs, ws => ∃ v vs' w ws', vs = v :: vs' ∧ ws = w :: ws' ∧ R t v w ∧ Each R ts vs' ws'

section Each

variable {s : Setting} {i : Nat} {R R' : Ty → Value → Value → Prop} {ts : List Ty}
    {vs ws : List Value}

theorem similarEach_eq : SimilarEach s ts = Each (Similar s) ts := by
  induction ts with
  | nil => rfl
  | cons t ts ih => funext vs ws; simp only [SimilarEach, Each, ih]

theorem lowersEach_eq : LowersEach s i ts = Each (Lowers s i) ts := by
  induction ts with
  | nil => rfl
  | cons t ts ih => funext vs ws; simp only [LowersEach, Each, ih]

theorem each_congr (h : ∀ t ∈ ts, R t = R' t) : Each R ts = Each R' ts := by
  induction ts with
  | nil => rfl
  | cons t ts ih => funext vs ws; simp only [Each, h t (by simp), ih fun t ht => h t (by simp [ht])]

theorem Each.getElem? (h : Each R ts vs ws) {k : Nat} {t : Ty} {v : Value} (ht : ts[k]? = some t)
    (hv : vs[k]? = some v) : ∃ w, ws[k]? = some w ∧ R t v w := by
  induction ts generalizing vs ws k with
  | nil => simp at ht
  | cons u us ih =>
    obtain ⟨x, vs', y, ws', rfl, rfl, hxy, h⟩ := h
    cases k with
    | zero =>
      simp only [List.getElem?_cons_zero, Option.some.injEq] at ht hv ⊢
      exact ⟨y, rfl, ht ▸ hv ▸ hxy⟩
    | succ k => exact ih h (by simpa using ht) (by simpa using hv)

theorem exists_each {α : Type} {P : α → Value → Prop} {as : List α} {tvs : List (Ty × Value)}
    (h : List.Forall₂ (fun a tv => ∃ w, P a w ∧ R tv.1 tv.2 w) as tvs) :
    ∃ ws, List.Forall₂ P as ws ∧ Each R (tvs.map Prod.fst) (tvs.map Prod.snd) ws := by
  induction h with
  | nil => exact ⟨[], .nil, rfl, rfl⟩
  | cons h _ ih =>
    obtain ⟨w, hw, hvw⟩ := h
    obtain ⟨ws, hws, hvws⟩ := ih
    exact ⟨w :: ws, .cons hw hws, _, _, _, _, rfl, rfl, hvw, hvws⟩

theorem Lowers.pair {t u : Ty} {v w : Value} (h : Lowers s i (.tuple [t, u]) v w) :
    ∃ a b a' b', v = .tuple [a, b] ∧ w = .tuple [a', b'] ∧ Lowers s i t a a' ∧
    Lowers s i u b b' := by
  obtain ⟨_, _, rfl, rfl, a, _, a', _, rfl, rfl, ha, b, _, b', _, rfl, rfl, hb, rfl, rfl⟩ := h
  exact ⟨a, b, a', b', rfl, rfl, ha, hb⟩

theorem lowers_of_not_isPlaced {t : Ty} (h : t.isPlaced = false) : Lowers s i t = Similar s t := by
  induction t with
  | tuple ts ih =>
    have hts : LowersEach s i ts = SimilarEach s ts := by
      rw [lowersEach_eq, similarEach_eq]
      exact each_congr fun t ht => ih t ht (Ty.isPlaced_tuple.mp h t ht)
    funext v w
    simp only [Lowers, Similar, hts]
  | placed m q b => simp at h
  | scalar k | seq t | func p r | thunk t => rfl

end Each

section Operations

variable {s : Setting} {i : Nat} {ts ms : List Ty} {us ws : List Value} {v : Value}

theorem lower_of_memberAt? {site : Placement}
    (h : List.Forall₂ (fun t m => t.memberAt? site = some m) ts ms) :
    ts.map Ty.lower = ms := by
  induction h with
  | nil => rfl
  | cons hm _ ih =>
    obtain ⟨e, rfl⟩ := memberAt?_eq hm
    simp [Ty.lower, ih]

theorem lowers_map {op : LocalOp} (ho : op = .map ∨ op = .apply)
    {t p q m : Ty} {site : Placement} {b : Bool}
    {f g x y : Value} (hv : Runs s (.call (.intrinsic (.within op) t) (some (.tuple [f, x]))) v)
    (hacc : p.accepts m = true) (hf : Similar s (.func p q) f g)
    (hx : Lowers s i (.placed m site b) x y) :
    ∃ w, Runs s (.call g (some y)) w ∧ Lowers s i (.place q site false) v w := by
  have hpm : Similar s p = Similar s m := similar_of_standsFor hacc
  cases site with
  | coordinator =>
    obtain ⟨u, rfl, hu⟩ := hx
    obtain ⟨v, rfl, hrun⟩ := (runs_map_coordinator ho).mp hv
    obtain ⟨w, hw, hvw⟩ := (hf.2.2 u y (hpm ▸ hu)).2 v hrun
    exact ⟨w, hw, v, rfl, hvw⟩
  | participants =>
    obtain ⟨us, u, rfl, hi, hu⟩ := hx
    have hv :
        ∃ vs, v = .atClients vs ∧ List.Forall₂ (fun u w => Runs s (.call f (some u)) w) us vs := by
      rcases ho with rfl | rfl
      · simpa [runs_map] using hv
      · simp [runs_apply] at hv
    obtain ⟨vs, rfl, hvs⟩ := hv
    obtain ⟨v, hv, hrun⟩ := forall₂_getElem? hvs hi
    obtain ⟨w, hw, hvw⟩ := (hf.2.2 u y (hpm ▸ hu)).2 v hrun
    exact ⟨w, hw, vs, v, rfl, hv, hvw⟩

theorem lowers_zipAtServer {t : Ty}
    (hms : List.Forall₂ (fun t m => t.memberAt? .coordinator = some m) ts ms)
    (hv : Runs s (.call (.intrinsic (.within .zipAtServer) t) (some (.tuple us))) v)
    (h : Each (Lowers s i) ts us ws) :
    Lowers s i (.place (.tuple ms) .coordinator false) v (.tuple ws) := by
  obtain ⟨xs, hxs, rfl⟩ := runs_zipAtServer.mp hv
  obtain rfl := Value.tuple.inj hxs
  refine ⟨_, rfl, xs, ws, rfl, rfl, ?_⟩
  clear hv hxs
  induction hms generalizing xs ws with
  | nil =>
    obtain ⟨hxs, rfl⟩ := h
    exact ⟨by simpa using hxs, rfl⟩
  | cons hm _ ih =>
    obtain ⟨_, _, w, ws', hxs, rfl, hw, h⟩ := h
    obtain ⟨e, rfl⟩ := memberAt?_eq hm
    obtain ⟨u, rfl, hu⟩ := hw
    obtain ⟨x, xs, rfl, hx, rfl⟩ := List.map_eq_cons_iff.mp hxs
    obtain rfl := Value.atServer.inj hx
    exact ⟨x, xs, w, ws', rfl, rfl, hu, ih _ h⟩

theorem lowers_zipAtClients {t : Ty}
    (hms : List.Forall₂ (fun t m => t.memberAt? .participants = some m) ts ms)
    (hi : i < s.participants)
    (hv : Runs s (.call (.intrinsic (.within .zipAtClients) t) (some (.tuple us))) v)
    (h : Each (Lowers s i) ts us ws) :
    Lowers s i (.place (.tuple ms) .participants false) v (.tuple ws) := by
  obtain ⟨columns, rows, hc, rfl, hrows⟩ := runs_zipAtClients.mp hv
  obtain rfl := Value.tuple.inj hc
  obtain ⟨_, hrow, row, rfl, hus⟩ := forall₂_getElem? hrows (List.getElem?_range hi)
  refine ⟨rows, _, rfl, hrow, row, ws, rfl, rfl, ?_⟩
  clear hv hc hrows hrow
  induction hms generalizing columns row ws with
  | nil =>
    obtain ⟨hc, rfl⟩ := h
    obtain rfl : columns = [] := by simpa using hc
    cases hus
    exact ⟨rfl, rfl⟩
  | cons hm _ ih =>
    obtain ⟨_, _, w, ws', hc, rfl, hw, h⟩ := h
    obtain ⟨e, rfl⟩ := memberAt?_eq hm
    obtain ⟨us, u, rfl, hu, huw⟩ := hw
    obtain ⟨column, columns, rfl, hx, rfl⟩ := List.map_eq_cons_iff.mp hc
    obtain rfl := Value.atClients.inj hx
    cases hus with
    | cons hu' hus =>
      cases hu.symm.trans hu'
      exact ⟨u, _, w, ws', rfl, rfl, huw, ih _ h _ hus⟩

theorem lt_of_lowers {m : Ty} {b : Bool} {x w : Value}
    (h : Lowers s i (.placed m .participants b) x w)
    (hx : Inhabits s (.placed m .participants b) x) : i < s.participants := by
  obtain ⟨us, u, rfl, hi, -⟩ := h
  obtain ⟨vs, _, hvs, -, hlen, -⟩ := hx
  cases hvs
  exact hlen ▸ (List.getElem?_eq_some_iff.mp hi).1

end Operations

namespace Round

namespace Mode

def type (mode : Mode) (t : Ty) : Ty :=
  match mode with
  | .placed => t
  | .lowered => t.lower

def admits (mode : Mode) (t : Ty) : Bool :=
  match mode with
  | .placed => true
  | .lowered => t.isFlat

def Holds (s : Setting) (mode : Mode) (i : Nat) : Ty → Value → Value → Prop :=
  match mode with
  | .placed => Similar s
  | .lowered => Lowers s i

def Keeps (mode : Mode) (t : Ty) : Prop :=
  mode = .lowered → t.isPlaced = false

variable {s : Setting} {mode : Mode} {i : Nat} {t u p r : Ty} {ts : List Ty}

theorem type_tuple : mode.type (.tuple ts) = .tuple (ts.map mode.type) := by
  cases mode with
  | placed => exact congrArg Ty.tuple (List.map_id' ts).symm
  | lowered => exact congrArg Ty.tuple Ty.lowerList_eq

theorem admits_tuple : mode.admits (.tuple ts) = true ↔ ∀ t ∈ ts, mode.admits t = true := by
  cases mode with
  | placed => simp [admits]
  | lowered => simp [admits, Ty.isFlat, Ty.allFlat_iff]

theorem holds_tuple {v w : Value} : mode.Holds s i (.tuple ts) v w ↔
    ∃ vs ws, v = .tuple vs ∧ w = .tuple ws ∧ Each (mode.Holds s i) ts vs ws := by
  cases mode with
  | placed => simp only [Holds, Similar, similarEach_eq]
  | lowered => simp only [Holds, Lowers, lowersEach_eq]

theorem Keeps.type (h : mode.Keeps t) : mode.type t = t := by
  cases mode with
  | placed => rfl
  | lowered => exact Ty.lower_of_not_isPlaced (h rfl)

theorem Keeps.admits (h : mode.Keeps t) : mode.admits t = true := by
  cases mode with
  | placed => rfl
  | lowered => exact Ty.isFlat_of_not_isPlaced (h rfl)

theorem Keeps.holds (h : mode.Keeps t) : mode.Holds s i t = Similar s t := by
  cases mode with
  | placed => rfl
  | lowered => exact lowers_of_not_isPlaced (h rfl)

theorem Keeps.accepts (h : mode.Keeps p) (hacc : p.accepts t = true) : mode.Keeps t := fun hm =>
  (Ty.isPlaced_of_standsFor hacc).trans (h hm)

theorem keeps_func (h : mode.admits (.func p r) = true) : mode.Keeps (.func p r) := by
  rintro rfl
  simpa [Mode.admits, Ty.isFlat] using h

theorem keeps_thunk (h : mode.admits (.thunk r) = true) : mode.Keeps (.thunk r) := by
  rintro rfl
  simpa [Mode.admits, Ty.isFlat] using h

theorem Keeps.param (h : mode.Keeps (.func p r)) : mode.Keeps p :=
  fun hm => (Ty.isPlaced_func.mp (h hm)).1

theorem Keeps.result (h : mode.Keeps (.func p r)) : mode.Keeps r :=
  fun hm => (Ty.isPlaced_func.mp (h hm)).2

end Mode

end Round

end TwoTier

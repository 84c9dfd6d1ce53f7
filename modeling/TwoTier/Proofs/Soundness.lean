import TwoTier.Proofs.Ending

/-! # Type soundness and termination

Evaluating a typed expression ends, with a value of its type or with one of few faults. The values
of a type are given by recursion on it, so that closures are known by what their calls do; the proof
is an induction on the expression, under variables that have their types.
-/

namespace TwoTier

variable {s : Setting} {strict : Bool} {t u : Ty}

/-- The shape that all values of a type share. Values equal for all participants are copies of one
value. -/
def Value.Fits (s : Setting) : Ty → Value → Prop
  | .scalar k, v => v.isScalar k = true
  | .tuple ts, v => ∃ vs, v = .tuple vs ∧ vs.length = ts.length
  | .seq _, v => ∃ vs, v = .seq vs
  | .func _ _, v | .thunk _, v => v.isFunction = true
  | .placed _ .coordinator _, v => ∃ u, v = .atServer u
  | .placed _ .participants allEqual, v => ∃ vs, v = .atClients vs ∧ vs.length = s.participants ∧
      (allEqual = true → ∃ u, vs = List.replicate s.participants u)

mutual

/-- A value whose parts, as far as it has them, are of the types of the parts, and whose calls end
with a result of the result type. When `strict`, it has the shape of its type, and its calls run
into expected faults only. -/
def Has (s : Setting) (strict : Bool) : Ty → Value → Prop
  | .scalar k => fun v => strict = true → v.Fits s (.scalar k)
  | .tuple ts =>
    fun v => (strict = true → v.Fits s (.tuple ts)) ∧ ∀ vs, v = .tuple vs → HasEach s strict ts vs
  | .seq t =>
    fun v => (strict = true → v.Fits s (.seq t)) ∧ ∀ vs, v = .seq vs → ∀ u ∈ vs, Has s strict t u
  | .func p r => fun f => (strict = true → f.Fits s (.func p r)) ∧ ∀ a, Has s strict p a →
      Ends (fun n => Eval.call s n f (some a)) (Has s strict r) (Tolerated strict)
  | .thunk r => fun f => (strict = true → f.Fits s (.thunk r)) ∧ ∀ a,
      Ends (fun n => Eval.call s n f a) (Has s strict r) (Tolerated strict)
  | .placed m p e =>
    fun v => (strict = true → v.Fits s (.placed m p e)) ∧ (∀ u, v = .atServer u →
      Has s strict m u) ∧ ∀ vs, v = .atClients vs → ∀ u ∈ vs, Has s strict m u

def HasEach (s : Setting) (strict : Bool) : List Ty → List Value → Prop
  | [] => fun _ => True
  | t :: ts => fun vs => ∀ v vs', vs = v :: vs' → Has s strict t v ∧ HasEach s strict ts vs'

end

section Has

variable {ts : List Ty} {v : Value} {vs : List Value}

theorem Has.fits (h : Has s true t v) : v.Fits s t := by
  cases t <;> first | exact h.1 rfl | exact h rfl

theorem hasEach_cons : HasEach s strict (t :: ts) (v :: vs) ↔ Has s strict t v ∧
    HasEach s strict ts vs := by
  constructor
  · exact fun h => h v vs rfl
  · rintro h _ _ ⟨⟩
    exact h

theorem hasEach_iff : HasEach s strict ts vs ↔
    ∀ (i : Nat) t v, ts[i]? = some t → vs[i]? = some v → Has s strict t v := by
  induction ts generalizing vs with
  | nil => simp [HasEach]
  | cons t ts ih =>
    obtain _ | ⟨v, vs⟩ := vs
    · simp [HasEach]
    rw [hasEach_cons, ih]
    constructor
    · rintro ⟨hv, h⟩ (_ | i) t' v' ht' hv'
      · simp only [List.getElem?_cons_zero, Option.some.injEq] at ht' hv'
        exact ht' ▸ hv' ▸ hv
      · exact h i t' v' ht' hv'
    · exact fun h => ⟨h 0 t v rfl rfl, fun i => h (i + 1)⟩

theorem HasEach.getElem? (h : HasEach s strict ts vs) {i : Nat} (ht : ts[i]? = some t)
    (hv : vs[i]? = some v) :
    Has s strict t v :=
  hasEach_iff.mp h i t v ht hv

theorem hasEach_of_forall₂ {α : Type} {f : α → Ty} {as : List α}
    (h : List.Forall₂ (fun a v => Has s strict (f a) v) as vs) :
    HasEach s strict (as.map f) vs := by
  induction h with
  | nil => trivial
  | cons hv _ ih => exact hasEach_cons.mpr ⟨hv, ih⟩

theorem Has.of_standsFor {reversed : Bool} (h : t.standsFor reversed u = true) :
    if reversed then Has s strict t v → Has s strict u v else Has s strict u v →
        Has s strict t v := by
  induction t generalizing u v reversed with
  | scalar k => cases u <;> cases reversed <;> simp_all [Ty.standsFor]
  | tuple ts ih =>
    cases u <;> simp only [Ty.standsFor, Bool.false_eq_true] at h
    rename_i us
    have hl : ts.length = us.length ∧ ∀ vs, if reversed then HasEach s strict ts vs →
      HasEach s strict us vs
        else HasEach s strict us vs → HasEach s strict ts vs := by
      induction ts generalizing us with
      | nil => cases us <;> cases reversed <;> simp_all [Ty.standsForList, HasEach]
      | cons t ts iht =>
        cases us <;> simp only [Ty.standsForList, Bool.false_eq_true, Bool.and_eq_true] at h
        obtain ⟨hl, hts⟩ := iht (fun t ht => ih t (by simp [ht])) _ h.2
        refine ⟨by simp [hl], fun vs => ?_⟩
        have ht := fun v => @ih t (by simp) _ v _ h.1
        cases reversed <;> simp only [Bool.false_eq_true, if_false, if_true] at ht hts ⊢ <;>
          exact fun h v vs' hv => ⟨ht v (h v vs' hv).1, hts vs' (h v vs' hv).2⟩
    obtain ⟨hl, hts⟩ := hl
    cases reversed <;> simp only [Bool.false_eq_true, if_false, if_true] at hts ⊢ <;> exact fun h =>
      ⟨fun hs => by simpa only [Value.Fits, hl] using h.1 hs, fun vs hv => hts vs (h.2 vs hv)⟩
  | seq t ih =>
    cases u <;> simp only [Ty.standsFor, Bool.false_eq_true] at h
    have ht := fun v => @ih _ v _ h
    cases reversed <;> simp only [Bool.false_eq_true, if_false, if_true] at ht ⊢ <;>
      exact fun h => ⟨h.1, fun vs hv u hu => ht u (h.2 vs hv u hu)⟩
  | func p r ihp ihr =>
    cases u <;> simp only [Ty.standsFor, Bool.false_eq_true, Bool.and_eq_true] at h
    have hp := fun v => @ihp _ v _ h.1
    have hr := fun v => @ihr _ v _ h.2
    cases reversed <;> simp only [Bool.false_eq_true, Bool.not_true,
      Bool.not_false, if_false, if_true] at hp hr ⊢ <;>
      exact fun h => ⟨h.1, fun a ha => (h.2 a (hp a ha)).mono hr fun _ h => h⟩
  | thunk r ih =>
    cases u <;> simp only [Ty.standsFor, Bool.false_eq_true] at h
    have hr := fun v => @ih _ v _ h
    cases reversed <;> simp only [Bool.false_eq_true, if_false, if_true] at hr ⊢ <;>
      exact fun h => ⟨h.1, fun a => (h.2 a).mono hr fun _ h => h⟩
  | placed m p e ih =>
    cases u <;> simp only [Ty.standsFor, Bool.false_eq_true, Bool.and_eq_true, beq_iff_eq] at h
    obtain ⟨⟨rfl, he⟩, h⟩ := h
    have hm := fun v => @ih _ v _ h
    -- Only the flag matters for the shape: the type with the flag has fewer values.
    cases p <;> cases reversed <;> simp only [Bool.false_eq_true, if_false, if_true] at he hm ⊢ <;>
      refine fun h => ⟨fun hs => ?_, fun u hu => hm u (h.2.1 u hu),
      fun vs hv u hu => hm u (h.2.2 vs hv u hu)⟩
    · exact h.1 hs
    · exact h.1 hs
    · obtain ⟨vs, hv, hl, hvs⟩ := h.1 hs
      exact ⟨vs, hv, hl, fun h => hvs (by simpa [h] using he)⟩
    · obtain ⟨vs, hv, hl, hvs⟩ := h.1 hs
      exact ⟨vs, hv, hl, fun h => hvs (by simpa [h] using he)⟩

theorem Has.of_accepts (h : t.accepts u = true) : Has s strict u v → Has s strict t v :=
  Has.of_standsFor h

/-- Without strictness, a value without functions is one of any type. -/
theorem has_of_isData (hv : v.isData = true) : Has s false t v := by
  induction t generalizing v with
  | scalar k => exact fun h => absurd h Bool.false_ne_true
  | tuple ts ih =>
    refine ⟨fun h => absurd h Bool.false_ne_true, ?_⟩
    rintro vs rfl
    simp only [Value.isData] at hv
    induction ts generalizing vs with
    | nil => trivial
    | cons t ts iht =>
      rintro v vs rfl
      simp only [Value.allData, Bool.and_eq_true] at hv
      exact ⟨ih t (by simp) hv.1, iht (fun t ht => ih t (by simp [ht])) vs hv.2⟩
  | seq t ih =>
    refine ⟨fun h => absurd h Bool.false_ne_true, ?_⟩
    rintro vs rfl u hu
    exact ih (Value.allData_iff.mp hv u hu)
  | func p r ihp ihr =>
    refine ⟨fun h => absurd h Bool.false_ne_true, fun a _ =>
      ends_succ (fun n => ?_) (ends_misshapen (f := .notCallable v) tolerated_of_not_strict)⟩
    cases v <;> first | rfl | simp [Value.isData] at hv
  | thunk r ih =>
    refine ⟨fun h => absurd h Bool.false_ne_true, fun a =>
      ends_succ (fun n => ?_) (ends_misshapen (f := .notCallable v) tolerated_of_not_strict)⟩
    cases v <;> first | rfl | simp [Value.isData] at hv
  | placed m p e ih =>
    refine ⟨fun h => absurd h Bool.false_ne_true, ?_, ?_⟩
    · rintro u rfl
      exact ih hv
    · rintro vs rfl u hu
      exact ih (Value.allData_iff.mp hv u hu)

theorem has_nil : Has s true (.tuple []) v ↔ v = .tuple [] := by
  constructor
  · rintro ⟨hf, -⟩
    obtain ⟨vs, rfl, hl⟩ := hf rfl
    rw [List.eq_nil_of_length_eq_zero hl]
  · rintro rfl
    exact ⟨fun _ => ⟨[], rfl, rfl⟩, fun _ _ => trivial⟩

theorem has_cons : Has s true (.tuple (t :: ts)) v ↔
    ∃ u us, v = .tuple (u :: us) ∧ Has s true t u ∧ Has s true (.tuple ts) (.tuple us) := by
  constructor
  · rintro ⟨hf, hv⟩
    obtain ⟨vs, rfl, hl⟩ := hf rfl
    obtain _ | ⟨u, us⟩ := vs
    · simp at hl
    obtain ⟨hu, hus⟩ := hasEach_cons.mp (hv _ rfl)
    refine ⟨u, us, rfl, hu, fun _ => ⟨us, rfl, by simpa using hl⟩, ?_⟩
    rintro _ ⟨⟩
    exact hus
  · rintro ⟨u, us, rfl, hu, hf, hus⟩
    obtain ⟨_, ⟨⟩, hl⟩ := hf rfl
    refine ⟨fun _ => ⟨_, rfl, by simp [hl]⟩, ?_⟩
    rintro _ ⟨⟩
    exact hasEach_cons.mpr ⟨hu, hus _ rfl⟩

theorem has_iff_inhabits (ht : t.isNumeric = true) : Has s true t v ↔ Inhabits s t v := by
  induction t generalizing v with
  | scalar k => exact ⟨fun h => ⟨rfl, h rfl⟩, fun h _ => h.2⟩
  | tuple ts ih =>
    induction ts generalizing v with
    | nil => rw [has_nil, inhabits_nil]
    | cons t ts iht =>
      simp only [Ty.isNumeric, Ty.allNumeric, Bool.and_eq_true] at ht
      simp only [has_cons, inhabits_cons, ih t (by simp) ht.1,
        iht (fun t ht => ih t (by simp [ht])) ht.2]
  | seq | func | thunk | placed => simp [Ty.isNumeric] at ht

theorem has_of_isNumeric (ht : t.isNumeric = true) : Has s false t v := by
  induction t generalizing v with
  | scalar k => exact fun h => absurd h Bool.false_ne_true
  | tuple ts ih =>
    refine ⟨fun h => absurd h Bool.false_ne_true, fun vs h => ?_⟩
    clear h
    induction ts generalizing vs with
    | nil => trivial
    | cons t ts iht =>
      simp only [Ty.isNumeric, Ty.allNumeric, Bool.and_eq_true] at ht
      exact fun u us _ => ⟨ih t (by simp) ht.1, iht (fun t ht => ih t (by simp [ht])) ht.2 us⟩
  | seq | func | thunk | placed => simp [Ty.isNumeric] at ht

theorem gives_has (ht : t.isNumeric = true) {x : Except EvalFault Value}
    (h : strict = true → Gives x (Inhabits s t) EvalFault.Expected) :
    Gives x (Has s strict t) (Tolerated strict) := by
  cases strict with
  | true =>
    rcases h rfl with ⟨v, hv, h⟩ | ⟨f, hf, h⟩
    · exact .inl ⟨v, hv, (has_iff_inhabits ht).mpr h⟩
    · exact .inr ⟨f, hf, fun _ => h⟩
  | false =>
    rcases x with f | v
    · exact .inr ⟨f, rfl, tolerated_of_not_strict⟩
    · exact .inl ⟨v, rfl, has_of_isNumeric ht⟩

end Has

section Parts

variable {a b v : Value} {vs : List Value}

theorem Has.two (h : Has s strict (.tuple [t, u]) v) :
    Gives v.two (fun p => Has s strict t p.1 ∧ Has s strict u p.2) (Tolerated strict) := by
  rcases hv : v.two with f | ⟨a, b⟩
  · refine .inr ⟨f, rfl, fun hs => ?_⟩
    subst hs
    obtain ⟨vs, rfl, hl⟩ := h.fits
    obtain ⟨a, b, rfl⟩ := List.length_eq_two.mp hl
    simp [Value.two] at hv
  · refine .inl ⟨_, rfl, ?_⟩
    have h := h.2 _ (Value.two_ok.mp hv)
    exact ⟨h.getElem? (i := 0) rfl rfl, h.getElem? (i := 1) rfl rfl⟩

theorem Has.five {t₁ t₂ t₃ t₄ t₅ : Ty} (h : Has s strict (.tuple [t₁, t₂, t₃, t₄, t₅]) v) :
    Gives v.five (fun p => Has s strict t₁ p.1 ∧ Has s strict t₂ p.2.1 ∧ Has s strict t₃ p.2.2.1 ∧
      Has s strict t₄ p.2.2.2.1 ∧ Has s strict t₅ p.2.2.2.2) (Tolerated strict) := by
  rcases hv : v.five with f | p
  · refine .inr ⟨f, rfl, fun hs => ?_⟩
    subst hs
    obtain ⟨vs, rfl, hl⟩ := h.fits
    match vs, hl with
    | [_, _, _, _, _], _ => simp [Value.five] at hv
  · refine .inl ⟨_, rfl, ?_⟩
    have h := h.2 _ (Value.five_ok.mp hv)
    exact ⟨h.getElem? (i := 0) rfl rfl, h.getElem? (i := 1) rfl rfl, h.getElem? (i := 2) rfl rfl,
      h.getElem? (i := 3) rfl rfl, h.getElem? (i := 4) rfl rfl⟩

theorem Has.element {ts : List Ty} {i : Nat} (h : Has s strict (.tuple ts) v)
    (ht : ts[i]? = some t) :
    Gives (v.element i) (Has s strict t) (Tolerated strict) := by
  rcases hv : v.element i with f | u
  · refine .inr ⟨f, rfl, fun hs => ?_⟩
    subst hs
    obtain ⟨vs, rfl, hl⟩ := h.fits
    have hi : i < vs.length := hl ▸ (List.getElem?_eq_some_iff.mp ht).1
    simp [Value.element, List.getElem?_eq_getElem hi] at hv
  · obtain ⟨vs, rfl, hu⟩ := Value.element_ok.mp hv
    exact .inl ⟨u, rfl, (h.2 vs rfl).getElem? ht hu⟩

theorem Has.serverContent {e : Bool} (h : Has s strict (.placed t .coordinator e) v) :
    Gives v.serverContent (Has s strict t) (Tolerated strict) := by
  rcases hv : v.serverContent with f | u
  · refine .inr ⟨f, rfl, fun hs => ?_⟩
    subst hs
    obtain ⟨u, rfl⟩ := h.fits
    simp [Value.serverContent] at hv
  · exact .inl ⟨u, rfl, h.2.1 u (Value.serverContent_ok.mp hv)⟩

theorem Has.clientContents {e : Bool} (h : Has s strict (.placed t .participants e) v) :
    Gives v.clientContents (fun vs => v = .atClients vs ∧ (∀ u ∈ vs, Has s strict t u) ∧
      (strict = true → vs.length = s.participants)) (Tolerated strict) := by
  rcases hv : v.clientContents with f | vs
  · refine .inr ⟨f, rfl, fun hs => ?_⟩
    subst hs
    obtain ⟨vs, rfl, -⟩ := h.fits
    simp [Value.clientContents] at hv
  · obtain rfl := Value.clientContents_ok.mp hv
    refine .inl ⟨vs, rfl, rfl, h.2.2 vs rfl, fun hs => ?_⟩
    subst hs
    obtain ⟨_, ⟨⟩, hl, -⟩ := h.fits
    exact hl

theorem has_pair (ha : Has s strict t a) (hb : Has s strict u b) :
    Has s strict (.tuple [t, u]) (.pair a b) := by
  refine ⟨fun _ => ⟨[a, b], rfl, rfl⟩, ?_⟩
  rintro _ ⟨⟩
  exact hasEach_cons.mpr ⟨ha, hasEach_cons.mpr ⟨hb, trivial⟩⟩

theorem has_atServer (h : Has s strict t v) : Has s strict (.atCoordinator t) (.atServer v) := by
  refine ⟨fun _ => ⟨v, rfl⟩, ?_, by rintro _ ⟨⟩⟩
  rintro _ ⟨⟩
  exact h

theorem has_atClients {e : Bool} (h : ∀ u ∈ vs, Has s strict t u)
    (hl : strict = true → vs.length = s.participants)
    (he : e = true → ∃ u, vs = List.replicate s.participants u) :
    Has s strict (.place t .participants e) (.atClients vs) := by
  have hp : Ty.place t .participants e = .placed t .participants e := by simp [Ty.place]
  rw [hp]
  refine ⟨fun hs => ⟨vs, rfl, hl hs, he⟩, by rintro _ ⟨⟩, ?_⟩
  rintro _ ⟨⟩
  exact h

end Parts

section Intrinsics

variable {arg r : Ty} {a : Value}

theorem ends_broadcast (hr : Intrinsic.broadcastResult arg = .ok r) (ha : Has s strict arg a) :
    Ends (fun n => Eval.intrinsic s (Eval.call s n) (.crossing .broadcast) t a) (Has s strict r)
      (Tolerated strict) := by
  unfold Intrinsic.broadcastResult at hr
  split at hr <;> cases hr
  rename_i m hm
  obtain ⟨e, rfl⟩ := memberAt?_eq hm
  refine ends_bind (ends_lift ha.serverContent) fun v hv => ends_pure ?_
  exact has_atClients (fun u hu => List.eq_of_mem_replicate hu ▸ hv)
    (fun _ => by simp) fun _ => ⟨v, rfl⟩

theorem ends_map (hr : Intrinsic.mapResult .map arg = .ok r) (ha : Has s strict arg a) :
    Ends (fun n => Eval.within s (Eval.call s n) .map a) (Has s strict r) (Tolerated strict) := by
  obtain ⟨p, q, m, site, e, rfl, -, -, hacc, rfl⟩ := mapResult_ok hr
  refine ends_bind (ends_lift ha.two) ?_
  rintro ⟨f, v⟩ ⟨hf, hv⟩
  have hcall : ∀ u, Has s strict m u →
      Ends (fun n => Eval.call s n f (some u)) (Has s strict q) (Tolerated strict) :=
    fun u hu => hf.2 u (hu.of_accepts hacc)
  -- A value in the wrong place is not strictly of its type.
  cases v with
  | atClients us =>
    have hus := hv.2.2 us rfl
    refine ends_bind (ends_each fun u hu => hcall u (hus u hu)) fun ws hws => ends_pure ?_
    have hw : ∀ w ∈ ws, Has s strict q w := fun w hw => by
      obtain ⟨_, _, h⟩ := forall₂_mem hws.flip hw
      exact h
    cases site with
    | participants =>
      refine has_atClients hw (fun hs => ?_) fun h => absurd h Bool.false_ne_true
      subst hs
      obtain ⟨_, ⟨⟩, hl, -⟩ := hv.fits
      exact hws.length_eq.symm.trans hl
    | coordinator =>
      refine ⟨fun hs => ?_, by rintro _ ⟨⟩, ?_⟩
      · subst hs
        obtain ⟨_, ⟨⟩⟩ := hv.fits
      · rintro _ ⟨⟩
        exact hw
  | atServer u =>
    refine ends_bind (hcall u (hv.2.1 u rfl)) fun w hw => ends_pure ?_
    cases site with
    | coordinator => exact has_atServer hw
    | participants =>
      refine ⟨fun hs => ?_, ?_, by rintro _ ⟨⟩⟩
      · subst hs
        obtain ⟨_, ⟨⟩, -⟩ := hv.fits
      · rintro _ ⟨⟩
        exact hw
  | _ =>
    refine ends_misshapen fun hs => ?_
    subst hs
    cases site <;> obtain ⟨_, h⟩ := hv.fits <;> simp at h

theorem ends_apply (hr : Intrinsic.mapResult .apply arg = .ok r) (ha : Has s strict arg a) :
    Ends (fun n => Eval.within s (Eval.call s n) .apply a) (Has s strict r) (Tolerated strict) := by
  obtain ⟨p, q, m, site, e, rfl, hsite, -, hacc, rfl⟩ := mapResult_ok hr
  obtain rfl := hsite rfl
  refine ends_bind (ends_lift ha.two) ?_
  rintro ⟨f, v⟩ ⟨hf, hv⟩
  refine ends_bind (ends_lift hv.serverContent) fun u hu => ?_
  exact ends_bind (hf.2 u (hu.of_accepts hacc)) fun w hw => ends_pure (has_atServer hw)

theorem ends_valueAtServer (ha : Has s strict arg a) :
    Ends (fun n => Eval.within s (Eval.call s n) .valueAtServer a)
    (Has s strict (.atCoordinator arg))
      (Tolerated strict) :=
  ends_pure (has_atServer ha)

theorem has_tuple {ts : List Ty} {vs : List Value} (hl : strict = true → vs.length = ts.length)
    (h : HasEach s strict ts vs) : Has s strict (.tuple ts) (.tuple vs) := by
  refine ⟨fun hs => ⟨vs, rfl, hl hs⟩, ?_⟩
  rintro _ ⟨⟩
  exact h

section Zip

variable {site : Placement} {ts ms : List Ty} {vs : List Value}

theorem Has.zipped (ha : Has s strict (.tuple ts) (.tuple vs))
    (hms : List.Forall₂ (fun t m => t.memberAt? site = some m) ts ms) :
    (strict = true → vs.length = ms.length) ∧
      ∀ (i : Nat) m v, ms[i]? = some m → vs[i]? = some v →
      ∃ e, Has s strict (.placed m site e) v := by
  refine ⟨fun hs => ?_, fun i m v hm hv => ?_⟩
  · subst hs
    obtain ⟨_, ⟨⟩, hl⟩ := ha.fits
    exact hl.trans hms.length_eq
  · obtain ⟨t, ht, hmem⟩ := forall₂_getElem? hms.flip hm
    obtain ⟨e, rfl⟩ := memberAt?_eq hmem
    exact ⟨e, (ha.2 vs rfl).getElem? ht hv⟩

theorem Has.zipped_mem (ha : Has s true (.tuple ts) (.tuple vs))
    (hms : List.Forall₂ (fun t m => t.memberAt? site = some m) ts ms) {v : Value} (hv : v ∈ vs) :
    ∃ m e, Has s true (.placed m site e) v := by
  obtain ⟨hl, h⟩ := ha.zipped hms
  obtain ⟨i, hi, rfl⟩ := List.getElem_of_mem hv
  have him : i < ms.length := hl rfl ▸ hi
  obtain ⟨e, h⟩ := h i ms[i] vs[i] (List.getElem?_eq_getElem him) (List.getElem?_eq_getElem hi)
  exact ⟨_, e, h⟩

theorem ends_zipAtServer (hr : Intrinsic.zipResult .coordinator .coordinatorTuple arg = .ok r)
    (ha : Has s strict arg a) :
    Ends (fun n => Eval.within s (Eval.call s n) .zipAtServer a) (Has s strict r)
    (Tolerated strict) := by
  obtain ⟨ts, ms, rfl, hms, rfl⟩ := zipResult_ok hr
  cases a with
  | tuple vs =>
    have hv : ∀ v ∈ vs, Gives v.serverContent (fun u => v = .atServer u) (Tolerated strict) := by
      intro v hv
      rcases h : v.serverContent with f | u
      · refine .inr ⟨f, rfl, fun hs => ?_⟩
        subst hs
        obtain ⟨m, e, hv⟩ := ha.zipped_mem hms hv
        obtain ⟨u, rfl⟩ := hv.fits
        simp [Value.serverContent] at h
      · exact .inl ⟨u, rfl, Value.serverContent_ok.mp h⟩
    refine ends_bind (ends_each fun v h => ends_lift (hv v h)) fun us hus =>
      ends_pure (has_atServer ?_)
    obtain ⟨hl, h⟩ := ha.zipped hms
    refine has_tuple (fun hs => hus.length_eq.symm.trans (hl hs))
      (hasEach_iff.mpr fun i m u hm hu => ?_)
    obtain ⟨v, hv, rfl⟩ := forall₂_getElem? hus.flip hu
    obtain ⟨e, h⟩ := h i m _ hm hv
    exact h.2.1 u rfl
  | _ =>
    refine ends_misshapen fun hs => ?_
    subst hs
    obtain ⟨_, h, -⟩ := ha.fits
    simp at h

theorem ends_row {columns : List (List Value)} {i : Nat}
    (h : strict = true → ∀ c ∈ columns, i < c.length) :
    Ends (fun _ => Eval.row columns i)
      (fun v => ∃ us, v = .tuple us ∧ List.Forall₂ (fun column u => column[i]? = some u) columns us)
      (Tolerated strict) := by
  refine ends_bind
      (ends_each (R := fun column u => column[i]? = some u) fun column hc => ?_) fun us hus =>
    ends_pure ⟨us, rfl, hus⟩
  cases hi : column[i]? with
  | none =>
    refine ends_misshapen fun hs => ?_
    have hlt := h hs column hc
    simp [List.getElem?_eq_getElem hlt] at hi
  | some u => exact ends_pure rfl

theorem ends_zipAtClients (hr : Intrinsic.zipResult .participants .participantTuple arg = .ok r)
    (ha : Has s strict arg a) :
    Ends (fun n => Eval.within s (Eval.call s n) .zipAtClients a) (Has s strict r)
    (Tolerated strict) := by
  obtain ⟨ts, ms, rfl, hms, rfl⟩ := zipResult_ok hr
  cases a with
  | tuple vs =>
    have hv : ∀ v ∈ vs, Gives v.clientContents (fun c => v = .atClients c ∧
        (strict = true → c.length = s.participants)) (Tolerated strict) := by
      intro v hv
      rcases h : v.clientContents with f | c
      · refine .inr ⟨f, rfl, fun hs => ?_⟩
        subst hs
        obtain ⟨m, e, hv⟩ := ha.zipped_mem hms hv
        obtain ⟨u, rfl, -⟩ := hv.fits
        simp [Value.clientContents] at h
      · obtain rfl := Value.clientContents_ok.mp h
        refine .inl ⟨c, rfl, rfl, fun hs => ?_⟩
        subst hs
        obtain ⟨m, e, hv⟩ := ha.zipped_mem hms hv
        obtain ⟨_, ⟨⟩, hl, -⟩ := hv.fits
        exact hl
    refine ends_bind (ends_each fun v h => ends_lift (hv v h)) fun columns hc => ?_
    have hrow : ∀ i ∈ List.range s.participants, Ends (fun _ => Eval.row columns i)
        (Has s strict (.tuple ms)) (Tolerated strict) := by
      intro i hi
      refine (ends_row fun hs c hcm => ?_).mono ?_ fun _ h => h
      · obtain ⟨_, _, -, h⟩ := forall₂_mem hc.flip hcm
        simpa [h hs] using hi
      · rintro _ ⟨us, rfl, hus⟩
        obtain ⟨hl, h⟩ := ha.zipped hms
        refine has_tuple (fun hs => ?_) (hasEach_iff.mpr fun j m u hm hu => ?_)
        · rw [← hus.length_eq, ← hc.length_eq, hl hs]
        · obtain ⟨c, hcj, hcu⟩ := forall₂_getElem? hus.flip hu
          obtain ⟨v, hv, rfl, -⟩ := forall₂_getElem? hc.flip hcj
          obtain ⟨e, h⟩ := h j m _ hm hv
          exact h.2.2 c rfl u (List.mem_of_getElem? hcu)
    refine ends_bind (ends_each hrow) fun rows hrows =>
      ends_pure (has_atClients (fun row hmem => ?_) ?_ fun h => absurd h Bool.false_ne_true)
    · obtain ⟨_, _, h⟩ := forall₂_mem hrows.flip hmem
      exact h
    · exact fun _ => by simpa using hrows.length_eq.symm
  | _ =>
    refine ends_misshapen fun hs => ?_
    subst hs
    obtain ⟨_, h, -⟩ := ha.fits
    simp at h

end Zip

theorem ends_secureSum {op : Crossing} (hr : Intrinsic.secureSumResult op arg = .ok r)
    (ha : Has s strict arg a) (ho : op.secureChannel?.isSome) :
    Ends (fun n => Eval.intrinsic s (Eval.call s n) (.crossing op) (.func arg r) a) (Has s strict r)
      (Tolerated strict) := by
  obtain ⟨m, p, e, rfl, hm, rfl, -⟩ := secureSumResult_ok hr
  have hsum : ∀ us parameter, (∀ u ∈ us, Has s strict m u) → Ends (fun _ => Eval.secureSum op
      (.func (.tuple [.placed m .participants e, p]) (.atCoordinator m)) us parameter)
        (Has s strict (.atCoordinator m)) (Tolerated strict) := by
    intro us parameter hus
    have h :
        Gives (Value.secureSum op m us parameter.held) (Has s strict m) (Tolerated strict) := by
      refine gives_has (isNumeric_of_isInteger hm) fun hs => ?_
      subst hs
      exact secureSum_gives hm fun u hu =>
        (has_iff_inhabits (isNumeric_of_isInteger hm)).mp (hus u hu)
    cases parameter <;> exact ends_bind (ends_lift h) fun v hv => ends_pure (has_atServer hv)
  have hrest : ∀ q : Value × Value, Has s strict (.placed m .participants e) q.1 ∧
      Has s strict p q.2 →
      Ends (fun _ => (liftM q.1.clientContents : Eval (List Value)) >>= fun us =>
        Eval.secureSum op (.func (.tuple [.placed m .participants e, p]) (.atCoordinator m)) us q.2)
        (Has s strict (.atCoordinator m)) (Tolerated strict) :=
    fun q hq => ends_bind (ends_lift hq.1.clientContents) fun us hus => hsum us q.2 hus.2.1
  cases op <;> simp only [Crossing.secureChannel?, Option.isSome, Bool.false_eq_true] at ho <;>
    exact ends_bind (ends_lift ha.two) hrest

theorem ends_fold {f total : Value} {us : List Value}
    (hf : Has s strict (.func (.tuple [t, u]) t) f)
    (ht : Has s strict t total) (hus : ∀ v ∈ us, Has s strict u v) :
    Ends (fun n => Eval.fold (Eval.call s n) f total us) (Has s strict t) (Tolerated strict) := by
  induction us generalizing total with
  | nil => exact ends_pure ht
  | cons v us ih =>
    exact ends_bind (hf.2 _ (has_pair ht (hus v (by simp)))) fun total ht =>
      ih ht fun v hv => hus v (by simp [hv])

theorem ends_aggregateAll {us : List Value} {zero accumulate merge : Value}
    (ha : Has s strict (.func (.tuple [t, u]) t) accumulate)
    (hm : Has s strict (.func (.tuple [t, t]) t) merge)
    (hz : Has s strict t zero) (hus : ∀ v ∈ us, Has s strict u v) :
    Ends (fun n => Eval.aggregate s (Eval.call s n) us zero accumulate merge) (Has s strict t)
      (Tolerated strict) := by
  have hgroups : ∀ group ∈ Eval.groups s.groupSize us, ∀ v ∈ group, Has s strict u v := by
    have h := forall₂_groupsFrom (R := fun v _ => Has s strict u v)
      (List.forall₂_same.mpr hus) s.groupSize 0
    intro group hg
    have h : List.Forall₂ (fun v _ => Has s strict u v) group group :=
      List.forall₂_same.mp h group hg
    exact fun v hv => List.forall₂_same.mp h v hv
  refine ends_bind (ends_each fun group hg => ends_fold ha hz (hgroups group hg))
    fun parts hparts => ?_
  have hp : ∀ v ∈ parts, Has s strict t v := fun v hv => by
    obtain ⟨_, _, h⟩ := forall₂_mem hparts.flip hv
    exact h
  cases parts with
  | nil => exact ends_pure hz
  | cons first rest => exact ends_fold hm (hp first (by simp)) fun v hv => hp v (by simp [hv])

theorem ends_aggregate (hr : Intrinsic.aggregateResult arg = .ok r) (ha : Has s strict arg a) :
    Ends (fun n => Eval.intrinsic s (Eval.call s n) (.crossing .aggregate) t a) (Has s strict r)
      (Tolerated strict) := by
  obtain ⟨m, e, z, q, rfl, rfl, -, -⟩ := aggregateResult_ok hr
  refine ends_bind (ends_lift ha.five) ?_
  rintro ⟨values, zero, accumulate, merge, report⟩ ⟨hv, hz, hacc, hm, hrep⟩
  refine ends_bind (ends_lift hv.clientContents) ?_
  rintro us ⟨-, hus, -⟩
  refine ends_bind (ends_aggregateAll hacc hm hz hus) fun total htotal => ?_
  exact ends_bind (hrep.2 total htotal) fun v hv => ends_pure (has_atServer hv)

theorem ends_intrinsic {op : Intrinsic} (hr : op.resultType arg = .ok r) (ha : Has s strict arg a) :
    Ends (fun n => Eval.call s n (.intrinsic op (.func arg r)) (some a)) (Has s strict r)
    (Tolerated strict) := by
  suffices h : Ends (fun n => Eval.intrinsic s (Eval.call s n) op (.func arg r) a) (Has s strict r)
      (Tolerated strict) from ends_succ (fun n => bind_result Traced.note_ok) h
  match op with
  | .crossing .broadcast => exact ends_broadcast hr ha
  | .crossing .aggregate => exact ends_aggregate hr ha
  | .crossing .bitwidthSum => exact ends_secureSum hr ha rfl
  | .crossing .boundedSum => exact ends_secureSum hr ha rfl
  | .crossing .modularSum => exact ends_secureSum hr ha rfl
  | .within .map => exact ends_map hr ha
  | .within .apply => exact ends_apply hr ha
  | .within .zipAtClients => exact ends_zipAtClients hr ha
  | .within .zipAtServer => exact ends_zipAtServer hr ha
  | .within .valueAtServer =>
    simp only [Intrinsic.resultType] at hr
    split at hr <;> cases hr
    exact ends_valueAtServer ha

end Intrinsics

/-- Every variable that the expression refers to is bound to a value of its type. -/
def HasFor (s : Setting) (strict : Bool) (Γ : List (String × Ty)) (e : Expr) (env : Env) : Prop :=
  ∀ x, e.Refers x → ∃ t v, Γ.lookup x = some t ∧ env.lookup x = some v ∧ Has s strict t v

theorem HasFor.bind {Γ : List (String × Ty)} {e e' : Expr} {env : Env} {x : String} {a : Value}
    (h : HasFor s strict Γ e env) (he : ∀ y, e'.Refers y → y ≠ x → e.Refers y)
    (ha : Has s strict t a) :
    HasFor s strict ((x, t) :: Γ) e' ((x, a) :: env) := by
  intro y hy
  by_cases hyx : y = x
  · subst hyx
    exact ⟨t, a, by simp, by simp, ha⟩
  · have hne : (y == x) = false := by simpa using hyx
    simp only [List.lookup_cons, hne]
    exact h y (he y hy hyx)

theorem has_builtin {b : Builtin} (ht : t.isNumeric = true) :
    Has s strict (.func (b.paramType t) t) (.builtin b t) := by
  refine ⟨fun _ => rfl,
    fun a ha => ends_succ (fun n => rfl) (ends_lift (gives_has ht fun hs => ?_))⟩
  subst hs
  refine applyBuiltin_gives ht ?_
  by_cases hb : b = .sequenceSum
  · subst hb
    obtain ⟨vs, rfl⟩ := ha.fits
    exact ⟨vs, vs, rfl, rfl,
      List.forall₂_same.mpr fun v hv => (has_iff_inhabits ht).mp (ha.2 vs rfl v hv)⟩
  · have hp : b.paramType t = .tuple [t, t] := by cases b <;> simp_all [Builtin.paramType]
    rw [hp] at ha ⊢
    exact (has_iff_inhabits (by simp [Ty.isNumeric, Ty.allNumeric, ht])).mp ha

/-- A typed expression under variables of their types evaluates to a value of its type. By induction
on the expression. -/
theorem Expr.Typed.ends {Γ : List (String × Ty)} {e : Expr} {env : Env} (he : e.Typed Γ)
    (h : HasFor s strict Γ e env) :
    Ends (fun n => Eval.expr s n env e) (Has s strict e.ty) (Tolerated strict) := by
  induction e generalizing Γ env with
  | ref x t =>
    obtain ⟨u, v, hu, hv, hx⟩ := h x (by simp)
    obtain rfl := typed_ref.mp he u hu
    exact ends_succ (fun n => by simp only [Eval.expr, hv]) (ends_pure hx)
  | lit a t =>
    obtain rfl := typed_lit.mp he
    cases a <;> exact ends_succ (fun n => rfl) (ends_pure fun _ => rfl)
  | tuple es t ih =>
    obtain ⟨hes, rfl⟩ := typed_tuple.mp he
    have hall := ends_each (f := fun n => Eval.expr s n env) fun e hmem =>
      ih e hmem (hes e hmem) fun x hx => h x (refers_tuple.mpr ⟨e, hmem, hx⟩)
    refine ends_succ (fun n => rfl) (ends_bind hall fun vs hvs => ends_pure ?_)
    exact has_tuple (fun _ => by simpa using hvs.length_eq.symm) (hasEach_of_forall₂ hvs)
  | select e i t ih =>
    obtain ⟨he, ts, hts, ht⟩ := typed_select.mp he
    have hv := ih he fun x hx => h x (refers_select.mpr hx)
    rw [hts] at hv
    exact ends_succ (fun n => rfl) (ends_bind hv fun v hv => ends_lift (hv.element ht))
  | call f a t ihf iha =>
    obtain ⟨ha, hcall⟩ := typed_call.mp he
    have hb := iha ha fun x hx => h x (refers_call.mpr (.inr hx))
    rcases hcall with @⟨uri, op, rfl, ho, hr⟩ | @⟨uri, p, rfl, ho, hacc⟩ | @⟨p, hf, hp, hacc⟩
    · have hop : Ends (fun n => Eval.expr s n env (.intrinsic uri (.func a.ty t)))
          (fun f => f = .intrinsic op (.func a.ty t)) (Tolerated strict) :=
        ends_succ (fun n => by simp only [Eval.expr, ho]) (ends_pure rfl)
      refine ends_succ (fun n => rfl) (ends_bind hop fun f hf => ends_bind hb fun b hb => ?_)
      exact hf ▸ ends_intrinsic hr hb
    · have hop : Ends (fun n => Eval.expr s n env (.intrinsic uri (.func p t))) (fun _ => False)
          (Tolerated strict) :=
        ends_succ (x := fun _ => Eval.fault (.unknownIntrinsic uri))
          (fun n => by simp only [Eval.expr, ho]) (ends_fault fun _ => .unknownIntrinsic)
      exact ends_succ (fun n => rfl) (ends_bind hop fun f hf => absurd hf id)
    · have hg := ihf hf fun x hx => h x (refers_call.mpr (.inl hx))
      rw [hp] at hg
      refine ends_succ (fun n => rfl) (ends_bind hg fun g hg => ends_bind hb fun b hb => ?_)
      exact hg.2 b (hb.of_accepts hacc)
  | force f t ih =>
    obtain ⟨hf, ht⟩ := typed_force.mp he
    have hg := ih hf fun x hx => h x (refers_force.mpr hx)
    rw [ht] at hg
    exact ends_succ (fun n => rfl) (ends_bind hg fun g hg => hg.2 none)
  | lambda x e t ih =>
    refine ends_succ (fun n => rfl) (ends_pure ?_)
    cases x with
    | none =>
      obtain ⟨hbody, rfl⟩ := typed_delay.mp he
      have hb := ih hbody fun x hx => h x (by simpa using hx)
      exact ⟨fun _ => rfl, fun a => ends_succ (fun n => rfl) hb⟩
    | some x =>
      obtain ⟨p, hbody, rfl⟩ := typed_lambda.mp he
      refine ⟨fun _ => rfl, fun a ha => ends_succ (fun n => rfl) (ih hbody ?_)⟩
      exact h.bind (fun y hy hyx => by simp [hy, Ne.symm hyx]) ha
  | block ls r t ihl ihr =>
    have hall : Ends (fun n => Eval.locals (Eval.expr s n) env ls >>= fun env =>
        Eval.expr s n env r) (Has s strict t) (Tolerated strict) := by
      induction ls generalizing Γ env with
      | nil =>
        obtain ⟨hr, rfl⟩ := typed_block_nil.mp he
        exact ends_bind (ends_pure rfl) fun env' henv =>
          henv ▸ ihr hr fun x hx => h x (by simpa using hx)
      | cons l ls ih =>
        obtain ⟨x, e⟩ := l
        obtain ⟨he, hr⟩ := typed_block_cons.mp he
        have hu := ihl (x, e) (by simp) he fun y hy => h y (by simp [hy])
        simp only [Eval.locals, bind_assoc]
        exact ends_bind hu fun u hu => ih (fun l hl => ihl l (by simp [hl])) hr
          (h.bind (fun y hy hyx => by simp [hy, hyx]) hu)
    exact ends_succ (fun n => rfl) hall
  | intrinsic uri t => exact absurd he typed_intrinsic
  | builtin b t =>
    obtain ⟨operand, hn, rfl⟩ := typed_builtin.mp he
    exact ends_succ (fun n => rfl) (ends_pure (has_builtin hn))

theorem Expr.ends_of_isClosed {e : Expr} (hc : e.isClosed = true) (ht : e.check = .ok ())
    (hi : e.intrinsicsCalled = true) (s : Setting) (strict : Bool) :
    Ends (fun n => Eval.expr s n [] e) (Has s strict e.ty) (Tolerated strict) :=
  Typed.ends ⟨ht, hi⟩ fun x hx => absurd hx (isClosed_iff.mp hc x)

/-- A closed typed expression has a value of its type or runs into an expected fault. -/
theorem eval_sound {e : Expr} (hc : e.isClosed = true)
    (ht : e.check = .ok ()) (hi : e.intrinsicsCalled = true) (s : Setting) :
    Ends (fun n => Eval.expr s n [] e) (Has s true e.ty) EvalFault.Expected :=
  (Expr.ends_of_isClosed hc ht hi s true).mono (fun _ h => h) fun _ h => h rfl

/-- A round that adds the value of the coordinator to that of each participant. -/
def additions : Expr :=
  let pair := Ty.tuple [.int32, .int32]
  let inputs := Ty.tuple [.atCoordinator .int32, .atParticipants .int32]
  let copy := Ty.place .int32 .participants true
  let sent := Expr.select (.ref "p" inputs) 0 (.atCoordinator .int32)
  let received := Expr.call (.intrinsic "federated_broadcast" (.func sent.ty copy)) sent copy
  let own := Expr.select (.ref "p" inputs) 1 (.atParticipants .int32)
  let columns := Expr.tuple [received, own] (.tuple [received.ty, own.ty])
  let zipped := Ty.atParticipants pair
  let rows :=
    Expr.call (.intrinsic "federated_zip_at_clients" (.func columns.ty zipped)) columns zipped
  let add := Expr.builtin .add (.func pair .int32)
  let operands := Expr.tuple [add, rows] (.tuple [add.ty, rows.ty])
  let sums := Expr.call (.intrinsic "federated_map" (.func operands.ty own.ty)) operands own.ty
  .lambda (some "p") sums (.func inputs sums.ty)

theorem eval_sound_additions : Ends (fun n => Eval.expr { participants := 3 } n [] additions)
    (Has { participants := 3 } true additions.ty) EvalFault.Expected :=
  eval_sound (by decide) (by rfl) (by decide) _

theorem Has.ends_call {v : Value} (h : Has s true t v) (h' : Has s false t v) {a : Value}
    (ha : a.isData = true) :
    Ends (fun n => Eval.call s n v (some a)) (fun _ => True) fun _ => True := by
  have fault : v.isFunction = false →
      Ends (fun n => Eval.call s n v (some a)) (fun _ => True) fun _ => True := by
    intro hv
    refine ends_succ (x := fun _ => Eval.misshapen (.notCallable v)) (fun n => ?_)
      (ends_misshapen trivial)
    cases v <;> first | rfl | simp [Value.isFunction] at hv
  cases t with
  | func p r => exact (h'.2 a (has_of_isData ha)).mono (fun _ _ => trivial) fun _ _ => trivial
  | thunk r => exact (h'.2 (some a)).mono (fun _ _ => trivial) fun _ _ => trivial
  | scalar k =>
    refine fault ?_
    have hf := h.fits
    cases v <;> simp_all [Value.Fits, Value.isScalar, Value.isFunction]
  | tuple ts =>
    obtain ⟨vs, rfl, -⟩ := h.fits
    exact fault rfl
  | seq t =>
    obtain ⟨vs, rfl⟩ := h.fits
    exact fault rfl
  | placed m p e =>
    cases p with
    | coordinator =>
      obtain ⟨u, rfl⟩ := h.fits
      exact fault rfl
    | participants =>
      obtain ⟨vs, rfl, -⟩ := h.fits
      exact fault rfl

/-- Evaluating a closed typed expression ends, and so does running it as a round, on inputs that
contain no functions but need not have the types that the round expects. -/
theorem eval_ends {e : Expr} (hc : e.isClosed = true) (ht : e.check = .ok ())
    (hi : e.intrinsicsCalled = true) :
    (∀ s : Setting, ∃ (outcome : Except EvalFault Value) (n₀ : Nat),
      ∀ n ≥ n₀, (Eval.expr s n [] e).result = outcome.mapError .fault) ∧
    ∀ (groupSize : Nat) (state : Value) (data : List Value), state.isData = true →
    (∀ d ∈ data, d.isData = true) →
      ∃ (outcome : Except EvalFault Value) (n₀ : Nat),
        ∀ n ≥ n₀, (Eval.round n groupSize e state data).result = outcome.mapError .fault := by
  refine ⟨fun s => (Expr.ends_of_isClosed hc ht hi s true).exists_outcome,
    fun g state data hstate hdata => ?_⟩
  have harg : (Value.pair (.atServer state) (.atClients data)).isData = true := by
    simpa [Value.pair, Value.isData, Value.allData, hstate] using hdata
  have hf := (Expr.ends_of_isClosed hc ht hi ⟨data.length, g⟩ true).and
    (Expr.ends_of_isClosed hc ht hi _ false)
  have hround : Ends (fun n => Eval.round n g e state data) (fun _ => True) fun _ => True :=
    ends_bind (hf.mono (fun _ h => h) fun _ _ => trivial) fun f h => h.1.ends_call h.2 harg
  exact hround.exists_outcome

theorem eval_ends_additions : ∃ (outcome : Except EvalFault Value) (n₀ : Nat), ∀ n ≥ n₀,
    (Eval.round n 2 additions (.bool true) [.int 2, .int 3]).result = outcome.mapError .fault :=
  (eval_ends (by decide) (by rfl) (by decide)).2 2 (.bool true) [.int 2, .int 3] rfl (by decide)

end TwoTier

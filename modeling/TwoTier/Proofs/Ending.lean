import TwoTier.Proofs.Fundamental

/-! # Evaluations that end

A computation ends if all large enough budgets give it the same outcome, a value or a fault. Values
are classified by the type they have: a function of a type is one whose calls end with values of the
result type. What is asked of the shape of values and of the faults is a matter of strictness, so
that one argument shows that evaluation ends even on inputs that do not have their type, and that on
the others it goes wrong in few ways.
-/

namespace TwoTier

open Filter

variable {s : Setting} {α β : Type}

/-- The computation returns a value with `P` or a fault with `E`. -/
def Gives (x : Except EvalFault α) (P : α → Prop) (E : EvalFault → Prop) : Prop :=
  (∃ a, x = .ok a ∧ P a) ∨ ∃ f, x = .error f ∧ E f

/-- From some budget on, the outcome is one value with `P` or one fault with `E`. -/
def Ends (x : Nat → Eval α) (P : α → Prop) (E : EvalFault → Prop) : Prop :=
  (∃ a, (∀ᶠ n in atTop, (x n).result = .ok a) ∧ P a) ∨
    ∃ f, (∀ᶠ n in atTop, (x n).result = .error (.fault f)) ∧ E f

section Outcomes

variable {x : Nat → Eval α} {P : α → Prop} {Q : β → Prop} {E : EvalFault → Prop}

theorem Ends.mono {P' : α → Prop} {E' : EvalFault → Prop} (h : Ends x P E) (hP : ∀ a, P a → P' a)
    (hE : ∀ f, E f → E' f) : Ends x P' E' := by
  rcases h with ⟨a, ha, h⟩ | ⟨f, hf, h⟩
  · exact .inl ⟨a, ha, hP a h⟩
  · exact .inr ⟨f, hf, hE f h⟩

theorem ends_pure {a : α} (h : P a) : Ends (fun _ => pure a) P E :=
  .inl ⟨a, .of_forall fun _ => Traced.pure_ok.mpr rfl, h⟩

theorem ends_fault {f : EvalFault} (h : E f) : Ends (fun _ => Eval.fault f) P E :=
  .inr ⟨f, .of_forall fun _ => rfl, h⟩

theorem ends_misshapen {f : ShapeFault} (h : E (.shape f)) : Ends (fun _ => Eval.misshapen f) P E :=
  ends_fault h

theorem ends_lift {x : Except EvalFault α} (h : Gives x P E) : Ends (fun _ => liftM x) P E := by
  rcases h with ⟨a, rfl, h⟩ | ⟨f, rfl, h⟩
  · exact .inl ⟨a, .of_forall fun _ => Eval.liftM_ok.mpr rfl, h⟩
  · exact .inr ⟨f, .of_forall fun _ => rfl, h⟩

theorem bind_error {x : Eval α} {f : α → Eval β} {e : Halt} (h : x.result = .error e) :
    (x >>= f).result = .error e := by
  change (Traced.andThen x f).result = .error e
  simp [Traced.andThen, h]

theorem bind_result {x : Eval α} {f : α → Eval β} {a : α} (h : x.result = .ok a) :
    (x >>= f).result = (f a).result := by
  change (Traced.andThen x f).result = _
  simp [Traced.andThen, h]

theorem ends_bind {f : Nat → α → Eval β} (hx : Ends x P E)
    (hf : ∀ a, P a → Ends (fun n => f n a) Q E) :
    Ends (fun n => x n >>= f n) Q E := by
  rcases hx with ⟨a, ha, hP⟩ | ⟨e, he, hE⟩
  · rcases hf a hP with ⟨b, hb, hQ⟩ | ⟨e, he, hE⟩
    · exact .inl ⟨b, (ha.and hb).mono fun n h => (bind_result h.1).trans h.2, hQ⟩
    · exact .inr ⟨e, (ha.and he).mono fun n h => (bind_result h.1).trans h.2, hE⟩
  · exact .inr ⟨e, he.mono fun n he => bind_error he, hE⟩

theorem ends_each {f : Nat → α → Eval β} {R : α → β → Prop} {as : List α}
    (h : ∀ a ∈ as, Ends (fun n => f n a) (R a) E) :
    Ends (fun n => Traced.each (f n) as) (List.Forall₂ R as) E := by
  induction as with
  | nil => exact ends_pure .nil
  | cons a as ih =>
    refine ends_bind (h a (by simp)) fun b hb => ?_
    exact ends_bind (ih fun a ha => h a (by simp [ha])) fun bs hbs => ends_pure (.cons hb hbs)

theorem ends_succ {y : Nat → Eval α} (h : ∀ n, (y (n + 1)).result = (x n).result)
    (hx : Ends x P E) :
    Ends y P E := by
  rcases hx with ⟨a, ha, hP⟩ | ⟨f, hf, hE⟩
  · exact .inl ⟨a, eventually_succ ha fun n hn => (h n).trans hn, hP⟩
  · exact .inr ⟨f, eventually_succ hf fun n hn => (h n).trans hn, hE⟩

theorem Ends.exists_outcome (h : Ends x P E) :
    ∃ (outcome : Except EvalFault α) (n₀ : Nat), ∀ n ≥ n₀, (x n).result =
    outcome.mapError .fault := by
  rcases h with ⟨a, ha, -⟩ | ⟨f, hf, -⟩
  · obtain ⟨n₀, h⟩ := eventually_atTop.mp ha
    exact ⟨.ok a, n₀, h⟩
  · obtain ⟨n₀, h⟩ := eventually_atTop.mp hf
    exact ⟨.error f, n₀, h⟩

theorem Ends.and {P' : α → Prop} {E' : EvalFault → Prop} (h : Ends x P E) (h' : Ends x P' E') :
    Ends x (fun a => P a ∧ P' a) (fun f => E f ∧ E' f) := by
  rcases h with ⟨a, ha, hP⟩ | ⟨f, hf, hE⟩ <;> rcases h' with ⟨a', ha', hP'⟩ | ⟨f', hf', hE'⟩
  · obtain ⟨n, hn, hn'⟩ := (ha.and ha').exists
    cases hn.symm.trans hn'
    exact .inl ⟨a, ha, hP, hP'⟩
  · obtain ⟨n, hn, hn'⟩ := (ha.and hf').exists
    cases hn.symm.trans hn'
  · obtain ⟨n, hn, hn'⟩ := (hf.and ha').exists
    cases hn.symm.trans hn'
  · obtain ⟨n, hn, hn'⟩ := (hf.and hf').exists
    cases hn.symm.trans hn'
    exact .inr ⟨f, hf, hE, hE'⟩

end Outcomes

/-- The faults that typed expressions can run into. Values have wrong shapes only where a secure sum
admits or reduces numbers: its parameter need not match the tuples that are summed. -/
inductive EvalFault.Expected : EvalFault → Prop where
  | unknownIntrinsic {uri : String} : Expected (.unknownIntrinsic uri)
  | overflow {op : Builtin} : Expected (.overflow op)
  | outOfRange {op : Crossing} {value bound : Int} : Expected (.outOfRange op value bound)
  | badParameter {op : Crossing} {value : Int} : Expected (.badParameter op value)
  | admitting {op : Crossing} {parameter v : Value} {f : ShapeFault} :
      Value.accept op parameter v = .error (.shape f) → Expected (.shape f)
  | reducing {op : Crossing} {parameter total : Value} {f : ShapeFault} :
      Value.reduce op parameter total = .error (.shape f) → Expected (.shape f)

def Tolerated (strict : Bool) (f : EvalFault) : Prop :=
  strict = true → f.Expected

section Faults

variable {t : Ty} {E : EvalFault → Prop}

theorem tolerated_of_not_strict {f : EvalFault} : Tolerated false f :=
  fun h => absurd h Bool.false_ne_true

theorem zero_ok_of_isNumeric (ht : t.isNumeric = true) : ∃ v, Value.zeroOf t = .ok v := by
  simp only [Value.zeroOf, except_mapError_ok]
  induction t with
  | scalar k => cases k <;> simp_all [Ty.isNumeric, Value.zero]
  | tuple ts ih =>
    simp only [Value.zero, except_bind_ok, except_pure_ok]
    suffices h : ∃ vs, Value.zero.zeros ts = .ok vs by
      obtain ⟨vs, h⟩ := h
      exact ⟨_, vs, h, rfl⟩
    induction ts with
    | nil => exact ⟨[], rfl⟩
    | cons t ts iht =>
      simp only [Ty.isNumeric, Ty.allNumeric, Bool.and_eq_true] at ht
      obtain ⟨v, hv⟩ := ih t (by simp) ht.1
      obtain ⟨vs, hvs⟩ := iht (fun t ht => ih t (by simp [ht])) ht.2
      simp only [Value.zero.zeros, except_bind_ok, except_pure_ok]
      exact ⟨_, v, hv, vs, hvs, rfl⟩
  | seq | func | thunk | placed => simp [Ty.isNumeric] at ht

theorem combine_fault {op : Builtin} {x y : Value} {f : EvalFault} (ht : t.isNumeric = true)
    (hx : Inhabits s t x) (hy : Inhabits s t y) (h : Value.combine op x y = .error f) :
    f = .overflow op := by
  induction t generalizing x y f with
  | scalar k =>
    cases k with
    | int32 =>
      obtain ⟨n, rfl⟩ := inhabits_int.mp hx
      obtain ⟨m, rfl⟩ := inhabits_int.mp hy
      simp only [Value.combine] at h
      split at h <;> cases h
      rfl
    | float32 =>
      obtain ⟨n, rfl⟩ := inhabits_float.mp hx
      obtain ⟨m, rfl⟩ := inhabits_float.mp hy
      simp [Value.combine] at h
    | bool => simp [Ty.isNumeric] at ht
  | tuple ts ih =>
    obtain ⟨xs, _, rfl, -, hxs⟩ := id hx
    obtain ⟨ys, _, rfl, -, hys⟩ := id hy
    have hl : xs.length = ys.length := hxs.length.1.symm.trans hys.length.1
    simp only [Value.combine, hl, if_true] at h
    clear hxs hys hl
    rcases h' : Value.combineAll op xs ys with g | zs <;> rw [h'] at h <;> cases h
    induction ts generalizing xs ys f with
    | nil =>
      cases inhabits_nil.mp hx
      simp [Value.combineAll] at h'
    | cons t ts iht =>
      obtain ⟨x, xs, ⟨⟩, hx, hxs⟩ := inhabits_cons.mp hx
      obtain ⟨y, ys, ⟨⟩, hy, hys⟩ := inhabits_cons.mp hy
      simp only [Ty.isNumeric, Ty.allNumeric, Bool.and_eq_true] at ht
      simp only [Value.combineAll] at h'
      rcases hz : Value.combine op x y with g | z <;> rw [hz] at h'
      · cases h'
        exact ih t (by simp) ht.1 hx hy hz
      · rcases hzs : Value.combineAll op xs ys with g | zs <;> rw [hzs] at h' <;> cases h'
        exact iht (fun t ht => ih t (by simp [ht])) ht.2 xs hxs ys hys hzs
  | seq | func | thunk | placed => simp [Ty.isNumeric] at ht

theorem combine_gives {op : Builtin} {x y : Value} (ht : t.isNumeric = true) (hx : Inhabits s t x)
    (hy : Inhabits s t y) (hE : E (.overflow op)) :
    Gives (Value.combine op x y) (Inhabits s t) E := by
  rcases h : Value.combine op x y with f | z
  · exact .inr ⟨f, rfl, combine_fault ht hx hy h ▸ hE⟩
  · exact .inl ⟨z, rfl, hx.combine ht hy h⟩

theorem gives_bind {x : Except EvalFault α} {f : α → Except EvalFault β} {P : α → Prop}
    {Q : β → Prop} (hx : Gives x P E) (hf : ∀ a, P a → Gives (f a) Q E) : Gives (x >>= f) Q E := by
  rcases hx with ⟨a, rfl, ha⟩ | ⟨e, rfl, he⟩
  · exact hf a ha
  · exact .inr ⟨e, rfl, he⟩

theorem sum_gives {total : Value} {items : List Value} (ht : t.isNumeric = true)
    (htotal : Inhabits s t total) (hitems : ∀ u ∈ items, Inhabits s t u) :
    Gives (Value.sum total items) (Inhabits s t) EvalFault.Expected := by
  induction items generalizing total with
  | nil => exact .inl ⟨total, rfl, htotal⟩
  | cons u us ih =>
    exact gives_bind (combine_gives ht htotal (hitems u (by simp)) .overflow) fun total htotal =>
      ih htotal fun u hu => hitems u (by simp [hu])

theorem applyBuiltin_gives {op : Builtin} {a : Value} (ht : t.isNumeric = true)
    (ha : Inhabits s (op.paramType t) a) :
    Gives (Value.applyBuiltin op t a) (Inhabits s t) EvalFault.Expected := by
  by_cases ho : op = .sequenceSum
  · subst ho
    obtain ⟨items, _, rfl, ⟨⟩, hitems⟩ := ha
    obtain ⟨z, hz⟩ := zero_ok_of_isNumeric ht
    have hitems : ∀ u ∈ items, Similar s t u u := List.forall₂_same.mp hitems
    have hz' : Inhabits s t z := inhabits_zero (by simpa [Value.zeroOf] using hz)
    simp only [Value.applyBuiltin, hz]
    exact sum_gives ht hz' hitems
  · have ha : Inhabits s (.tuple [t, t]) a := by cases op <;> simp_all [Builtin.paramType]
    obtain ⟨x, y, _, _, rfl, ⟨⟩, hx, hy⟩ := ha.pair
    have h : Value.applyBuiltin op t (.tuple [x, y]) = Value.combine op x y := by
      cases op <;> first | rfl | exact absurd rfl ho
    rw [h]
    exact combine_gives ht hx hy .overflow

theorem leafwise_fault {f : Int → Int → Except EvalFault Int} {v p : Value} {e : EvalFault}
    (h : Value.leafwise f v p = .error e) : (∃ x q, f x q = .error e) ∨ ∃ g, e = .shape g := by
  induction v generalizing p e with
  | int n =>
    simp only [Value.leafwise] at h
    cases p with
    | int q =>
      simp only [Value.integer] at h
      rcases hf : f n q with g | z
      · change (f n q >>= fun v => pure (Value.int v)) = _ at h
        rw [hf] at h
        cases h
        exact .inl ⟨n, q, hf⟩
      · change (f n q >>= fun v => pure (Value.int v)) = _ at h
        rw [hf] at h
        cases h
    | _ =>
      cases h
      exact .inr ⟨_, rfl⟩
  | tuple vs ih =>
    cases p with
    | int q =>
      simp only [Value.leafwise] at h
      rcases h' : Value.leafwiseAll f q vs with g | ws <;> rw [h'] at h <;> cases h
      induction vs generalizing e with
      | nil => simp [Value.leafwiseAll] at h'
      | cons v vs ihv =>
        simp only [Value.leafwiseAll] at h'
        rcases hv : Value.leafwise f v (.int q) with g | w <;> rw [hv] at h'
        · cases h'
          exact ih v (by simp) hv
        · rcases hvs : Value.leafwiseAll f q vs with g | ws <;> rw [hvs] at h' <;> cases h'
          exact ihv (fun v hv => ih v (by simp [hv])) hvs
    | tuple ps =>
      simp only [Value.leafwise] at h
      split at h
      · rcases h' : Value.leafwiseEach f vs ps with g | ws <;> rw [h'] at h <;> cases h
        rename_i hl
        clear hl
        induction vs generalizing ps e with
        | nil => simp [Value.leafwiseEach] at h'
        | cons v vs ihv =>
          obtain _ | ⟨p, ps⟩ := ps
          · simp [Value.leafwiseEach] at h'
          simp only [Value.leafwiseEach] at h'
          rcases hv : Value.leafwise f v p with g | w <;> rw [hv] at h'
          · cases h'
            exact ih v (by simp) hv
          · rcases hvs : Value.leafwiseEach f vs ps with g | ws <;> rw [hvs] at h' <;> cases h'
            exact ihv (fun v hv => ih v (by simp [hv])) ps hvs
      · cases h
        exact .inr ⟨_, rfl⟩
    | _ =>
      cases h
      exact .inr ⟨_, rfl⟩
  | _ =>
    simp only [Value.leafwise] at h
    cases h
    exact .inr ⟨_, rfl⟩

theorem accept_gives {op : Crossing} {p v : Value} (ht : t.isInteger = true) (hv : Inhabits s t v) :
    Gives (Value.accept op p v) (Inhabits s t) EvalFault.Expected := by
  rcases h : Value.accept op p v with e | w
  · refine .inr ⟨e, rfl, ?_⟩
    obtain rfl : op = .boundedSum := by cases op <;> simp_all [Value.accept]
    rcases leafwise_fault h with ⟨x, q, hf⟩ | ⟨g, rfl⟩
    · split at hf <;> cases hf
      exact .outOfRange
    · exact .admitting h
  · exact .inl ⟨w, rfl, hv.accept ht h⟩

theorem reduce_gives {op : Crossing} {p v : Value} (ht : t.isInteger = true) (hv : Inhabits s t v) :
    Gives (Value.reduce op p v) (Inhabits s t) EvalFault.Expected := by
  rcases h : Value.reduce op p v with e | w
  · refine .inr ⟨e, rfl, ?_⟩
    have hop : op = .bitwidthSum ∨ op = .modularSum := by cases op <;> simp_all [Value.reduce]
    rcases hop with rfl | rfl <;> rcases leafwise_fault h with ⟨x, q, hf⟩ | ⟨g, rfl⟩ <;>
      first | exact .reducing h | (split at hf <;> cases hf; exact .badParameter)
  · exact .inl ⟨w, rfl, hv.reduce ht h⟩

theorem sumAdmitted_gives {op : Crossing} {p total : Value}
    {us : List Value} (ht : t.isInteger = true)
    (haccept : ∀ u, Inhabits s t u → Gives (Value.accept op p u) (Inhabits s t) E)
    (hE : E (.overflow .add)) (htotal : Inhabits s t total) (hus : ∀ u ∈ us, Inhabits s t u) :
    Gives (Value.sumAdmitted op p total us) (Inhabits s t) E := by
  induction us generalizing total with
  | nil => exact .inl ⟨total, rfl, htotal⟩
  | cons u us ih =>
    refine gives_bind (haccept u (hus u (by simp))) fun u' hu' => ?_
    exact gives_bind (combine_gives (isNumeric_of_isInteger ht) htotal hu' hE) fun total htotal =>
      ih htotal fun u hu => hus u (by simp [hu])

theorem secureSum_gives_of {op : Crossing} {p : Value} {us : List Value} (ht : t.isInteger = true)
    (haccept : ∀ u, Inhabits s t u → Gives (Value.accept op p u) (Inhabits s t) E)
    (hreduce : ∀ u, Inhabits s t u → Gives (Value.reduce op p u) (Inhabits s t) E)
    (hE : E (.overflow .add)) (hus : ∀ u ∈ us, Inhabits s t u) :
    Gives (Value.secureSum op t us p) (Inhabits s t) E := by
  unfold Value.secureSum
  split
  · obtain ⟨z, hz⟩ := zero_ok_of_isNumeric (isNumeric_of_isInteger ht)
    exact .inl ⟨z, hz, inhabits_zero (by simpa [Value.zeroOf] using hz)⟩
  · exact .inl ⟨_, rfl, hus (.tuple []) (by simp)⟩
  · refine gives_bind (haccept _ (hus _ (by simp))) fun first hfirst => ?_
    exact gives_bind (sumAdmitted_gives ht haccept hE hfirst fun u hu => hus u (by simp [hu]))
        fun total htotal =>
      hreduce total htotal

theorem secureSum_gives {op : Crossing} {p : Value} {us : List Value} (ht : t.isInteger = true)
    (hus : ∀ u ∈ us, Inhabits s t u) :
    Gives (Value.secureSum op t us p) (Inhabits s t) EvalFault.Expected :=
  secureSum_gives_of ht (fun _ => accept_gives ht) (fun _ => reduce_gives ht) .overflow hus

end Faults

end TwoTier

import TwoTier.Proofs.Arithmetic
import TwoTier.Proofs.Names

/-! # Typed expressions respect similarity

Intrinsics take similar arguments to similar results, and so does any typed expression under similar
variables. In particular a typed expression under variables of their types evaluates to a value of
its type.
-/

namespace TwoTier

variable {s : Setting} {t u : Ty}

theorem similar_pair {a b v w : Value} (ht : Similar s t a v) (hu : Similar s u b w) :
    Similar s (.tuple [t, u]) (.tuple [a, b]) (.tuple [v, w]) :=
  ⟨_, _, rfl, rfl, a, [b], v, [w], rfl, rfl, ht, b, [], w, [], rfl, rfl, hu, rfl, rfl⟩

theorem Similar.pair {v w : Value} (h : Similar s (.tuple [t, u]) v w) :
    ∃ a b a' b', v = .tuple [a, b] ∧ w = .tuple [a', b'] ∧ Similar s t a a' ∧ Similar s u b b' := by
  obtain ⟨_, _, rfl, rfl, a, _, a', _, rfl, rfl, ha, b, _, b', _, rfl, rfl, hb, rfl, rfl⟩ := h
  exact ⟨a, b, a', b', rfl, rfl, ha, hb⟩

theorem mimics_fold {f g total total' : Value} {us us' : List Value}
    (hf : Similar s (.func (.tuple [t, u]) t) f g) (ht : Similar s t total total')
    (hus : List.Forall₂ (Similar s u) us us') :
    Mimics s (.fold f total us) (.fold g total' us') (Similar s t) := by
  induction hus generalizing total total' with
  | nil =>
    intro r hr
    exact ⟨total', .foldNil, runs_fold_nil.mp hr ▸ ht⟩
  | cons hu _ ih =>
    intro r hr
    obtain ⟨v, hc, hr⟩ := runs_fold_cons.mp hr
    obtain ⟨v', hv, hc⟩ := (hf.2.2 _ _ (similar_pair ht hu)).2 _ hc
    obtain ⟨w, hw, hr⟩ := ih hc _ hr
    exact ⟨w, .foldCons hv hw, hr⟩

theorem forall₂_groupsFrom {R : Value → Value → Prop} {us us' : List Value}
    (h : List.Forall₂ R us us') (size skipped : Nat) :
    List.Forall₂ (List.Forall₂ R) (Eval.groupsFrom size skipped us)
    (Eval.groupsFrom size skipped us') := by
  induction h generalizing skipped with
  | nil => simp [Eval.groupsFrom]
  | cons hu hus ih =>
    cases skipped with
    | zero => exact .cons (.cons hu (List.forall₂_take _ hus)) (ih _)
    | succ n => exact ih n

theorem Aggregates.similar {us us' : List Value}
    {zero zero' accumulate accumulate' merge merge' total : Value}
    (h : Aggregates s us zero accumulate merge total) (hus : List.Forall₂ (Similar s u) us us')
    (hz : Similar s t zero zero') (ha : Similar s (.func (.tuple [t, u]) t) accumulate accumulate')
    (hm : Similar s (.func (.tuple [t, t]) t) merge merge') :
    ∃ total', Aggregates s us' zero' accumulate' merge' total' ∧ Similar s t total total' := by
  obtain ⟨parts, hparts, htotal⟩ := h
  obtain ⟨parts', hparts', hp⟩ := forall₂_carry hparts (forall₂_groupsFrom hus s.groupSize 0)
    fun us part us' h hus => mimics_fold ha hz hus part h
  obtain ⟨total', htotal', ht⟩ :=
    mimics_fold hm (forall₂_headD hp hz) (forall₂_tail hp) total htotal
  exact ⟨total', ⟨parts', hparts', htotal'⟩, ht⟩

section Intrinsics

variable {arg r : Ty} {a b : Value}

theorem memberAt?_eq {p : Placement} {m : Ty} (h : t.memberAt? p = some m) :
    ∃ e, t = .placed m p e := by
  cases t <;> simp only [Ty.memberAt?, reduceCtorEq] at h
  split at h <;> simp_all

theorem mimics_broadcast (hr : Intrinsic.broadcastResult arg = .ok r) (h : Similar s arg a b) :
    Mimics s (.call (.intrinsic (.crossing .broadcast) t) (some a))
      (.call (.intrinsic (.crossing .broadcast) t) (some b)) (Similar s r) := by
  intro v hv
  unfold Intrinsic.broadcastResult at hr
  split at hr <;> cases hr
  rename_i m hm
  obtain ⟨e, rfl⟩ := memberAt?_eq hm
  obtain ⟨x, y, rfl, rfl, h⟩ := h
  obtain ⟨_, ⟨⟩, rfl⟩ := runs_broadcast.mp hv
  exact ⟨_, runs_broadcast.mpr ⟨y, rfl, rfl⟩, _, _, rfl, rfl, by simp, forall₂_replicate h⟩

theorem mimics_valueAtServer (h : Similar s arg a b) :
    Mimics s (.call (.intrinsic (.within .valueAtServer) t) (some a))
      (.call (.intrinsic (.within .valueAtServer) t) (some b))
      (Similar s (.atCoordinator arg)) := by
  intro v hv
  obtain rfl := runs_valueAtServer.mp hv
  exact ⟨_, runs_valueAtServer.mpr rfl, a, b, rfl, rfl, h⟩

theorem mapResult_ok {op : LocalOp} (hr : Intrinsic.mapResult op arg = .ok r) : ∃ p q m site e,
    arg = .tuple [.func p q, .placed m site e] ∧ (op = .apply → site = .coordinator) ∧
      (Ty.func p q).isPlaced = false ∧ p.accepts m = true ∧ r = .place q site false := by
  unfold Intrinsic.mapResult at hr
  split at hr <;> try cases hr
  rename_i p q m site e
  split at hr <;> try cases hr
  split at hr <;> try cases hr
  split at hr <;> cases hr
  rename_i hsite hplaced hacc
  exact ⟨p, q, m, site, e, rfl, by simpa using hsite, by simpa using hplaced, by simpa using hacc,
    rfl⟩

theorem runs_map_coordinator {op : LocalOp} (ho : op = .map ∨ op = .apply) {f u : Value} :
    Runs s (.call (.intrinsic (.within op) t) (some (.tuple [f, .atServer u]))) v ↔
      ∃ w, v = .atServer w ∧ Runs s (.call f (some u)) w := by
  rcases ho with rfl | rfl
  · simp [runs_map]
  · simp [runs_apply]

theorem mimics_map {op : LocalOp} (ho : op = .map ∨ op = .apply)
    (hr : Intrinsic.mapResult op arg = .ok r) (h : Similar s arg a b) :
    Mimics s (.call (.intrinsic (.within op) t) (some a))
    (.call (.intrinsic (.within op) t) (some b))
      (Similar s r) := by
  intro v hv
  obtain ⟨p, q, m, site, e, rfl, hsite, -, hacc, rfl⟩ := mapResult_ok hr
  obtain ⟨f, x, f', x', rfl, rfl, hf, hx⟩ := h.pair
  have hpm : Similar s p = Similar s m := similar_of_standsFor hacc
  cases site with
  | coordinator =>
    obtain ⟨x, x', rfl, rfl, hx⟩ := hx
    obtain ⟨w, rfl, hw⟩ := (runs_map_coordinator ho).mp hv
    obtain ⟨w', hw', h⟩ := (hf.2.2 x x' (hpm ▸ hx)).2 w hw
    exact ⟨_, .mapServer ho hw', w, w', rfl, rfl, h⟩
  | participants =>
    obtain rfl : op = .map := ho.resolve_right fun h => by simpa using hsite h
    obtain ⟨xs, xs', rfl, rfl, hl, hxs⟩ := hx
    rcases runs_map.mp hv with ⟨_, _, ws, ⟨⟩, rfl, hws⟩ | ⟨_, _, _, h, _⟩
    · obtain ⟨ws', hws', h⟩ :=
        forall₂_carry hws hxs fun x w x' hw hx => (hf.2.2 x x' (hpm ▸ hx)).2 w hw
      exact ⟨_, runs_map.mpr (.inl ⟨f', xs', ws', rfl, rfl, hws'⟩), ws, ws', rfl, rfl,
        hws.length_eq.symm.trans hl, h⟩
    · cases h

theorem SimilarEach.held {ts ms : List Ty} {vs ws : List Value}
    (hm : List.Forall₂ (fun t m => t.memberAt? .coordinator = some m) ts ms)
    (h : SimilarEach s ts vs ws) :
    ∃ us us' : List Value, vs = us.map .atServer ∧ ws = us'.map .atServer ∧
    SimilarEach s ms us us' := by
  induction hm generalizing vs ws with
  | nil =>
    obtain ⟨rfl, rfl⟩ := h
    exact ⟨[], [], rfl, rfl, rfl, rfl⟩
  | cons hm _ ih =>
    obtain ⟨_, vs, _, ws, rfl, rfl, hv, h⟩ := h
    obtain ⟨e, rfl⟩ := memberAt?_eq hm
    obtain ⟨u, u', rfl, rfl, hu⟩ := hv
    obtain ⟨us, us', rfl, rfl, hus⟩ := ih h
    exact ⟨u :: us, u' :: us', rfl, rfl, u, us, u', us', rfl, rfl, hu, hus⟩

theorem SimilarEach.columns {ts ms : List Ty} {vs ws : List Value}
    (hm : List.Forall₂ (fun t m => t.memberAt? .participants = some m) ts ms)
    (h : SimilarEach s ts vs ws) :
    ∃ cs cs' : List (List Value), vs = cs.map .atClients ∧ ws = cs'.map .atClients ∧
      ∀ (i : Nat) us, List.Forall₂ (fun column u => column[i]? = some u) cs us →
        ∃ us', List.Forall₂ (fun column u => column[i]? = some u) cs' us' ∧
        SimilarEach s ms us us' := by
  induction hm generalizing vs ws with
  | nil =>
    obtain ⟨rfl, rfl⟩ := h
    refine ⟨[], [], rfl, rfl, fun i us hus => ?_⟩
    cases hus
    exact ⟨[], .nil, rfl, rfl⟩
  | cons hm _ ih =>
    obtain ⟨_, vs, _, ws, rfl, rfl, hv, h⟩ := h
    obtain ⟨e, rfl⟩ := memberAt?_eq hm
    obtain ⟨c, c', rfl, rfl, -, hc⟩ := hv
    obtain ⟨cs, cs', rfl, rfl, hcs⟩ := ih h
    refine ⟨c :: cs, c' :: cs', rfl, rfl, fun i us hus => ?_⟩
    cases hus with
    | cons hu hus =>
      obtain ⟨u', hu', hu⟩ := forall₂_getElem? hc hu
      obtain ⟨us', hus', hus⟩ := hcs i _ hus
      exact ⟨u' :: us', .cons hu' hus', _, _, u', us', rfl, rfl, hu, hus⟩

theorem zipResult_ok {site : Placement} {wanted : Wanted}
    (hr : Intrinsic.zipResult site wanted arg = .ok r) :
    ∃ ts ms, arg = .tuple ts ∧ List.Forall₂ (fun t m => t.memberAt? site = some m) ts ms ∧
      r = .place (.tuple ms) site false := by
  unfold Intrinsic.zipResult at hr
  split at hr <;> try cases hr
  rename_i ts
  split at hr <;> cases hr
  rename_i ms hms
  exact ⟨ts, ms, rfl, mapM_eq_some.mp hms, rfl⟩

theorem mimics_zipAtServer (hr : Intrinsic.zipResult .coordinator .coordinatorTuple arg = .ok r)
    (h : Similar s arg a b) :
    Mimics s (.call (.intrinsic (.within .zipAtServer) t) (some a))
      (.call (.intrinsic (.within .zipAtServer) t) (some b)) (Similar s r) := by
  intro v hv
  obtain ⟨ts, ms, rfl, hms, rfl⟩ := zipResult_ok hr
  obtain ⟨_, _, rfl, rfl, h⟩ := h
  obtain ⟨us, us', rfl, rfl, hus⟩ := h.held hms
  obtain ⟨xs, hxs, rfl⟩ := runs_zipAtServer.mp hv
  have hxs : us = xs :=
    (List.map_injective_iff.mpr fun _ _ h => Value.atServer.inj h) (Value.tuple.inj hxs)
  exact ⟨_, runs_zipAtServer.mpr ⟨us', rfl, rfl⟩, _, _, rfl, rfl, _, _, rfl, rfl, hxs ▸ hus⟩

theorem mimics_zipAtClients (hr : Intrinsic.zipResult .participants .participantTuple arg = .ok r)
    (h : Similar s arg a b) :
    Mimics s (.call (.intrinsic (.within .zipAtClients) t) (some a))
      (.call (.intrinsic (.within .zipAtClients) t) (some b)) (Similar s r) := by
  intro v hv
  obtain ⟨ts, ms, rfl, hms, rfl⟩ := zipResult_ok hr
  obtain ⟨_, _, rfl, rfl, h⟩ := h
  obtain ⟨cs, cs', rfl, rfl, hcs⟩ := h.columns hms
  obtain ⟨columns, rows, hc, rfl, hrows⟩ := runs_zipAtClients.mp hv
  have hc : cs = columns :=
    (List.map_injective_iff.mpr fun _ _ h => Value.atClients.inj h) (Value.tuple.inj hc)
  subst hc
  have hrow : ∀ i ∈ List.range s.participants, ∀ row,
      (∃ us, row = .tuple us ∧ List.Forall₂ (fun column u => column[i]? = some u) cs us) →
      ∃ row', (∃ us, row' = .tuple us ∧ List.Forall₂ (fun column u => column[i]? = some u) cs' us) ∧
        Similar s (.tuple ms) row row' := by
    rintro i - _ ⟨us, rfl, hus⟩
    obtain ⟨us', hus', hu⟩ := hcs i us hus
    exact ⟨_, ⟨us', rfl, hus'⟩, us, us', rfl, rfl, hu⟩
  obtain ⟨rows', hrows', hr⟩ := forall₂_choose hrows hrow
  have hl : rows.length = s.participants := by simpa using hrows.length_eq.symm
  exact ⟨_, runs_zipAtClients.mpr ⟨cs', rows', rfl, rfl, hrows'⟩, rows, rows', rfl, rfl, hl, hr⟩

theorem secureSumResult_ok {op : Crossing} (hr : Intrinsic.secureSumResult op arg = .ok r) :
    ∃ m p e, arg = .tuple [.placed m .participants e, p] ∧ m.isInteger = true ∧
    r = .atCoordinator m ∧
      ((∃ q e', p = .placed q .coordinator e' ∧ q.isInteger = true) ∨ p.isInteger = true) := by
  unfold Intrinsic.secureSumResult at hr
  split at hr <;> try cases hr
  rename_i value p
  split at hr <;> try cases hr
  rename_i m hm
  obtain ⟨e, rfl⟩ := memberAt?_eq hm
  split at hr <;> try cases hr
  rename_i hi
  simp only [Bool.not_eq_eq_eq_not, Bool.not_true, Bool.not_eq_false] at hi
  refine ⟨m, p, e, rfl, hi, ?_⟩
  cases p with
  | placed q site e' => cases site <;> simp_all [Except.bind]; split at hr <;> simp_all
  | _ => simp_all [Except.bind]; split at hr <;> simp_all

theorem forall₂_eq_of_isNumeric {us us' : List Value} (h : List.Forall₂ (Similar s t) us us')
    (ht : t.isNumeric = true) : us' = us := by
  induction h with
  | nil => rfl
  | cons hu _ ih => rw [hu.eq_of_isNumeric ht, ih]

theorem held_eq_of_similar {p : Ty} {x x' : Value} (h : Similar s p x x')
    (hp : (∃ q e, p = .placed q .coordinator e ∧ q.isInteger = true) ∨ p.isInteger = true) :
    x'.held = x.held := by
  rcases hp with ⟨q, e, rfl, hq⟩ | hp
  · obtain ⟨y, y', rfl, rfl, h⟩ := h
    exact h.eq_of_isNumeric (isNumeric_of_isInteger hq)
  · rw [h.eq_of_isNumeric (isNumeric_of_isInteger hp)]

theorem mimics_secureSum {op : Crossing} (ho : op.secureChannel?.isSome)
    (hr : Intrinsic.secureSumResult op arg = .ok r) (h : Similar s arg a b) :
    Mimics s (.call (.intrinsic (.crossing op) (.func arg r)) (some a))
      (.call (.intrinsic (.crossing op) (.func arg r)) (some b)) (Similar s r) := by
  intro v hv
  obtain ⟨m, p, e, rfl, hm, rfl, hp⟩ := secureSumResult_ok hr
  obtain ⟨x, y, x', y', rfl, rfl, hx, hy⟩ := h.pair
  obtain ⟨us, us', rfl, rfl, -, hus⟩ := hx
  obtain ⟨_, _, m', total, ⟨⟩, hm', htotal, rfl⟩ := (runs_secureSum ho).mp hv
  simp only [Ty.signature?, Option.bind_some, Ty.atCoordinator, Ty.place, Ty.member?,
    Option.some.injEq] at hm'
  subst hm'
  obtain rfl := forall₂_eq_of_isNumeric hus (isNumeric_of_isInteger hm)
  have hus : ∀ u ∈ us', Similar s m u u := List.forall₂_same.mp hus
  refine ⟨_, (runs_secureSum ho).mpr ⟨us', y', m, total, rfl, rfl, ?_, rfl⟩, total,
    total, rfl, rfl, ?_⟩
  · rw [held_eq_of_similar hy hp, htotal]
  · exact inhabits_secureSum hm hus htotal

theorem aggregateResult_ok (hr : Intrinsic.aggregateResult arg = .ok r) : ∃ m e z q, arg =
    .tuple [.placed m .participants e, z, .func (.tuple [z, m]) z, .func (.tuple [z, z]) z,
      .func z q] ∧ r = .atCoordinator q ∧ z.isPlaced = false ∧ q.isPlaced = false := by
  unfold Intrinsic.aggregateResult at hr
  split at hr <;> try cases hr
  rename_i value z accumulate merge report
  split at hr <;> try cases hr
  rename_i m hm
  obtain ⟨e, rfl⟩ := memberAt?_eq hm
  simp only at hr
  split at hr <;> try cases hr
  split at hr <;> try cases hr
  split at hr <;> try cases hr
  split at hr <;> try cases hr
  split at hr <;> cases hr
  rename_i hz ha hmerge _ p q hp
  simp only [ne_eq, Decidable.not_not, Bool.not_eq_true, Bool.not_eq_eq_eq_not,
    Bool.not_true] at hz ha hmerge hp
  obtain ⟨rfl, hq⟩ := hp
  exact ⟨m, e, p, q, by rw [ha, hmerge], rfl, hz, hq⟩

theorem mimics_aggregate (hr : Intrinsic.aggregateResult arg = .ok r) (h : Similar s arg a b) :
    Mimics s (.call (.intrinsic (.crossing .aggregate) t) (some a))
      (.call (.intrinsic (.crossing .aggregate) t) (some b)) (Similar s r) := by
  intro v hv
  obtain ⟨m, e, z, q, rfl, rfl, -, -⟩ := aggregateResult_ok hr
  obtain ⟨_, _, rfl, rfl, _, _, _, _, rfl, rfl, ⟨us, us', rfl, rfl, -, hus⟩, zero, _, zero', _, rfl,
    rfl, hz, accumulate, _, accumulate', _, rfl, rfl, ha, merge, _, merge', _, rfl, rfl, hm, report,
    _, report', _, rfl, rfl, hrep, rfl, rfl⟩ := h
  obtain ⟨_, _, _, _, _, total, x, ⟨⟩, rfl, htotal, hx⟩ := runs_aggregate.mp hv
  obtain ⟨total', htotal', ht⟩ := htotal.similar hus hz ha hm
  obtain ⟨x', hx', h⟩ := (hrep.2.2 total total' ht).2 x hx
  exact ⟨_, runs_aggregate.mpr ⟨us', zero', accumulate', merge', report', total', x', rfl, rfl,
    htotal', hx'⟩, x, x', rfl, rfl, h⟩

theorem mimics_intrinsic {op : Intrinsic} (hr : op.resultType arg = .ok r) (h : Similar s arg a b) :
    Mimics s (.call (.intrinsic op (.func arg r)) (some a))
    (.call (.intrinsic op (.func arg r)) (some b))
      (Similar s r) := by
  match op with
  | .crossing .broadcast => exact mimics_broadcast hr h
  | .crossing .aggregate => exact mimics_aggregate hr h
  | .crossing .bitwidthSum => exact mimics_secureSum rfl hr h
  | .crossing .boundedSum => exact mimics_secureSum rfl hr h
  | .crossing .modularSum => exact mimics_secureSum rfl hr h
  | .within .map => exact mimics_map (.inl rfl) hr h
  | .within .apply => exact mimics_map (.inr rfl) hr h
  | .within .zipAtClients => exact mimics_zipAtClients hr h
  | .within .zipAtServer => exact mimics_zipAtServer hr h
  | .within .valueAtServer =>
    simp only [Intrinsic.resultType] at hr
    split at hr <;> cases hr
    exact mimics_valueAtServer h

end Intrinsics

/-- Variables that the expression refers to and that are bound on the left have similar partners on
the right. -/
def SimilarFor (s : Setting) (Γ : List (String × Ty)) (e : Expr) (σ τ : Env) : Prop :=
  ∀ x v, e.Refers x → σ.lookup x = some v → ∃ t w, Γ.lookup x = some t ∧ τ.lookup x = some w ∧
    Similar s t v w

theorem SimilarFor.left {Γ : List (String × Ty)} {e : Expr} {σ τ : Env} (h : SimilarFor s Γ e σ τ) :
    SimilarFor s Γ e σ σ := by
  intro x v hx hv
  obtain ⟨t, w, ht, -, hw⟩ := h x v hx hv
  exact ⟨t, v, ht, hv, hw.left⟩

theorem SimilarFor.bind {Γ : List (String × Ty)} {e e' : Expr} {σ τ : Env} {x : String}
    {a b : Value} (h : SimilarFor s Γ e σ τ) (he : ∀ y, e'.Refers y → y ≠ x → e.Refers y)
    (hab : Similar s t a b) :
    SimilarFor s ((x, t) :: Γ) e' ((x, a) :: σ) ((x, b) :: τ) := by
  intro y v hy hv
  by_cases hyx : y = x
  · subst hyx
    simp only [List.lookup_cons_self, Option.some.injEq] at hv
    exact ⟨t, b, by simp, by simp, hv ▸ hab⟩
  · have hne : (y == x) = false := by simpa using hyx
    simp only [List.lookup_cons, hne] at hv ⊢
    exact h y v (he y hy hyx) hv

theorem Similar.eq_of_paramType {b : Builtin} {a a' : Value} (h : Similar s (b.paramType t) a a')
    (ht : t.isNumeric = true) : a' = a := by
  by_cases hb : b = .sequenceSum
  · subst hb
    obtain ⟨us, us', rfl, rfl, h⟩ := h
    rw [forall₂_eq_of_isNumeric h ht]
  · have h : Similar s (.tuple [t, t]) a a' := by cases b <;> simp_all [Builtin.paramType]
    obtain ⟨x, y, x', y', rfl, rfl, hx, hy⟩ := h.pair
    rw [hx.eq_of_isNumeric ht, hy.eq_of_isNumeric ht]

theorem similar_builtin {b : Builtin} (ht : t.isNumeric = true) :
    Similar s (.func (b.paramType t) t) (.builtin b t) (.builtin b t) := by
  have h : ∀ a a', Similar s (b.paramType t) a a' →
      Mimics s (.call (.builtin b t) (some a)) (.call (.builtin b t) (some a')) (Similar s t) := by
    intro a a' ha v hv
    have hv := runs_arithmetic.mp hv
    exact ⟨v, runs_arithmetic.mpr (ha.eq_of_paramType ht ▸ hv), ha.left.applyBuiltin ht hv⟩
  exact ⟨rfl, rfl, fun a a' ha => ⟨h a a' ha, h a a' ha⟩⟩

/-- A typed expression evaluates alike under similar variables. By induction on the expression. -/
theorem Expr.Typed.mimics {Γ : List (String × Ty)} {e : Expr} {σ τ : Env} (he : e.Typed Γ)
    (h : SimilarFor s Γ e σ τ) : Mimics s (.expr σ e) (.expr τ e) (Similar s e.ty) := by
  induction e generalizing Γ σ τ with
  | ref x t =>
    intro v hv
    obtain ⟨u, w, hu, hw, hvw⟩ := h x v (by simp) (runs_ref.mp hv)
    exact ⟨w, runs_ref.mpr hw, typed_ref.mp he u hu ▸ hvw⟩
  | lit a t =>
    intro v hv
    obtain rfl := runs_lit.mp hv
    obtain rfl := typed_lit.mp he
    refine ⟨_, runs_lit.mpr rfl, ?_⟩
    cases a <;> exact ⟨rfl, rfl⟩
  | tuple es t ih =>
    intro v hv
    obtain ⟨hes, rfl⟩ := typed_tuple.mp he
    obtain ⟨vs, hvs, rfl⟩ := runs_tuple.mp hv
    obtain ⟨ws, hws, hvw⟩ := exists_similarEach hvs fun e he' v hv => ih e he' (hes e he')
      (fun x v hx => h x v (refers_tuple.mpr ⟨e, he', hx⟩)) v hv
    exact ⟨_, runs_tuple.mpr ⟨ws, hws, rfl⟩, vs, ws, rfl, rfl, hvw⟩
  | select e i t ih =>
    intro v hv
    obtain ⟨he, ts, hts, ht⟩ := typed_select.mp he
    obtain ⟨vs, hvs, hi⟩ := runs_select.mp hv
    obtain ⟨w, hw, hvw⟩ := ih he (fun x v hx => h x v (refers_select.mpr hx)) _ hvs
    rw [hts] at hvw
    obtain ⟨ws, w', rfl, hw', hvw⟩ := hvw.element ht hi
    exact ⟨w', runs_select.mpr ⟨ws, hw, hw'⟩, hvw⟩
  | call f a t ihf iha =>
    intro v hv
    obtain ⟨ha, hcall⟩ := typed_call.mp he
    obtain ⟨g, b, hg, hb, hv⟩ := runs_call.mp hv
    obtain ⟨b', hb', hbb⟩ := iha ha (fun x v hx => h x v (refers_call.mpr (.inr hx))) _ hb
    rcases hcall with @⟨uri, op, rfl, ho, hr⟩ | @⟨uri, p, rfl, ho, hacc⟩ | @⟨p, hf, hp, hacc⟩
    · obtain ⟨_, ho', rfl⟩ := runs_intrinsic.mp hg
      cases ho.symm.trans ho'
      obtain ⟨w, hw, hvw⟩ := mimics_intrinsic hr hbb v hv
      exact ⟨w, .call (runs_intrinsic.mpr ⟨op, ho, rfl⟩) hb' hw, hvw⟩
    · obtain ⟨_, ho', rfl⟩ := runs_intrinsic.mp hg
      simp [ho] at ho'
    · obtain ⟨g', hg', hgg⟩ := ihf hf (fun x v hx => h x v (refers_call.mpr (.inl hx))) _ hg
      rw [hp] at hgg
      rw [← similar_of_standsFor hacc] at hbb
      obtain ⟨w, hw, hvw⟩ := (hgg.2.2 b b' hbb).2 v hv
      exact ⟨w, .call hg' hb' hw, hvw⟩
  | force f t ih =>
    intro v hv
    obtain ⟨hf, ht⟩ := typed_force.mp he
    obtain ⟨g, hg, hv⟩ := runs_force.mp hv
    obtain ⟨g', hg', hgg⟩ := ih hf (fun x v hx => h x v (refers_force.mpr hx)) _ hg
    rw [ht] at hgg
    obtain ⟨w, hw, hvw⟩ := hgg.2.2 v hv
    exact ⟨w, .force hg' hw, hvw⟩
  | lambda x e t ih =>
    intro v hv
    obtain rfl := runs_lambda.mp hv
    refine ⟨_, runs_lambda.mpr rfl, ?_⟩
    cases x with
    | none =>
      obtain ⟨hbody, rfl⟩ := typed_delay.mp he
      refine ⟨rfl, rfl, fun v hv => ?_⟩
      obtain ⟨w, hw, hvw⟩ := ih hbody (fun x v hx => h x v (by simpa using hx)) v
        (runs_closure.mp hv)
      exact ⟨w, runs_closure.mpr hw, hvw⟩
    | some x =>
      obtain ⟨p, hbody, rfl⟩ := typed_lambda.mp he
      have body : ∀ {τ : Env}, SimilarFor s Γ (.lambda (some x) e (.func p e.ty)) σ τ →
          ∀ a b, Similar s p a b →
          Mimics s (.call (.closure (some x) e σ) (some a)) (.call (.closure (some x) e τ) (some b))
            (Similar s e.ty) := by
        intro τ h a b hab v hv
        obtain ⟨w, hw, hvw⟩ := ih hbody (h.bind (fun y hy hyx => by simp [hy, Ne.symm hyx]) hab) v
          (runs_closure.mp hv)
        exact ⟨w, runs_closure.mpr hw, hvw⟩
      exact ⟨rfl, rfl, fun a b hab => ⟨body h.left a b hab, body h a b hab⟩⟩
  | block ls r t ihl ihr =>
    intro v hv
    induction ls generalizing Γ σ τ with
    | nil =>
      obtain ⟨hr, rfl⟩ := typed_block_nil.mp he
      cases hv with
      | blockNil hv =>
        obtain ⟨w, hw, hvw⟩ := ihr hr (fun x v hx => h x v (by simpa using hx)) v hv
        exact ⟨w, .blockNil hw, hvw⟩
    | cons l ls ih =>
      obtain ⟨x, e⟩ := l
      obtain ⟨he, hr⟩ := typed_block_cons.mp he
      cases hv with
      | blockCons hu hv =>
        obtain ⟨u', hu', huu⟩ := ihl (x, e) (by simp) he (fun y v hy => h y v (by simp [hy])) _ hu
        obtain ⟨w, hw, hvw⟩ := ih (fun l hl => ihl l (by simp [hl])) hr
          (h.bind (fun y hy hyx => by simp [hy, hyx]) huu) hv
        exact ⟨w, .blockCons hu' hw, hvw⟩
  | intrinsic uri t => exact absurd he typed_intrinsic
  | builtin b t =>
    intro v hv
    obtain ⟨operand, hn, rfl⟩ := typed_builtin.mp he
    obtain rfl := runs_builtin.mp hv
    exact ⟨_, runs_builtin.mpr rfl, similar_builtin hn⟩

end TwoTier

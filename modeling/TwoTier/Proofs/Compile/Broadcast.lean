import TwoTier.Proofs.Factoring
import TwoTier.Proofs.Soundness

/-! # Broadcast forms of rounds

The context of a compiled broadcast round and the output of each participant, computed from the
context and its own data alone, are those of the round.
-/

namespace TwoTier

open Filter

namespace Round

variable {s : Setting} {Z : Prop} {C : List Cell} {view : View} {param : Cell}
  {state result : Value} {data : List Value}

theorem View.Run.broadcastParts {parts : Broadcast Expr}
    (h : view.Run s Z param C state data result) (hi : 0 < s.participants ∨ Z)
    (hr : view.broadcastParts.result = .ok parts) :
    ∃ w t vs us, Applies s parts.context (some state) w ∧ result = .atClients vs ∧
      List.Forall₂ (fun d u => Applies s parts.processing (some (.pair w d)) u) data us ∧
      List.Forall₂ (Similar s t) vs us := by
  simp only [View.broadcastParts, Traced.bind_ok] at hr
  obtain ⟨_, -, _, -, hr⟩ := hr
  split at hr
  · exact absurd hr Traced.fail_ok
  rename_i output houtput
  simp only [Traced.bind_ok, Prod.exists] at hr
  obtain ⟨_, -, _, -, context, contextTy, hcontext, _, -, hr⟩ := hr
  split at hr
  · exact absurd hr Traced.fail_ok
  simp only [Traced.bind_ok, Prod.exists, Traced.pure_ok] at hr
  obtain ⟨e, ls, he, processing, hprocessing, _, -, rfl⟩ := hr
  obtain ⟨rfl, -⟩ := fillSlot_ok hprocessing
  obtain ⟨tvs, w, hdel, hw, hcarry⟩ := h.serverContext hi (Names.fresh_not_mem rfl) hcontext
  -- the result is placed at the participants, one value for each
  obtain ⟨flag, hty⟩ := memberAt?_eq houtput
  have hin := h.denotes.result.inhabits
  rw [hty] at hin
  obtain ⟨vs, _, rfl, -, hlen, -⟩ := hin
  suffices hclient : ∀ (i : Nat) d v, data[i]? = some d → vs[i]? = some v → ∃ u,
      Applies s (closeOver _ _ e ls) (some (.pair w d)) u ∧ Similar s output v u by
    obtain ⟨us, hus, hsim⟩ := forall₂_choose_getElem? (h.participants.trans hlen.symm) hclient
    exact ⟨w, output, vs, us, hw, rfl, hus, hsim⟩
  intro i d v hd hv
  have hx : ((view.names.fresh "state").2.fresh "arg").1 ∉ view.names.used := fun hmem =>
    Names.fresh_not_mem rfl ((Names.mem_fresh rfl).mpr (.inr hmem))
  let k := Slot.over s .lowered i C ((view.names.fresh "state").2.fresh "arg").1 (.pair w d)
  have hi := h.participants ▸ (List.getElem?_eq_some_iff.mp hd).1
  obtain ⟨-, hl, hs⟩ := Slot.Sees.value (View.Run.sees_participant (k := k) h rfl
    (.inl hi) hdel hcarry rfl (fun env henv => runs_field (n := 0) (runs_ref.mpr henv) rfl) rfl
    (fun env henv => ⟨d, hd, runs_field (n := 1) (runs_ref.mpr henv) rfl⟩)) h.denotes.result .nil he
  obtain ⟨u, hu, hvu⟩ := Slot.applies_over h.denotes.cells_nodup
    (h.denotes.not_mem_cells hx) hl hs _
  refine ⟨u, hu, ?_⟩
  simp only [Mode.Holds, hty, Lowers] at hvu
  obtain ⟨_, v', hvs, hv', hvu⟩ := hvu
  cases hvs
  cases hv.symm.trans hv'
  exact hvu

end Round

/-- Compiling to the broadcast form preserves meaning, unless the round zips nothing and nobody
participates. -/
theorem broadcast_compile_preserves {r : Expr} {f : Form} {S D R : Ty} {n g : Nat} {state : Value}
    {data vs : List Value} (hr : r.intrinsicsCalled = true)
    (hf : (compile r .broadcast).result = .ok f) (hty : r.ty = roundType S D R)
    (hstate : Inhabits { participants := data.length, groupSize := g } S state)
    (hdata : ∀ d ∈ data, Inhabits { participants := data.length, groupSize := g } D d)
    (hzip : data ≠ [] ∨ r.zipsNothing = false)
    (hv : (Eval.round n g r state data).result = .ok (.atClients vs))
    (hvs : ∀ v ∈ vs, v.isData = true) :
    ∃ m₀, ∀ m ≥ m₀, (Eval.form m g f state data).result = .ok (.atClients vs) := by
  obtain ⟨hc, parts, hparts, hform⟩ := compile_ok hf
  simp only [Round.parts, Traced.bind_ok, Traced.pure_ok] at hparts
  obtain ⟨view, hview, _, -, p, hp, rfl⟩ := hparts
  simp only [Form.ofParts, Traced.bind_ok, Traced.pure_ok] at hform
  obtain ⟨f, hform, rfl⟩ := hform
  have hempty : data = [] → r.zipsNothing = false := fun hd => hzip.resolve_left (not_not.mpr hd)
  obtain ⟨param, C, hrun⟩ := Round.View.run_of_round hview hc hr hempty hty hstate hdata hv
  obtain ⟨w, t, _, us, hw, ⟨⟩, hus, hsim⟩ := hrun.broadcastParts
    ((Nat.eq_zero_or_pos _).symm.imp_right List.length_eq_zero_iff.mp) hp
  obtain rfl : us = vs := Value.seq.inj <|
    Similar.eq_of_isData (t := .seq t) ⟨vs, us, rfl, rfl, hsim⟩ (Value.allData_iff.mpr hvs)
  obtain ⟨S, C, D, O, hchecked⟩ := Form.ofBroadcast_ok.mp hform
  exact eventually_atTop.mp (hchecked.eval ⟨w, us, rfl, hw, hus⟩)

theorem broadcast_compile_preserves_additions : ∃ f, (compile additions .broadcast).result = .ok f ∧
    ∃ m₀, ∀ m ≥ m₀, (Eval.form m 2 f (.int 1) [.int 2, .int 3]).result =
    .ok (.atClients [.int 3, .int 4]) := by
  have hint (n : Int) : Inhabits { participants := 2, groupSize := 2 } .int32 (.int n) :=
    inhabits_int.mpr ⟨n, rfl⟩
  exact ⟨_, rfl, broadcast_compile_preserves (r := additions) (n := 20) (by decide) rfl rfl (hint 1)
    (by simp [hint]) (.inl (by decide)) rfl (by decide)⟩

/-- The expression, next to sums that are too large for every participant. -/
def besideOverflow (e : Expr) : Expr :=
  let rows :=
    Expr.call (.intrinsic "federated_zip_at_clients" (.func .empty (.atParticipants .empty))) .unit
    (.atParticipants .empty)
  let add := Expr.builtin .add (.func (.tuple [.int32, .int32]) .int32)
  let sum :=
    Expr.mkLambda "u" .empty (.call add (Expr.mkTuple [.int 9223372036854775807, .int 1]) .int32)
  let operands := Expr.mkTuple [sum, rows]
  let sums := Expr.call (.intrinsic "federated_map" (.func operands.ty (.atParticipants .int32)))
    operands (.atParticipants .int32)
  .select (Expr.mkTuple [sums, e]) 1 e.ty

/-- As `additions`, with sums next to the value of the coordinator that nobody uses. -/
def discarding : Expr :=
  let pair := Ty.tuple [.int32, .int32]
  let inputs := Ty.tuple [.atCoordinator .int32, .atParticipants .int32]
  let copy := Ty.place .int32 .participants true
  let sent := besideOverflow (.select (.ref "p" inputs) 0 (.atCoordinator .int32))
  let received := Expr.call (.intrinsic "federated_broadcast" (.func sent.ty copy)) sent copy
  let own := Expr.select (.ref "p" inputs) 1 (.atParticipants .int32)
  let columns := Expr.mkTuple [received, own]
  let zipped := Ty.atParticipants pair
  let rows :=
    Expr.call (.intrinsic "federated_zip_at_clients" (.func columns.ty zipped)) columns zipped
  let operands := Expr.mkTuple [.builtin .add (.func pair .int32), rows]
  let result := Expr.call (.intrinsic "federated_map" (.func operands.ty own.ty)) operands own.ty
  Expr.mkLambda "p" inputs result

/-- Without participants nobody adds up too much in the round, but the coordinator does in the
form. -/
theorem broadcast_compile_discarding : ∃ f, (compile discarding .broadcast).result = .ok f ∧
    (∀ n, (Eval.round (n + 20) 2 discarding (.int 1) []).result = .ok (.atClients [])) ∧
    ∃ fault, (Eval.form 20 2 f (.int 1) []).result = .error (.fault fault) := by
  obtain ⟨f, hf, hfault⟩ : ∃ f, (compile discarding .broadcast).result = .ok f ∧
      (Eval.form 20 2 f (.int 1) []).fault?.isSome = true := except_any (by decide +kernel)
  obtain ⟨fault, hfault⟩ := Option.isSome_iff_exists.mp hfault
  exact ⟨f, hf, fun _ => rfl, fault, Eval.fault?_some hfault⟩

end TwoTier

import TwoTier.Evaluation.Form
import TwoTier.Form.Check
import TwoTier.Proofs.Locality

/-! # Forms that pass their checks

What the checks of a form establish about its parts, and when a block has a result.
-/

namespace TwoTier

open Filter

variable {s : Setting}

/-- Calling what the expression evaluates to has the result `v`. -/
def Applies (s : Setting) (e : Expr) (argument : Option Value) (v : Value) : Prop :=
  ∃ f, Runs s (.expr [] e) f ∧ Runs s (.call f argument) v

theorem applies_lambda {x : String} {e : Expr} {t : Ty} {a v : Value} :
    Applies s (.lambda (some x) e t) (some a) v ↔ Runs s (.expr [(x, a)] e) v := by
  simp [Applies, Env.enter]

theorem applies_delay {e : Expr} {t : Ty} {v : Value} :
    Applies s (.lambda none e t) none v ↔ Runs s (.expr [] e) v := by
  simp [Applies, Env.enter]

theorem Applies.eval {b : Block} {argument : Option Value} {v : Value}
    (h : Applies s b.payload argument v) :
    ∀ᶠ n in atTop, (Eval.block s n b argument).result = .ok v := by
  obtain ⟨f, hf, hv⟩ := h
  filter_upwards [hf.eval, hv.eval] with n hf hv
  simp only [Eval.block, Traced.bind_ok]
  exact ⟨f, hf, hv⟩

theorem applies_of_block {n : Nat} {b : Block} {argument : Option Value} {v : Value}
    (h : (Eval.block s n b argument).result = .ok v) : Applies s b.payload argument v := by
  simp only [Eval.block, Traced.bind_ok] at h
  obtain ⟨f, hf, hv⟩ := h
  exact ⟨f, (runs_of_eval n).1 hf, (runs_of_eval n).2 hv⟩

theorem applies_of_round {n g : Nat} {r : Expr} {state v : Value} {data : List Value}
    (h : (Eval.round n g r state data).result = .ok v) :
    Applies { participants := data.length, groupSize := g } r
      (some (.tuple [.atServer state, .atClients data])) v := by
  simp only [Eval.round, Traced.bind_ok] at h
  obtain ⟨f, hf, hv⟩ := h
  exact ⟨f, (runs_of_eval n).1 hf, (runs_of_eval n).2 hv⟩

theorem Applies.round {g : Nat} {r : Expr} {state v : Value} {data : List Value}
    (h : Applies { participants := data.length, groupSize := g } r
      (some (.tuple [.atServer state, .atClients data])) v) :
    ∀ᶠ n in atTop, (Eval.round n g r state data).result = .ok v := by
  obtain ⟨f, hf, hv⟩ := h
  filter_upwards [hf.eval, hv.eval] with n hf hv
  simp only [Eval.round, Traced.bind_ok]
  exact ⟨f, hf, hv⟩

theorem Expr.extract_ok {e : Expr} {expected : Ty} {tier : Tier} {slot : String} {b : Block} :
    (e.extract expected tier slot).result = .ok b ↔
      e.leak? tier = none ∧ e.ty = expected ∧ b = ⟨expected, e, tier⟩ := by
  unfold extract
  split
  · rename_i h
    simp [h]
  · rename_i h
    simp only [h, true_and]
    split
    · rename_i hty
      simp [hty]
    · rename_i hty
      simp [not_not.mp hty, @eq_comm _ b]

namespace Form

variable {slot : String} {t p r a b : Ty} {e : Expr} {constraint : Constraint}

theorem violated_ok {α : Type} {x : α} :
    ¬ (violated slot constraint t : Traced Incompatible α).result = .ok x := by
  simp [violated]

/-- A part that passed its check is a block of its own type. -/
structure Part (e : Expr) (tier : Tier) (b : Block) : Prop where
  check : e.check = .ok ()
  sealed : e.leak? tier = none
  block : b = ⟨e.ty, e, tier⟩

theorem Part.payload {tier : Tier} {b : Block} (h : Part e tier b) : b.payload = e := by
  rw [h.block]

theorem Part.applies_of_eval {tier : Tier} {b : Block} {n : Nat} {argument : Option Value}
    {v : Value} (h : Part e tier b) (hv : (Eval.block s n b argument).result = .ok v) :
    Applies s e argument v := by
  have := applies_of_block hv
  rwa [h.block] at this

theorem Part.eval {tier : Tier} {b : Block} {argument : Option Value}
    {v : Value} (h : Part e tier b) (hv : Applies s e argument v) :
    ∀ᶠ n in atTop, (Eval.block s n b argument).result = .ok v := by
  refine Applies.eval ?_
  rwa [h.block]

theorem block_ok {tier : Tier} {block : Block} :
    (Form.block e tier slot).result = .ok block ↔ Part e tier block := by
  unfold Form.block
  split
  · rename_i hc
    simp only [Traced.fail_ok, false_iff]
    intro h
    simp [h.check] at hc
  · rename_i hc
    rw [Traced.mapError_ok, Expr.extract_ok]
    exact ⟨fun h => ⟨hc, h.1, h.2.2⟩, fun h => ⟨h.sealed, rfl, h.block⟩⟩

theorem unary_ok {block : Block} :
    (unary block slot).result = .ok (p, r) ↔ block.signature = .func p r := by
  unfold unary
  split
  · rename_i p' r' h
    simp [h]
  · rename_i h
    simp only [violated_ok, false_iff]
    exact fun h' => h p r h'

theorem nullary_ok {block : Block} :
    (nullary block slot).result = .ok r ↔ block.signature = .thunk r := by
  unfold nullary
  split
  · rename_i r' h
    simp [h]
  · rename_i h
    simp only [violated_ok, false_iff]
    exact fun h' => h r h'

theorem pair_ok : (pair t slot constraint).result = .ok (a, b) ↔ t = .tuple [a, b] := by
  unfold pair
  split
  · simp
  · rename_i h
    simp only [violated_ok, false_iff]
    exact fun h' => h a b h'

theorem expect_ok {u : Unit} : (expect slot constraint a b).result = .ok u ↔ a = b := by
  unfold expect
  split <;> simp_all

theorem assignable_ok {u : Unit} :
    (assignable slot constraint a b).result = .ok u ↔ a.accepts b = true := by
  unfold assignable
  split <;> simp_all

theorem declare_ok {template : Template} {name : String} :
    (declare template name t).result = .ok () :=
  rfl

theorem secureChannels_ok {u : Unit} : (secureChannels t slot).result = .ok u ↔
    ∃ a b c, t = .tuple [a, b, c] ∧ a.isInteger = true ∧ b.isInteger = true ∧
    c.isInteger = true := by
  unfold secureChannels
  split
  · rename_i a b c
    cases ha : a.isInteger <;> cases hb : b.isInteger <;> cases hc : c.isInteger <;>
      simp [List.zipIdx, List.find?, ha, hb, hc, violated]
  · rename_i ht
    simp only [violated_ok, false_iff]
    rintro ⟨a, b, c, rfl, -⟩
    exact ht a b c rfl

section Sequence

variable {α : Type} {x : α}

theorem block_seq {tier : Tier} {k : Block → Traced Incompatible α} :
    (Form.block e tier slot >>= k).result = .ok x ↔
      (e.check = .ok () ∧ e.leak? tier = none) ∧ (k ⟨e.ty, e, tier⟩).result = .ok x := by
  simp only [Traced.bind_ok, block_ok]
  constructor
  · rintro ⟨_, ⟨hc, hl, rfl⟩, h⟩
    exact ⟨⟨hc, hl⟩, h⟩
  · rintro ⟨⟨hc, hl⟩, h⟩
    exact ⟨_, ⟨hc, hl, rfl⟩, h⟩

theorem unary_seq {block : Block} {k : Ty × Ty → Traced Incompatible α} :
    (unary block slot >>= k).result = .ok x ↔ ∃ p r, block.signature = .func p r ∧
    (k (p, r)).result = .ok x := by
  simp only [Traced.bind_ok, Prod.exists, unary_ok]

theorem nullary_seq {block : Block} {k : Ty → Traced Incompatible α} :
    (nullary block slot >>= k).result = .ok x ↔ ∃ r, block.signature = .thunk r ∧
    (k r).result = .ok x := by
  simp only [Traced.bind_ok, nullary_ok]

theorem pair_seq {k : Ty × Ty → Traced Incompatible α} :
    (pair t slot constraint >>= k).result = .ok x ↔ ∃ a b, t = .tuple [a, b] ∧
    (k (a, b)).result = .ok x := by
  simp only [Traced.bind_ok, Prod.exists, pair_ok]

theorem secureParameter_seq {k : Block → Traced Incompatible α} :
    (secureParameter e slot >>= k).result = .ok x ↔ (e.check = .ok () ∧ e.leak? .unplaced = none) ∧
      (∃ p, e.ty = .thunk p ∧ p.isInteger = true) ∧ (k ⟨e.ty, e, .unplaced⟩).result = .ok x := by
  simp only [secureParameter, bind_assoc, block_seq, nullary_seq]
  refine and_congr_right fun _ => ?_
  constructor
  · rintro ⟨p, hp, h⟩
    split at h
    · rename_i hi
      exact ⟨⟨p, hp, hi⟩, h⟩
    · obtain ⟨_, h, -⟩ := Traced.bind_ok.mp h
      exact absurd h violated_ok
  · rintro ⟨⟨p, hp, hi⟩, h⟩
    exact ⟨p, hp, by simpa [hi] using h⟩

end Sequence

structure BroadcastChecked (parts : Broadcast Expr) (f : Broadcast Block)
    (s c d o : Ty) : Prop where
  context : Part parts.context .unplaced f.context
  processing : Part parts.processing .unplaced f.processing
  contextTy : parts.context.ty = .func s c
  processingTy : parts.processing.ty = .func (.tuple [c, d]) o

theorem ofBroadcast_ok {parts : Broadcast Expr} {f : Broadcast Block} :
    (ofBroadcast parts).result = .ok f ↔ ∃ s c d o, BroadcastChecked parts f s c d o := by
  simp only [ofBroadcast, Traced.seq_ok, block_seq, unary_seq, pair_seq, expect_ok, declare_ok,
    Traced.note_ok, Traced.pure_ok, true_and]
  constructor
  · rintro ⟨⟨hc, hl⟩, s, c, hctx, ⟨hc', hl'⟩, _, o, hp, _, d, rfl, rfl, rfl⟩
    exact ⟨s, c, d, o, ⟨hc, hl, rfl⟩, ⟨hc', hl', rfl⟩, hctx, hp⟩
  · rintro ⟨s, c, d, o, hctx, hproc, hs, hp⟩
    obtain ⟨context, processing⟩ := f
    cases hctx.block
    cases hproc.block
    exact ⟨⟨hctx.check, hctx.sealed⟩, s, c, hs, ⟨hproc.check, hproc.sealed⟩, _, o, hp, c, d,
      rfl, rfl, rfl⟩

/-- The parts of a map-reduce form fit together. -/
structure MapReduceChecked (parts : MapReduce Expr) (f : MapReduce Block)
    (s c d u v₁ v₂ v₃ a r x : Ty) : Prop where
  prepare : Part parts.prepare .unplaced f.prepare
  work : Part parts.work .unplaced f.work
  zero : Part parts.zero .unplaced f.zero
  accumulate : Part parts.accumulate .unplaced f.accumulate
  merge : Part parts.merge .unplaced f.merge
  report : Part parts.report .unplaced f.report
  bitwidth : Part parts.bitwidth .unplaced f.bitwidth
  maxInput : Part parts.maxInput .unplaced f.maxInput
  modulus : Part parts.modulus .unplaced f.modulus
  update : Part parts.update .unplaced f.update
  prepareTy : parts.prepare.ty = .func s c
  workTy : parts.work.ty = .func (.tuple [d, c]) (.tuple [u, .tuple [v₁, v₂, v₃]])
  channels : v₁.isInteger = true ∧ v₂.isInteger = true ∧ v₃.isInteger = true
  zeroTy : parts.zero.ty = .thunk a
  accumulateTy : ∃ a', parts.accumulate.ty = .func (.tuple [a, u]) a' ∧ a.accepts a' = true
  mergeTy : ∃ a', parts.merge.ty = .func (.tuple [a, a]) a' ∧ a.accepts a' = true
  reportTy : parts.report.ty = .func a r
  bitwidthTy : ∃ p, parts.bitwidth.ty = .thunk p ∧ p.isInteger = true
  maxInputTy : ∃ p, parts.maxInput.ty = .thunk p ∧ p.isInteger = true
  modulusTy : ∃ p, parts.modulus.ty = .thunk p ∧ p.isInteger = true
  updateTy : parts.update.ty = .func (.tuple [s, .tuple [r, .tuple [v₁, v₂, v₃]]]) (.tuple [s, x])

theorem ofMapReduce_ok {parts : MapReduce Expr} {f : MapReduce Block} :
    (ofMapReduce parts).result = .ok f ↔
      ∃ s c d u v₁ v₂ v₃ a r x, MapReduceChecked parts f s c d u v₁ v₂ v₃ a r x := by
  simp only [ofMapReduce, Traced.seq_ok, block_seq, unary_seq, nullary_seq, pair_seq, expect_ok,
    assignable_ok, declare_ok, Traced.note_ok, secureChannels_ok, secureParameter_seq,
    Traced.pure_ok, true_and]
  constructor
  · rintro ⟨hprepare, s, c, hs, hwork, _, _, hw, d, _, rfl, rfl, u, _, rfl, ⟨v₁, v₂, v₃, rfl, hv⟩,
      hzero, a, ha, h⟩
    obtain ⟨haccumulate, _, a₁, hacc, rfl, hmerge, _, a₂, hmer, hreport, _, r, hr, rfl, h⟩ := h
    obtain ⟨hbitwidth, hbitwidthTy, hmaxInput, hmaxInputTy, hmodulus, hmodulusTy, hupdate, _, _, hu,
      rfl, _, x, rfl, rfl, hacc', rfl, hmer', rfl⟩ := h
    exact ⟨s, c, d, u, v₁, v₂, v₃, a, r, x, ⟨hprepare.1, hprepare.2, rfl⟩, ⟨hwork.1, hwork.2, rfl⟩,
      ⟨hzero.1, hzero.2, rfl⟩, ⟨haccumulate.1, haccumulate.2, rfl⟩, ⟨hmerge.1, hmerge.2, rfl⟩,
      ⟨hreport.1, hreport.2, rfl⟩, ⟨hbitwidth.1, hbitwidth.2, rfl⟩, ⟨hmaxInput.1, hmaxInput.2, rfl⟩,
      ⟨hmodulus.1, hmodulus.2, rfl⟩, ⟨hupdate.1, hupdate.2, rfl⟩, hs, hw, hv, ha, ⟨a₁, hacc, hacc'⟩,
      ⟨a₂, hmer, hmer'⟩, hr, hbitwidthTy, hmaxInputTy, hmodulusTy, hu⟩
  · rintro ⟨s, c, d, u, v₁, v₂, v₃, a, r, x, h⟩
    obtain ⟨prepare, work, zero, accumulate, merge, report, bitwidth, maxInput, modulus, update⟩ :=
      f
    cases h.prepare.block
    cases h.work.block
    cases h.zero.block
    cases h.accumulate.block
    cases h.merge.block
    cases h.report.block
    cases h.bitwidth.block
    cases h.maxInput.block
    cases h.modulus.block
    cases h.update.block
    obtain ⟨a₁, hacc, hacc'⟩ := h.accumulateTy
    obtain ⟨a₂, hmer, hmer'⟩ := h.mergeTy
    exact ⟨⟨h.prepare.check, h.prepare.sealed⟩, s, c, h.prepareTy, ⟨h.work.check, h.work.sealed⟩,
      _, _, h.workTy, d, c, rfl, rfl, u, _, rfl, ⟨v₁, v₂, v₃, rfl, h.channels⟩,
      ⟨h.zero.check, h.zero.sealed⟩, a, h.zeroTy, ⟨h.accumulate.check, h.accumulate.sealed⟩, _, a₁,
      hacc, rfl, ⟨h.merge.check, h.merge.sealed⟩, _, a₂, hmer, ⟨h.report.check, h.report.sealed⟩,
      a, r, h.reportTy, rfl, ⟨h.bitwidth.check, h.bitwidth.sealed⟩, h.bitwidthTy,
      ⟨h.maxInput.check, h.maxInput.sealed⟩, h.maxInputTy, ⟨h.modulus.check, h.modulus.sealed⟩,
      h.modulusTy, ⟨h.update.check, h.update.sealed⟩, _, _, h.updateTy, rfl, s, x, rfl, rfl, hacc',
      rfl, hmer', rfl⟩

structure DistributeAggregateChecked (parts : DistributeAggregate Expr)
    (f : DistributeAggregate Block) (s t bI bO d aI aO x : Ty) : Prop where
  serverPrepare : Part parts.serverPrepare .coordinator f.serverPrepare
  broadcast : Part parts.broadcast .crossTier f.broadcast
  clientWork : Part parts.clientWork .participants f.clientWork
  aggregation : Part parts.aggregation .crossTier f.aggregation
  serverResult : Part parts.serverResult .coordinator f.serverResult
  serverPrepareTy : ∃ e, parts.serverPrepare.ty = .func (.placed s .coordinator e) (.tuple [bI, t])
  broadcastTy : parts.broadcast.ty = .func bI bO
  clientWorkTy : parts.clientWork.ty = .func (.tuple [.placed d .participants false, bO]) aI
  aggregationTy : parts.aggregation.ty = .func (.tuple [t, aI]) aO
  serverResultTy : parts.serverResult.ty = .func (.tuple [t, aO]) (.tuple [.atCoordinator s, x])
  broadcastsOnly : (restricted f.broadcast DistributeAggregate.slots.broadcast Crossing.isBroadcast
    .broadcast).result = .ok ()
  aggregatesOnly : (restricted f.aggregation DistributeAggregate.slots.aggregation
    Crossing.isAggregation .aggregation).result = .ok ()

theorem clientData_ok (h : ¬ (t.placement? ≠ some .participants ∨ t.isAllEqual = true)) :
    ∃ d, t = .placed d .participants false := by
  cases t <;> simp [Ty.placement?, Ty.isAllEqual] at h ⊢
  exact h

theorem ofDistributeAggregate_ok {parts : DistributeAggregate Expr} {f : DistributeAggregate Block}
    (h : (ofDistributeAggregate parts).result = .ok f) :
    ∃ s t bI bO d aI aO x, DistributeAggregateChecked parts f s t bI bO d aI aO x := by
  simp only [ofDistributeAggregate, block_seq, unary_seq] at h
  obtain ⟨hserverPrepare, state, prepared, hsp, h⟩ := h
  split at h
  swap
  · obtain ⟨_, h, -⟩ := Traced.bind_ok.mp h
    exact absurd h violated_ok
  rename_i s hs
  obtain ⟨e, rfl⟩ := memberAt?_eq hs
  obtain ⟨_, hpure, h⟩ := Traced.bind_ok.mp h
  obtain rfl := Traced.pure_ok.mp hpure
  simp only [Traced.seq_ok, pair_seq, block_seq, unary_seq, expect_ok] at h
  obtain ⟨-, bI, t, rfl, -, -, -, -, hbroadcast, _, bO, hb, rfl, -, -, hclientWork, _, aI, hc, data,
    _, rfl, h⟩ := h
  split at h
  · exact absurd h violated_ok
  rename_i hdata
  simp only [Traced.seq_ok, pair_seq, block_seq, unary_seq, expect_ok] at h
  obtain ⟨rfl, -, -, haggregation, _, aO, ha, rfl, -, -, hserverResult, _, _, hsr, rfl, _, x,
    rfl, rfl, h⟩ := h
  split at h
  · exact absurd h violated_ok
  simp only [Traced.seq_ok, Traced.pure_ok] at h
  obtain ⟨hbroadcasts, haggregates, -, rfl⟩ := h
  obtain ⟨d, rfl⟩ := clientData_ok hdata
  exact ⟨s, t, bI, bO, d, aI, aO, x, ⟨hserverPrepare.1, hserverPrepare.2, rfl⟩, ⟨hbroadcast.1,
    hbroadcast.2, rfl⟩, ⟨hclientWork.1, hclientWork.2, rfl⟩, ⟨haggregation.1, haggregation.2, rfl⟩,
    ⟨hserverResult.1, hserverResult.2, rfl⟩, ⟨e, hsp⟩, hb, hc, ha, hsr, hbroadcasts, haggregates⟩

theorem Part.function {e : Expr} {tier : Tier} {b : Block} {p r : Ty} (h : Part e tier b)
    (hty : e.ty = .func p r) : b.paramType? = some p ∧ b.resultType = r := by
  simp [h.block, Block.paramType?, Block.resultType, hty, Ty.signature?]

theorem Part.value {e : Expr} {tier : Tier} {b : Block} {r : Ty} (h : Part e tier b)
    (hty : e.ty = .thunk r) : b.resultType = r := by
  simp [h.block, Block.resultType, hty, Ty.signature?]

theorem BroadcastChecked.signature {parts : Broadcast Expr} {f : Broadcast Block} {s c d o : Ty}
    (h : BroadcastChecked parts f s c d o) : f.signature = roundType s d (.atParticipants o) := by
  simp [Broadcast.signature, Broadcast.stateType, Broadcast.dataType, Block.paramElement,
    Block.paramOrEmpty, (h.context.function h.contextTy).1, h.processing.function h.processingTy,
    Ty.elementOrEmpty, Ty.elements?]

theorem MapReduceChecked.signature {parts : MapReduce Expr} {f : MapReduce Block}
    {s c d u v₁ v₂ v₃ a r x : Ty} (h : MapReduceChecked parts f s c d u v₁ v₂ v₃ a r x) :
    f.signature = roundType s d (.tuple [.atCoordinator s, .atCoordinator x]) := by
  simp [MapReduce.signature, MapReduce.stateType, MapReduce.dataType, MapReduce.outputType,
    Block.paramElement, Block.resultElement, Block.paramOrEmpty, (h.prepare.function h.prepareTy).1,
    (h.work.function h.workTy).1, (h.update.function h.updateTy).2, Ty.elementOrEmpty, Ty.elements?]

theorem DistributeAggregateChecked.signature {parts : DistributeAggregate Expr}
    {f : DistributeAggregate Block} {s t bI bO d aI aO x : Ty}
    (h : DistributeAggregateChecked parts f s t bI bO d aI aO x) :
    f.signature = roundType s d (.tuple [.atCoordinator s, x]) := by
  obtain ⟨flag, hs⟩ := h.serverPrepareTy
  simp [DistributeAggregate.signature, DistributeAggregate.stateType, DistributeAggregate.dataType,
    Block.paramElement, Block.paramOrEmpty, (h.serverPrepare.function hs).1,
    (h.clientWork.function h.clientWorkTy).1, (h.serverResult.function h.serverResultTy).2,
    Ty.elementOrEmpty, Ty.elements?, Ty.member?]

theorem ofParts_ok {parts : Parts} {f : Form} (h : (ofParts parts).result = .ok f) :
    (∃ p g, parts = .mapReduce p ∧ f = .mapReduce g ∧ (ofMapReduce p).result = .ok g) ∨
    (∃ p g, parts = .distributeAggregate p ∧ f = .distributeAggregate g ∧
    (ofDistributeAggregate p).result = .ok g) ∨
    ∃ p g, parts = .broadcast p ∧ f = .broadcast g ∧ (ofBroadcast p).result = .ok g := by
  cases parts with
  | mapReduce p =>
    obtain ⟨g, hg, rfl⟩ := Traced.map_ok.mp h
    exact .inl ⟨p, g, rfl, rfl, hg⟩
  | distributeAggregate p =>
    obtain ⟨g, hg, rfl⟩ := Traced.map_ok.mp h
    exact .inr (.inl ⟨p, g, rfl, rfl, hg⟩)
  | broadcast p =>
    obtain ⟨g, hg, rfl⟩ := Traced.map_ok.mp h
    exact .inr (.inr ⟨p, g, rfl, rfl, hg⟩)

end Form

section Protocols

variable {state v : Value} {data : List Value} {n : Nat}

def Broadcast.Yields (s : Setting) (parts : Broadcast Expr) (state : Value) (data : List Value)
    (v : Value) : Prop :=
  ∃ context outputs, v = .atClients outputs ∧ Applies s parts.context (some state) context ∧
    List.Forall₂ (fun d u => Applies s parts.processing (some (.pair context d)) u) data outputs

namespace Form.BroadcastChecked

variable {parts : Broadcast Expr} {f : Broadcast Block} {S C D O : Ty}

theorem yields_of_eval (h : BroadcastChecked parts f S C D O)
    (hv : (Eval.broadcast s n f state data).result = .ok v) :
    parts.Yields s state data v := by
  simp only [Eval.broadcast, Traced.bind_ok, Traced.each_ok, Traced.pure_ok] at hv
  obtain ⟨context, hcontext, outputs, houtputs, rfl⟩ := hv
  exact ⟨context, outputs, rfl, h.context.applies_of_eval hcontext,
    houtputs.imp fun d u hu => h.processing.applies_of_eval hu⟩

theorem eval (h : BroadcastChecked parts f S C D O) (hv : parts.Yields s state data v) :
    ∀ᶠ n in atTop, (Eval.broadcast s n f state data).result = .ok v := by
  obtain ⟨context, outputs, rfl, hc, hp⟩ := hv
  filter_upwards [h.context.eval hc,
    eventually_forall₂ (hp.imp fun d u hu => h.processing.eval hu)] with n hc hp
  simp only [Eval.broadcast, Traced.bind_ok, Traced.pure_ok, Traced.each_ok]
  exact ⟨context, hc, outputs, hp, rfl⟩

end Form.BroadcastChecked

def DistributeAggregate.Yields (s : Setting) (parts : DistributeAggregate Expr) (state : Value)
    (data : List Value) (v : Value) : Prop :=
  ∃ sent carried received values aggregates,
    Applies s parts.serverPrepare (some (.atServer state)) (.pair sent carried) ∧
    Applies s parts.broadcast (some sent) received ∧
    Applies s parts.clientWork (some (.pair (.atClients data) received)) values ∧
    Applies s parts.aggregation (some (.pair carried values)) aggregates ∧
    Applies s parts.serverResult (some (.pair carried aggregates)) v

namespace Form.DistributeAggregateChecked

variable {parts : DistributeAggregate Expr} {f : DistributeAggregate Block} {S T B B' D A A' X : Ty}

theorem yields_of_eval (h : DistributeAggregateChecked parts f S T B B' D A A' X)
    (hv : (Eval.distributeAggregate s n f state data).result = .ok v) :
    parts.Yields s state data v := by
  simp only [Eval.distributeAggregate, Traced.bind_ok, Eval.liftM_ok, Value.two_ok,
    Prod.exists] at hv
  obtain ⟨_, hprepare, sent, carried, rfl, received, hreceived, values, hvalues, aggregates,
    haggregates, hv⟩ := hv
  exact ⟨sent, carried, received, values, aggregates, h.serverPrepare.applies_of_eval hprepare,
    h.broadcast.applies_of_eval hreceived, h.clientWork.applies_of_eval hvalues,
    h.aggregation.applies_of_eval haggregates, h.serverResult.applies_of_eval hv⟩

theorem eval (h : DistributeAggregateChecked parts f S T B B' D A A' X)
    (hv : parts.Yields s state data v) :
    ∀ᶠ n in atTop, (Eval.distributeAggregate s n f state data).result = .ok v := by
  obtain ⟨sent, carried, received, values, aggregates, hp, hb, hc, ha, hr⟩ := hv
  filter_upwards [h.serverPrepare.eval hp, h.broadcast.eval hb, h.clientWork.eval hc,
    h.aggregation.eval ha, h.serverResult.eval hr] with n hp hb hc ha hr
  simp only [Eval.distributeAggregate, Traced.bind_ok, Eval.liftM_ok, Value.two_ok, Prod.exists]
  exact ⟨_, hp, sent, carried, rfl, received, hb, values, hc, aggregates, ha, hr⟩

end Form.DistributeAggregateChecked

/-- The protocol of map-reduce forms, for secure sums of the given types. -/
inductive MapReduce.Yields (s : Setting) (parts : MapReduce Expr) (v₁ v₂ v₃ : Ty) (state : Value)
    (data : List Value) : Value → Prop where

  | intro {context zero accumulate merge total report p₁ p₂ p₃ t₁ t₂ t₃ newState output : Value}
      {outputs : List (Value × Value × Value × Value)} :
      Applies s parts.prepare (some state) context →
      List.Forall₂ (fun d o => Applies s parts.work (some (.pair d context))
        (.pair o.1 (.tuple [o.2.1, o.2.2.1, o.2.2.2]))) data outputs →
      Applies s parts.zero none zero → Runs s (.expr [] parts.accumulate) accumulate →
      Runs s (.expr [] parts.merge) merge →
      Aggregates s (outputs.map fun o => o.1) zero accumulate merge total →
      Applies s parts.report (some total) report →
      Applies s parts.bitwidth none p₁ → Applies s parts.maxInput none p₂ →
      Applies s parts.modulus none p₃ →
      Value.secureSum .bitwidthSum v₁ (outputs.map fun o => o.2.1) p₁ = .ok t₁ →
      Value.secureSum .boundedSum v₂ (outputs.map fun o => o.2.2.1) p₂ = .ok t₂ →
      Value.secureSum .modularSum v₃ (outputs.map fun o => o.2.2.2) p₃ = .ok t₃ →
      Applies s parts.update (some (.pair state (.pair report (.tuple [t₁, t₂, t₃]))))
      (.pair newState output) →
      MapReduce.Yields s parts v₁ v₂ v₃ state data (.pair (.atServer newState) (.atServer output))

theorem clientOutput_ok {o : Value × Value × Value × Value} :
    Eval.clientOutput v = .ok o ↔ v = .pair o.1 (.tuple [o.2.1, o.2.2.1, o.2.2.2]) := by
  obtain ⟨u, a, b, c⟩ := o
  simp only [Eval.clientOutput, except_bind_ok, Value.two_ok, Value.three_ok, except_pure_ok,
    Prod.exists, Prod.mk.injEq]
  constructor
  · rintro ⟨_, _, rfl, _, _, _, rfl, rfl, rfl, rfl, rfl⟩
    rfl
  · rintro rfl
    exact ⟨_, _, rfl, _, _, _, rfl, rfl, rfl, rfl, rfl⟩

theorem channelSum_ok {members : List Ty} {channel : Nat} {op : Crossing} {values : List Value}
    {b : Block} : (Eval.channelSum s n members channel op values b).result = .ok v ↔
    ∃ m p, members[channel]? = some m ∧
      (Eval.block s n b none).result = .ok p ∧ Value.secureSum op m values p = .ok v := by
  unfold Eval.channelSum
  split
  · rename_i h
    simp [h]
  · rename_i m h
    simp [h]

namespace Form.MapReduceChecked

variable {parts : MapReduce Expr} {f : MapReduce Block} {S C D U v₁ v₂ v₃ A R X : Ty}

theorem secureType (h : MapReduceChecked parts f S C D U v₁ v₂ v₃ A R X) :
    f.secureType.elements? = some [v₁, v₂, v₃] := by
  simp [MapReduce.secureType, Block.resultElement, Block.resultType, h.work.block, h.workTy,
    Ty.signature?, Ty.elementOrEmpty, Ty.elements?]

theorem yields_of_eval (h : MapReduceChecked parts f S C D U v₁ v₂ v₃ A R X)
    (hv : (Eval.mapReduce s n f state data).result = .ok v) :
    parts.Yields s v₁ v₂ v₃ state data v := by
  simp only [Eval.mapReduce, Traced.bind_ok, Traced.each_ok, Eval.ofExcept_ok, h.secureType,
    channelSum_ok, Eval.liftM_ok, Value.two_ok, Prod.exists, Traced.pure_ok] at hv
  obtain ⟨context, hcontext, outs, houts, outputs, houtputs, zero, hzero, accumulate, hacc, merge,
    hmerge, total, htotal, report, hreport, t₁, ⟨_, p₁, ⟨⟩, hp₁, ht₁⟩, t₂, ⟨_, p₂, ⟨⟩, hp₂, ht₂⟩,
    t₃, ⟨_, p₃, ⟨⟩, hp₃, ht₃⟩, _, hupdate, newState, output, rfl, rfl⟩ := hv
  have hwork : List.Forall₂ (fun d o => Applies s parts.work (some (.pair d context))
      (.pair o.1 (.tuple [o.2.1, o.2.2.1, o.2.2.2]))) data outputs :=
    forall₂_comp houts houtputs fun d v o hv ho => clientOutput_ok.mp ho ▸ h.work.applies_of_eval hv
  rw [h.accumulate.block] at hacc
  rw [h.merge.block] at hmerge
  exact .intro (h.prepare.applies_of_eval hcontext) hwork (h.zero.applies_of_eval hzero)
    ((runs_of_eval n).1 hacc) ((runs_of_eval n).1 hmerge) (aggregates_of_eval htotal)
    (h.report.applies_of_eval hreport) (h.bitwidth.applies_of_eval hp₁)
    (h.maxInput.applies_of_eval hp₂) (h.modulus.applies_of_eval hp₃) ht₁ ht₂ ht₃
    (h.update.applies_of_eval hupdate)

theorem eval (h : MapReduceChecked parts f S C D U v₁ v₂ v₃ A R X)
    (hv : parts.Yields s v₁ v₂ v₃ state data v) :
    ∀ᶠ n in atTop, (Eval.mapReduce s n f state data).result = .ok v := by
  cases hv with
  | @intro context zero accumulate merge total report p₁ p₂ p₃ t₁ t₂ t₃ newState output outputs
      hcontext hwork hzero hacc hmerge htotal hreport hp₁ hp₂ hp₃ ht₁ ht₂ ht₃ hupdate =>
    have hwork := eventually_forall₂ (hwork.imp fun d o ho => h.work.eval ho)
    have hacc' : f.accumulate.payload = parts.accumulate := by rw [h.accumulate.block]
    have hmerge' : f.merge.payload = parts.merge := by rw [h.merge.block]
    filter_upwards [h.prepare.eval hcontext, hwork, h.zero.eval hzero, hacc.eval, hmerge.eval,
      htotal.eval, h.report.eval hreport, h.bitwidth.eval hp₁, h.maxInput.eval hp₂,
      h.modulus.eval hp₃, h.update.eval hupdate] with n hcontext hwork hzero hacc hmerge htotal
      hreport hp₁ hp₂ hp₃ hupdate
    simp only [Eval.mapReduce, Traced.bind_ok, Traced.each_ok, Eval.ofExcept_ok, h.secureType,
      channelSum_ok, Eval.liftM_ok, Value.two_ok, Prod.exists, Traced.pure_ok, hacc', hmerge']
    have hout : List.Forall₂ (fun v o => Eval.clientOutput v = .ok o)
        (outputs.map fun o => .pair o.1 (.tuple [o.2.1, o.2.2.1, o.2.2.2])) outputs := by
      rw [List.forall₂_map_left_iff, List.forall₂_same]
      exact fun o _ => clientOutput_ok.mpr rfl
    exact ⟨context, hcontext, _, List.forall₂_map_right_iff.mpr hwork, outputs, hout, zero, hzero,
      accumulate, hacc, merge, hmerge, total, htotal, report, hreport, t₁, ⟨v₁, p₁, rfl, hp₁, ht₁⟩,
      t₂, ⟨v₂, p₂, rfl, hp₂, ht₂⟩, t₃, ⟨v₃, p₃, rfl, hp₃, ht₃⟩, _, hupdate, newState,
      output, rfl, rfl⟩

end Form.MapReduceChecked

end Protocols

namespace Form.MapReduceChecked

variable {parts : MapReduce Expr} {f : MapReduce Block} {S C D U v₁ v₂ v₃ A R X : Ty}

theorem accumulator (h : MapReduceChecked parts f S C D U v₁ v₂ v₃ A R X) : A.isPlaced = false := by
  have hzero := (Expr.leak?_unplaced.mp h.zero.sealed).2.unplaced
  rwa [h.zeroTy] at hzero

theorem accumulate_exact (h : MapReduceChecked parts f S C D U v₁ v₂ v₃ A R X) :
    parts.accumulate.ty = .func (.tuple [A, U]) A := by
  obtain ⟨A', hty, haccepts⟩ := h.accumulateTy
  rw [hty, Ty.eq_of_standsFor haccepts h.accumulator]

theorem merge_exact (h : MapReduceChecked parts f S C D U v₁ v₂ v₃ A R X) :
    parts.merge.ty = .func (.tuple [A, A]) A := by
  obtain ⟨A', hty, haccepts⟩ := h.mergeTy
  rw [hty, Ty.eq_of_standsFor haccepts h.accumulator]

end Form.MapReduceChecked

/-- Types are ordered by assignability, and related types mention the same tiers. A type without
tiers is related to itself only, so that accumulating and merging have exactly the accumulator's
type in every form that passes its check. -/
theorem Ty.accepts_orders :
    (∀ t : Ty, t.accepts t = true) ∧
    (∀ t u v : Ty, t.accepts u = true → u.accepts v = true → t.accepts v = true) ∧
    (∀ t u : Ty, t.accepts u = true → u.accepts t = true → t = u) ∧
    (∀ t u : Ty, t.accepts u = true → ∀ p, t.mentions p = u.mentions p) ∧
    (∀ t u : Ty, t.isPlaced = false ∨ u.isPlaced = false → (t.accepts u = true ↔ t = u)) ∧
    ∀ (parts : MapReduce Expr) (f : MapReduce Block), (Form.ofMapReduce parts).result = .ok f →
      ∃ a u, f.zero.signature = .thunk a ∧ f.accumulate.signature = .func (.tuple [a, u]) a ∧
        f.merge.signature = .func (.tuple [a, a]) a := by
  refine ⟨fun t => t.standsFor_self, ?_, ?_, ?_, ?_, ?_⟩
  · intro t u v htu huv
    exact standsFor_iff.mpr ((standsFor_iff.mp htu).trans (standsFor_iff.mp huv))
  · intro t u htu hut
    exact (standsFor_iff.mp htu).antisymm (standsFor_iff.mp hut)
  · intro t u htu p
    exact ((standsFor_iff.mp htu).mentions p).symm
  · intro t u hplaced
    constructor
    · intro htu
      have ht : t.isPlaced = false :=
        hplaced.elim id fun hu => (isPlaced_of_standsFor htu).symm.trans hu
      exact (eq_of_standsFor htu ht).symm
    · rintro rfl
      exact t.standsFor_self
  · intro parts f hf
    obtain ⟨_, _, _, u, _, _, _, a, _, _, h⟩ := Form.ofMapReduce_ok.mp hf
    refine ⟨a, u, ?_, ?_, ?_⟩
    · rw [h.zero.block, h.zeroTy]
    · rw [h.accumulate.block, h.accumulate_exact]
    · rw [h.merge.block, h.merge_exact]

/-- Parts that add up the participants' data, and replace the state by the total. -/
def totalling : MapReduce Expr :=
  let pair := Ty.tuple [.int32, .int32]
  let channels := Expr.mkTuple [.unit, .unit, .unit]
  let input := Ty.tuple [.int32, .tuple [.int32, channels.ty]]
  { prepare := .mkLambda "s" .int32 (.ref "s" .int32)
    work := .mkLambda "x" pair (.mkTuple [(Expr.ref "x" pair).field 0, channels])
    zero := .mkDelay (.int 0)
    accumulate := .builtin .add (.func pair .int32)
    merge := .builtin .add (.func pair .int32)
    report := .mkLambda "a" .int32 (.ref "a" .int32)
    bitwidth := .mkDelay .unit
    maxInput := .mkDelay .unit
    modulus := .mkDelay .unit
    update := .mkLambda "u" input
      (.mkTuple [((Expr.ref "u" input).field 1).field 0, (Expr.ref "u" input).field 0]) }

/-- A function that asks for one value per participant and returns one for all may stand for one
that does the reverse, in two steps or at once. -/
theorem Ty.accepts_orders_functions :
    (Ty.func (.place .int32 .participants true) (.atParticipants .int32)).accepts
        (.func (.atParticipants .int32) (.place .int32 .participants true)) = true ∧
      (Ty.func (.atParticipants .int32) (.place .int32 .participants true)).accepts
        (.func (.place .int32 .participants true) (.atParticipants .int32)) = false ∧
      ∃ f, (Form.ofMapReduce totalling).result = .ok f ∧ ∃ a u, f.zero.signature = .thunk a ∧
        f.accumulate.signature = .func (.tuple [a, u]) a ∧ f.merge.signature =
        .func (.tuple [a, a]) a := by
  obtain ⟨-, htrans, -, -, -, hexact⟩ := accepts_orders
  obtain ⟨f, hf⟩ : ∃ f, (Form.ofMapReduce totalling).result = .ok f :=
    except_isOk (by decide +kernel)
  refine ⟨?_, by decide, f, hf, hexact _ f hf⟩
  exact htrans _ (.func (.atParticipants .int32) (.atParticipants .int32)) _ (by decide) (by decide)

end TwoTier

import TwoTier.Proofs.Synthesis.Netlist

/-! # Every form has a round

The wiring of a form always ends, in a round that is well-typed and of the form's type. Two kinds of
form have to be left out: those that mention an intrinsic without calling it, and those that take
the state as if there were several.
-/

namespace TwoTier

namespace Synthesis

open Expr

variable {Γ : List (String × Ty)} {w : Wiring} {P : Expr → Prop} {state data e : Expr}

theorem project_ok {t : Ty} {ts : List Ty} {i : Nat} (he : w.Has Γ e (.tuple ts))
    (ht : ts[i]? = some t) :
    ∃ e', project e i = .ok e' ∧ w.Has Γ e' t := by
  have hselect : ∃ e', e.mkSelect i = .ok e' ∧ w.Has Γ e' t :=
    ⟨.select e i t, mkSelect_ok.mpr ⟨ts, t, he.2, ht, rfl⟩, scoped_select he.1 he.2 ht, rfl⟩
  unfold project
  split
  case h_1 es t' =>
    obtain rfl : t' = .tuple ts := he.2
    have hts : ts = es.map ty := Ty.tuple.inj (typed_tuple.mp he.1.typed).2
    subst hts
    rw [List.getElem?_map, Option.map_eq_some_iff] at ht
    obtain ⟨e', he', rfl⟩ := ht
    simp only [he']
    exact ⟨e', rfl, he.1.element (List.mem_of_getElem? he'), rfl⟩
  case h_2 => exact hselect

theorem Wiring.Has.pair {a b : Expr} {t u : Ty} (ha : w.Has Γ a t) (hb : w.Has Γ b u) :
    w.Has Γ (mkTuple [a, b]) (.tuple [t, u]) :=
  ⟨scoped_tuple (by simpa using ⟨ha.1, hb.1⟩), by simp [mkTuple, ha.2, hb.2]⟩

theorem distributeAggregate_builds {parts : DistributeAggregate Expr}
    {f : DistributeAggregate Block} {s t bI bO d aI aO x : Ty}
    (h : Form.DistributeAggregateChecked parts f s t bI bO d aI aO x)
    (hcalled : ∀ e ∈ parts.toList, e.intrinsicsCalled = true)
    (hs : parts.serverPrepare.ty = .func (.atCoordinator s) (.tuple [bI, t]))
    (hp : ∀ e, P e) (hw : Wired P Γ w) (hstate : w.Has Γ state (.atCoordinator s))
    (hdata : w.Has Γ data (.atParticipants d)) :
    Builds (distributeAggregate f state data) w fun e w' =>
      Wired P Γ w' ∧ w'.Has Γ e (.tuple [.atCoordinator s, x]) := by
  have typed : ∀ {e tier b}, Form.Part e tier b → e ∈ parts.toList → b.payload.Scoped [] :=
      fun hpart he =>
    hpart.payload ▸ .of_closed ⟨hpart.check, hcalled _ he⟩ (closed_of_leak? hpart.sealed)
  unfold distributeAggregate
  refine builds_bind (hw.splice hp (typed h.serverPrepare (by simp [DistributeAggregate.toList]))
    (h.serverPrepare.payload ▸ hs) hstate fun prepared w₁ hw₁ hg₁ h₁ => ?_)
  obtain ⟨sent, hsent, h₂⟩ := project_ok (i := 0) h₁ rfl
  obtain ⟨carried, hcarried, h₃⟩ := project_ok (i := 1) h₁ rfl
  refine builds_bind (builds_typed hsent (builds_bind (builds_typed hcarried ?_)))
  refine builds_bind (hw₁.splice hp (typed h.broadcast (by simp [DistributeAggregate.toList]))
    (h.broadcast.payload ▸ h.broadcastTy) h₂ fun received w₂ hw₂ hg₂ h₄ => ?_)
  refine builds_bind (hw₂.splice hp (typed h.clientWork (by simp [DistributeAggregate.toList]))
    (h.clientWork.payload ▸ h.clientWorkTy)
    ((hdata.mono (hg₁.trans hg₂)).pair h₄) fun values w₃ hw₃ hg₃ h₅ => ?_)
  refine builds_bind (hw₃.splice hp (typed h.aggregation (by simp [DistributeAggregate.toList]))
    (h.aggregation.payload ▸ h.aggregationTy)
    ((h₃.mono (hg₂.trans hg₃)).pair h₅) fun totals w₄ hw₄ hg₄ h₆ => ?_)
  exact hw₄.splice hp (typed h.serverResult (by simp [DistributeAggregate.toList]))
    (h.serverResult.payload ▸ h.serverResultTy) ((h₃.mono (hg₂.trans (hg₃.trans hg₄))).pair h₆)
    fun e w' hw' _ he => ⟨hw', he⟩

theorem close_ok {f : Form} {a b r : Ty} {wire : Expr → Expr → WiringM Expr}
    {Q : String → Expr → Wiring → Prop} (hsig : f.signature = .func (.tuple [a, b]) r)
    (hwire : ∀ x w, Wired P [(x, .tuple [a, b])] w → w.locals = [] →
      Builds (wire (.select (.ref x (.tuple [a, b])) 0 a) (.select (.ref x (.tuple [a, b])) 1 b)) w
      (Q x)) :
    ∃ x e w, close f wire = .ok (mkLambda x (.tuple [a, b]) (mkBlock w.locals e)) ∧ Q x e w := by
  obtain ⟨names, hnames⟩ :
      ∃ names, f.toList.foldl (fun (names : Names) b => names.reserveAll b.payload) {} = names :=
    ⟨_, rfl⟩
  have hstart : Wired P [((names.fresh "p").1, .tuple [a, b])] ⟨(names.fresh "p").2, [], none⟩ := {
    chain := trivial
    used := List.cons_subset.mpr ⟨(Names.mem_fresh rfl).mpr (.inl rfl), List.nil_subset _⟩
    kind := by simp
    nothing := by simp }
  obtain ⟨e, w, hrun, hq⟩ := hwire _ _ hstart rfl
  refine ⟨_, e, w, ?_, hq⟩
  have hbuild : (wire (.select (.ref (names.fresh "p").1 (.tuple [a, b])) 0 a) (.select (.ref
      (names.fresh "p").1 (.tuple [a, b])) 1 b) >>= fun e => pure ((names.fresh "p").1, e)).run
      ⟨(names.fresh "p").2, [], none⟩ = .ok (((names.fresh "p").1, e), w) := by
    rw [StateT.run_bind, hrun]
    rfl
  simp only [close, hsig, hnames]
  exact congrArg (· >>= _) hbuild

theorem Wired.netted {x : String} {t : Ty} (hw : Wired Gate [(x, t)] w) (hls : w.locals = []) :
    Netted [(x, t)] w [] :=
  ⟨hw, by simp [hls]⟩

theorem has_element {x : String} {ts : List Ty} {i : Nat} {t : Ty} (hls : w.locals = [])
    (ht : ts[i]? = some t) :
    w.Wire [(x, .tuple ts)] (.select (.ref x (.tuple ts)) i t) t := by
  refine ⟨⟨scoped_select (scoped_ref ?_) rfl ht, rfl⟩, .select⟩
  simp [hls, scope]

theorem Wired.round {x : String} {t r : Ty} (hw : Wired P [(x, t)] w) (he : w.Has [(x, t)] e r) :
    (mkLambda x t (mkBlock w.locals e)).Scoped [] ∧
    (mkLambda x t (mkBlock w.locals e)).ty = .func t r :=
  ⟨scoped_lambda (hw.chain.mkBlock he.1), by simp [mkLambda, he.2]⟩

end Synthesis

open Synthesis Expr

theorem Form.synthesize_ok {f : Form} {r : Expr} : f.synthesize.result = .ok r ↔
    close f (wire f) = .ok r ∧ r.ty = f.signature ∧ r.check = .ok () := by
  simp only [Form.synthesize, Traced.bind_ok, Traced.ofExcept_ok]
  constructor
  · rintro ⟨r', hclose, h⟩
    split at h
    case isTrue => exact absurd h Traced.fail_ok
    case isFalse hty =>
      simp only [Traced.bind_ok, Traced.ofExcept_ok, except_mapError_ok, Traced.pure_ok] at h
      obtain ⟨_, hcheck, _, -, rfl⟩ := h
      exact ⟨hclose, not_not.mp hty, hcheck⟩
  · rintro ⟨hclose, hty, hcheck⟩
    refine ⟨r, hclose, ?_⟩
    simp [hty, hcheck, Traced.bind_ok, Except.mapError]

def inputsType (s d : Ty) : Ty :=
  .tuple [.atCoordinator s, .atParticipants d]

theorem broadcast_round {parts : Broadcast Expr} {f : Broadcast Block} {s c d o : Ty}
    (h : Form.BroadcastChecked parts f s c d o)
    (hcalled : ∀ e ∈ parts.toList, e.intrinsicsCalled = true) :
    ∃ x e w sent, close (.broadcast f) (wire (.broadcast f)) =
    .ok (mkLambda x (inputsType s d) (mkBlock w.locals e)) ∧
      Netted [(x, inputsType s d)] w sent ∧ Sends [(x, inputsType s d)] w c sent ∧
      w.Wire [(x, inputsType s d)] e (.atParticipants o) := by
  obtain ⟨x, e, w, hclose, sent, h⟩ := close_ok (f := .broadcast f) h.signature fun x w hw hls =>
    broadcast_builds h hcalled (hw.netted hls) (has_element hls rfl) (has_element hls rfl)
  exact ⟨x, e, w, sent, hclose, h⟩

theorem mapReduce_round {parts : MapReduce Expr} {f : MapReduce Block} {s c d u v₁ v₂ v₃ a r x : Ty}
    (h : Form.MapReduceChecked parts f s c d u v₁ v₂ v₃ a r x)
    (hcalled : ∀ e ∈ parts.toList, e.intrinsicsCalled = true) :
    ∃ y w sent total sums₁ sums₂ sums₃ newState output, close (.mapReduce f) (wire (.mapReduce f)) =
        .ok (mkLambda y (inputsType s d) (mkBlock w.locals (mkTuple [newState, output]))) ∧
      MapReduceNet [(y, inputsType s d)] w parts s c u v₁ v₂ v₃ a r x sent total sums₁ sums₂ sums₃
      newState output := by
  obtain ⟨y, e, w, hclose, sent, total, sums₁, sums₂, sums₃, newState, output, hnet, rfl⟩ :=
    close_ok (f := .mapReduce f) h.signature fun x w hw hls =>
      mapReduce_builds h hcalled (hw.netted hls) (has_element hls rfl) (has_element hls rfl)
  exact ⟨y, w, sent, total, sums₁, sums₂, sums₃, newState, output, hclose, hnet⟩

/-- A form's round, if its parts call the intrinsics they mention and take the state as one
value. -/
theorem synthesize_well_typed {parts : Parts} {f : Form} (hf : (Form.ofParts parts).result = .ok f)
    (hcalled : ∀ e ∈ parts.toList, e.intrinsicsCalled = true)
    (hstate : ∀ p, parts = .distributeAggregate p →
      ∃ s r, p.serverPrepare.ty = .func (.atCoordinator s) r) :
    ∃ r, f.synthesize.result = .ok r ∧ r.check = .ok () ∧ r.ty = f.signature := by
  have finish : ∀ {r t}, close f (wire f) = .ok r → f.signature = t → r.Scoped [] ∧ r.ty = t →
      ∃ r, f.synthesize.result = .ok r ∧ r.check = .ok () ∧ r.ty = f.signature := by
    rintro r t hclose rfl ⟨hr, hty⟩
    exact ⟨r, Form.synthesize_ok.mpr ⟨hclose, hty, hr.typed.1⟩, hr.typed.1, hty⟩
  rcases Form.ofParts_ok hf with ⟨p, g, rfl, rfl, hg⟩ | ⟨p, g, rfl, rfl, hg⟩ | ⟨p, g, rfl, rfl, hg⟩
  · obtain ⟨s, c, d, u, v₁, v₂, v₃, a, r, x, h⟩ := Form.ofMapReduce_ok.mp hg
    obtain ⟨y, w, sent, total, sums₁, sums₂, sums₃, newState, output, hclose, hnet⟩ :=
      mapReduce_round h hcalled
    exact finish hclose h.signature (hnet.net.round (hnet.newState.1.pair hnet.output.1))
  · obtain ⟨s, t, bI, bO, d, aI, aO, x, h⟩ := Form.ofDistributeAggregate_ok hg
    have hs : p.serverPrepare.ty = .func (.atCoordinator s) (.tuple [bI, t]) := by
      obtain ⟨flag, hs⟩ := h.serverPrepareTy
      obtain ⟨s', r, hs'⟩ := hstate p rfl
      obtain ⟨hplaced, -⟩ := Ty.func.inj (hs.symm.trans hs')
      obtain ⟨-, -, rfl⟩ := Ty.placed.inj hplaced
      exact hs
    obtain ⟨y, e, w, hclose, hw, he⟩ :=
        close_ok (f := .distributeAggregate g) h.signature fun x w hw hls =>
      distributeAggregate_builds (P := fun _ => True) h hcalled hs (fun _ => trivial) hw
        (has_element hls rfl).1 (has_element hls rfl).1
    exact finish hclose h.signature (hw.round he)
  · obtain ⟨s, c, d, o, h⟩ := Form.ofBroadcast_ok.mp hg
    obtain ⟨x, e, w, sent, hclose, hnet, -, he⟩ := broadcast_round h hcalled
    exact finish hclose h.signature (hnet.round he.1)

/-- Parts that sum up the participants' data, and do nothing with a state of this type. -/
def summing (state : Ty) : DistributeAggregate Expr :=
  let received := Ty.tuple [.atParticipants .int32, .empty]
  let values := Ty.tuple [.empty, .tuple [.atParticipants .int32]]
  let totals := Ty.tuple [.empty, .tuple [.atCoordinator .int32]]
  let operands := Expr.mkTuple [((Expr.ref "a" values).field 1).field 0, .int 100]
  let sum := Expr.call
    (.intrinsic "federated_secure_sum" (.func operands.ty (.atCoordinator .int32))) operands
    (.atCoordinator .int32)
  let total := ((Expr.ref "r" totals).field 1).field 0
  { serverPrepare := mkLambda "x" state
      (mkBlock [("y", mkTuple [.ref "x" state])] (mkTuple [unit, unit]))
    broadcast := mkLambda "b" .empty unit
    clientWork := mkLambda "c" received (mkTuple [(Expr.ref "c" received).field 0])
    aggregation := mkLambda "a" values (mkTuple [sum])
    serverResult := mkLambda "r" totals (mkTuple [total, total]) }

theorem synthesize_well_typed_summing :
    ∃ f, (Form.ofParts (.distributeAggregate (summing (.atCoordinator .int32)))).result = .ok f ∧
      ∃ r, f.synthesize.result = .ok r ∧ r.check = .ok () ∧ r.ty = f.signature := by
  obtain ⟨f, hf⟩ :
      ∃ f, (Form.ofParts (.distributeAggregate (summing (.atCoordinator .int32)))).result = .ok f :=
    except_isOk (by decide +kernel)
  refine ⟨f, hf, synthesize_well_typed hf (by decide) ?_⟩
  rintro p ⟨⟩
  exact ⟨.int32, _, rfl⟩

/-- Parts that process data by an intrinsic, without calling it on anything. -/
def unapplied : Broadcast Expr where
  context := mkLambda "s" .int32 unit
  processing := .intrinsic "federated_apply" (.func (.tuple [.empty, .int32]) .int32)

/-- A state that is not marked as equal for all makes a form without a round, and so does an
intrinsic that is mentioned only. -/
theorem synthesize_ill_typed : (∃ f, (Form.ofParts
    (.distributeAggregate (summing (.placed .int32 .coordinator false)))).result = .ok f ∧
      ∃ e, f.synthesize.result = .error e) ∧
    ∃ f, (Form.ofParts (.broadcast unapplied)).result = .ok f ∧ ∃ e, f.synthesize.result =
    .error e := by
  have fails : ∀ parts, (Form.ofParts parts).result.toOption.any
      (fun f => !f.synthesize.result.isOk) = true →
      ∃ f, (Form.ofParts parts).result = .ok f ∧ ∃ e, f.synthesize.result = .error e := by
    intro parts hparts
    obtain ⟨f, hf, hs⟩ := except_any hparts
    cases hr : f.synthesize.result with
    | ok r => simp [hr, Except.isOk, Except.toBool] at hs
    | error e => exact ⟨f, hf, e, hr⟩
  constructor
  · exact fails _ (by decide +kernel)
  · exact fails _ (by decide +kernel)

end TwoTier

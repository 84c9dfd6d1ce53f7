import TwoTier.Proofs.Synthesis.Values

/-! # Rounds mean what their forms mean

Every wire of a form's round carries the value that the form's protocol has at the same place, so
the round ends with the form's result. The blocks have to call the intrinsics that they mention, and
the participants' block needs a value of its own if there is nobody to call it.
-/

namespace TwoTier

open Filter

namespace Synthesis

open Expr

variable {s : Setting} {σ τ : Env} {w : Wiring} {state data : Expr} {st v : Value} {ds : List Value}

theorem eq_of_inhabits_empty (h : Inhabits s .empty v) : v = .tuple [] := by
  obtain ⟨_, _, rfl, -, rfl, -⟩ := h
  rfl

theorem inhabits_atServer {t : Ty} {e : Expr} {b : Bool}
    (h : Carries s w τ e (.placed t .coordinator b) (.atServer v)) :
    Inhabits s t v := by
  obtain ⟨u, -, hu⟩ := h.runs
  obtain ⟨_, _, ⟨⟩, rfl, hu⟩ := hu
  exact hu.left

theorem inhabits_atClients {t : Ty} {e : Expr} {b : Bool}
    (h : Carries s w τ e (.placed t .participants b) (.atClients ds)) :
    ds.length = s.participants ∧ ∀ d ∈ ds, Inhabits s t d := by
  obtain ⟨u, -, hu⟩ := h.runs
  obtain ⟨_, us, ⟨⟩, rfl, hlen, hu⟩ := hu
  exact ⟨hlen, List.forall₂_same.mp (forall₂_self hu fun _ _ h => h.left)⟩

theorem exists_runs_of_forall₂ {F : Expr} {g : Value → Value} {us : List Value}
    (h : List.Forall₂ (fun d u => Applies s F (some (g d)) u) ds us) (hds : ds ≠ []) :
    ∃ f, Runs s (.expr [] F) f := by
  cases h with
  | nil => exact absurd rfl hds
  | cons hu _ => exact hu.imp fun _ h => h.1

theorem ensures_send {slot base : String} {e : Expr} {context : Value} (hl : Live s σ w τ)
    (he : Carries s w τ e e.ty (.atServer context)) :
    Ensures s σ w τ (bind slot base (crossing .broadcast e)) fun e' w' τ' =>
      Carries s w' τ' e' e'.ty (.atClients (List.replicate s.participants context)) :=
  (ensures_gate hl he fun _ _ => runs_broadcast.mpr ⟨context, rfl, rfl⟩).mono fun _ _ _ h => h.2

theorem forall₂_zipWith_left {P : Value → Value → Prop} {c : Value} {us : List Value}
    (h : List.Forall₂ (fun d u => P (.pair c d) u) ds us) :
    List.Forall₂ P (List.zipWith .pair (List.replicate ds.length c) ds) us := by
  induction h with
  | nil => exact .nil
  | cons hu _ ih => exact .cons hu ih

theorem forall₂_zipWith_right {P : Value → Value → Prop} {c : Value} {us : List Value}
    (h : List.Forall₂ (fun d u => P (.pair d c) u) ds us) :
    List.Forall₂ P (List.zipWith .pair ds (List.replicate ds.length c)) us := by
  induction h with
  | nil => exact .nil
  | cons hu _ ih => exact .cons hu ih

section Broadcast

variable {parts : Broadcast Expr} {f : Broadcast Block} {S C D O : Ty}

theorem ensures_broadcast (h : Form.BroadcastChecked parts f S C D O)
    (hcalled : ∀ e ∈ parts.toList, e.intrinsicsCalled = true) (hl : Live s σ w τ)
    (hstate : Carries s w τ state state.ty (.atServer st)) (hstateTy : state.ty = .atCoordinator S)
    (hdata : Carries s w τ data data.ty (.atClients ds)) (hdataTy : data.ty = .atParticipants D)
    (hvalue : ds ≠ [] ∨ ∃ g, Runs s (.expr [] parts.processing) g) (hv : parts.Yields s st ds v) :
    Ensures s σ w τ (broadcast f state data) fun e w' τ' => Carries s w' τ' e e.ty v := by
  obtain ⟨context, us, rfl, hcontext, hus⟩ := hv
  have hc := (h.context.inert (hcalled _ (by simp [Broadcast.toList]))).typed
  have hp := (h.processing.inert (hcalled _ (by simp [Broadcast.toList]))).typed
  have hdataType : f.dataType = D := by
    simp [Broadcast.dataType, Block.paramElement, Block.paramOrEmpty,
      (h.processing.function h.processingTy).1, Ty.elementOrEmpty, Ty.elements?]
  have hinh : Inhabits s C context :=
    inhabits_of_applies hc h.contextTy (inhabits_atServer (hstateTy ▸ hstate)) hcontext
  unfold broadcast
  rw [(h.context.function h.contextTy).2, hdataType, h.context.payload, h.processing.payload]
  split
  case isTrue hempty =>
    obtain rfl := isEmpty_iff.mp hempty
    obtain rfl := eq_of_inhabits_empty hinh
    refine ensures_partially hp h.processingTy (fun τ a b hb hab => ?_)
      fun F hF => (ensures_map hl hF hdata hus).mono fun _ _ _ h => h.2
    have hunit : Runs s (.expr τ Expr.unit) (.tuple []) := runs_tuple.mpr ⟨[], .nil, rfl⟩
    exact ⟨_, runs_tuple.mpr ⟨_, .cons hunit (.cons (runs_ref.mpr hb) .nil), rfl⟩,
      similar_pair hinh hab⟩
  case isFalse hempty =>
    have hvalue : ∃ g, Runs s (.expr [] parts.processing) g :=
      hvalue.elim (exists_runs_of_forall₂ hus) id
    have hlen := (inhabits_atClients (hdataTy ▸ hdata)).1
    refine ensures_bind
      (ensures_apply hl (acts_closed hc h.contextTy (hcontext.imp fun _ h => h.1)) hstate hcontext)
      fun e₁ w₁ τ₁ hl₁ hk₁ he₁ => ?_
    refine ensures_bind (ensures_send hl₁ he₁.2) fun e₂ w₂ τ₂ hl₂ hk₂ he₂ => ?_
    refine ensures_bind (ensures_zipAtClients hl₂ he₂ (hdata.mono (hk₁.trans hk₂)) (by simp) hlen)
      fun e₃ w₃ τ₃ hl₃ hk₃ he₃ => ?_
    refine (ensures_map hl₃ (acts_closed hp h.processingTy hvalue) he₃ ?_).mono fun _ _ _ h => h.2
    rw [← hlen]
    exact forall₂_zipWith_left hus

end Broadcast

section MapReduce

variable {parts : MapReduce Expr} {f : MapReduce Block} {S C D U V₁ V₂ V₃ A R X : Ty}
  {outputs : Expr} {os : List (Value × Value × Value × Value)}

def output (o : Value × Value × Value × Value) : Value :=
  .pair o.1 (.tuple [o.2.1, o.2.2.1, o.2.2.2])

theorem ensures_clientOutputs {context : Value}
    (h : Form.MapReduceChecked parts f S C D U V₁ V₂ V₃ A R X)
    (hcalled : ∀ e ∈ parts.toList, e.intrinsicsCalled = true) (hl : Live s σ w τ)
    (hstate : Carries s w τ state state.ty (.atServer st)) (hstateTy : state.ty = .atCoordinator S)
    (hdata : Carries s w τ data data.ty (.atClients ds)) (hdataTy : data.ty = .atParticipants D)
    (hvalue : ds ≠ [] ∨ ∃ g, Runs s (.expr [] parts.work) g)
    (hcontext : Applies s parts.prepare (some st) context)
    (hos : List.Forall₂
      (fun d o => Applies s parts.work (some (.pair d context)) (output o)) ds os) :
    Ensures s σ w τ (clientOutputs f state data) fun e w' τ' =>
      e.ty = .atParticipants (.tuple [U, .tuple [V₁, V₂, V₃]]) ∧
          Carries s w' τ' e e.ty (.atClients (os.map output)) := by
  have hp := (h.prepare.inert (hcalled _ (by simp [MapReduce.toList]))).typed
  have hw := (h.work.inert (hcalled _ (by simp [MapReduce.toList]))).typed
  have hcontextType : f.contextType = C := (h.prepare.function h.prepareTy).2
  have hdataType : f.dataType = D := by
    simp [MapReduce.dataType, Block.paramElement, Block.paramOrEmpty, (h.work.function h.workTy).1,
      Ty.elementOrEmpty, Ty.elements?]
  have hinh : Inhabits s C context :=
    inhabits_of_applies hp h.prepareTy (inhabits_atServer (hstateTy ▸ hstate)) hcontext
  have hos := List.forall₂_map_right_iff.mpr hos
  unfold clientOutputs
  rw [hcontextType, hdataType, h.prepare.payload, h.work.payload]
  split
  case isTrue hempty =>
    obtain rfl := isEmpty_iff.mp hempty
    obtain rfl := eq_of_inhabits_empty hinh
    refine ensures_partially hw h.workTy (fun τ a b hb hab => ?_)
      fun F hF => ensures_map hl hF hdata hos
    have hunit : Runs s (.expr τ Expr.unit) (.tuple []) := runs_tuple.mpr ⟨[], .nil, rfl⟩
    exact ⟨_, runs_tuple.mpr ⟨_, .cons (runs_ref.mpr hb) (.cons hunit .nil), rfl⟩,
      similar_pair hab hinh⟩
  case isFalse hempty =>
    have hvalue : ∃ g, Runs s (.expr [] parts.work) g := hvalue.elim (exists_runs_of_forall₂ hos) id
    have hlen := (inhabits_atClients (hdataTy ▸ hdata)).1
    refine ensures_bind
      (ensures_apply hl (acts_closed hp h.prepareTy (hcontext.imp fun _ h => h.1)) hstate hcontext)
      fun e₁ w₁ τ₁ hl₁ hk₁ he₁ => ?_
    refine ensures_bind (ensures_send hl₁ he₁.2) fun e₂ w₂ τ₂ hl₂ hk₂ he₂ => ?_
    refine ensures_bind (ensures_zipAtClients hl₂ (hdata.mono (hk₁.trans hk₂)) he₂ hlen (by simp))
      fun e₃ w₃ τ₃ hl₃ hk₃ he₃ => ?_
    refine ensures_map hl₃ (acts_closed hw h.workTy hvalue) he₃ ?_
    rw [← hlen]
    exact forall₂_zipWith_right hos

theorem forall₂_along {path : List Nat} {g : Value × Value × Value × Value → Value}
    (h : ∀ o, Along path (output o) (g o)) :
    List.Forall₂ (Along path) (os.map output) (os.map g) := by
  rw [List.forall₂_map_left_iff, List.forall₂_map_right_iff, List.forall₂_same]
  exact fun o _ => h o

theorem inhabits_output {o : Value × Value × Value × Value}
    (h : Inhabits s (.tuple [U, .tuple [V₁, V₂, V₃]]) (output o)) :
    Inhabits s U o.1 ∧ Inhabits s (.tuple [V₁, V₂, V₃]) (.tuple [o.2.1, o.2.2.1, o.2.2.2]) := by
  obtain ⟨_, _, _, _, h₁, h₂, hU, hV⟩ := h.pair
  cases h₁
  cases h₂
  exact ⟨hU, hV⟩

theorem inhabits_of_runs {e : Expr} (he : e.Scoped []) (hv : Runs s (.expr [] e) v) :
    Inhabits s e.ty v := by
  obtain ⟨u, -, h⟩ := he.typed.mimics (τ := []) (fun z v hz => absurd hz he.closed) v hv
  exact h.left

theorem ensures_plainTotal {zero accumulate merge total report : Value}
    (h : Form.MapReduceChecked parts f S C D U V₁ V₂ V₃ A R X)
    (hcalled : ∀ e ∈ parts.toList, e.intrinsicsCalled = true) (hl : Live s σ w τ)
    (houtputs : Carries s w τ outputs outputs.ty (.atClients (os.map output)))
    (houtputsTy : outputs.ty = .atParticipants (.tuple [U, .tuple [V₁, V₂, V₃]]))
    (hzero : Applies s parts.zero none zero)
    (haccumulate : Runs s (.expr [] parts.accumulate) accumulate)
    (hmerge : Runs s (.expr [] parts.merge) merge)
    (htotal : TwoTier.Aggregates s (os.map fun o => o.1) zero accumulate merge total)
    (hreport : Applies s parts.report (some total) report) :
    Ensures s σ w τ (plainTotal f outputs) fun e w' τ' =>
    Carries s w' τ' e e.ty (.atServer report) := by
  have hz := h.zero.inert (hcalled _ (by simp [MapReduce.toList]))
  have ha := (h.accumulate.inert (hcalled _ (by simp [MapReduce.toList]))).typed
  have hm := (h.merge.inert (hcalled _ (by simp [MapReduce.toList]))).typed
  have hr := (h.report.inert (hcalled _ (by simp [MapReduce.toList]))).typed
  have hreportType : f.reportType = R := (h.report.function h.reportTy).2
  have haccumulatorType : f.accumulatorType = A := h.zero.value h.zeroTy
  obtain ⟨z, hzok, hzinert, hzty⟩ := constant_ok (h.zero.payload ▸ hz) (h.zero.payload ▸ h.zeroTy)
  have hzrun : Runs s (.expr [] z) zero := constant_runs hzok (h.zero.payload.symm ▸ hzero)
  unfold plainTotal
  rw [hreportType, haccumulatorType, h.accumulate.payload, h.merge.payload, h.report.payload,
    (h.work.function h.workTy).2]
  split
  case isTrue hempty =>
    simp only [Bool.and_eq_true, isEmpty_iff] at hempty
    obtain ⟨rfl, rfl⟩ := hempty
    have hus : ∀ u ∈ os.map fun o => o.1, Inhabits s U u := by
      intro u hu
      obtain ⟨o, ho, rfl⟩ := List.mem_map.mp hu
      exact (inhabits_output
        ((inhabits_atClients (houtputsTy ▸ houtputs)).2 _ (List.mem_map_of_mem ho))).1
    obtain ⟨_, -, hinh⟩ := htotal.similar (List.forall₂_same.mpr hus) (hzty ▸
      inhabits_of_runs hzinert.typed hzrun) (h.accumulate_exact ▸ inhabits_of_runs ha haccumulate)
      (h.merge_exact ▸ inhabits_of_runs hm hmerge)
    obtain rfl := eq_of_inhabits_empty (inhabits_of_applies hr h.reportTy hinh.left hreport)
    exact ensures_nothing hl
  case isFalse hempty =>
    have hwork := h.work.inert (hcalled _ (by simp [MapReduce.toList]))
    obtain ⟨F, hsel, -, -⟩ :=
      selector_ok [0] (Ty.isPlaced_func.mp (h.workTy ▸ hwork.bare.unplaced)).2 ⟨_, _, rfl, rfl, rfl⟩
    rw [hsel]
    obtain ⟨g, hg, hreport⟩ := hreport
    refine ensures_bind (ensures_map hl (acts_selector hsel ⟨_, _, rfl, rfl, rfl⟩) houtputs
      (forall₂_along (g := fun o => o.1) fun o => ⟨_, _, rfl, rfl, rfl⟩))
      fun e₁ w₁ τ₁ hl₁ hk₁ he₁ => ?_
    refine ensures_typed fun z' hz' => ?_
    cases hz'.symm.trans hzok
    have hoperands := carries_mkTuple (.cons he₁.2
      (.cons (carries_closed hzinert.typed hzrun) (.cons (carries_closed ha haccumulate)
      (.cons (carries_closed hm hmerge) (.cons (carries_closed hr hg) .nil)))))
    refine (ensures_gate hl₁ hoperands fun r _ => ?_).mono fun _ _ _ h => h.2
    exact runs_aggregate.mpr ⟨_, zero, accumulate, merge, g, total, report, rfl, rfl,
      htotal, hreport⟩

theorem held_of_inhabits {p : Ty} (h : Inhabits s p v) (hp : p.isInteger = true) : v.held = v := by
  cases p with
  | scalar k =>
    have h := h.2
    cases v <;> simp_all [Value.isScalar, Value.held]
  | tuple ts =>
    obtain ⟨_, _, rfl, -, -⟩ := h
    rfl
  | _ => simp [Ty.isInteger] at hp

theorem ensures_secureTotal {channel : Nat} {op : Crossing} {base slot : String} {parameter : Block}
    {e : Expr} {V : Ty} {get : Value × Value × Value × Value → Value} {p total : Value}
    (h : Form.MapReduceChecked parts f S C D U V₁ V₂ V₃ A R X)
    (hcalled : ∀ e ∈ parts.toList, e.intrinsicsCalled = true)
    (hop : op.secureChannel?.isSome = true) (hV : [V₁, V₂, V₃][channel]? = some V)
    (hint : V.isInteger = true) (hget : ∀ o, Along [1, channel] (output o) (get o))
    (hpart : Form.Part e .unplaced parameter) (he : e ∈ parts.toList)
    (hty : ∃ p, e.ty = .thunk p ∧ p.isInteger = true)
    (hl : Live s σ w τ) (houtputs : Carries s w τ outputs outputs.ty (.atClients (os.map output)))
    (houtputsTy : outputs.ty = .atParticipants (.tuple [U, .tuple [V₁, V₂, V₃]]))
    (hp : Applies s e none p) (htotal : Value.secureSum op V (os.map get) p = .ok total) :
    Ensures s σ w τ (secureTotal f outputs channel op base slot parameter) fun e' w' τ' =>
      Carries s w' τ' e' e'.ty (.atServer total) := by
  have hworkOut := (h.work.function h.workTy).2
  have hchannel : f.secureType.elementOrEmpty channel = V := by
    simp [MapReduce.secureType, Block.resultElement, hworkOut, Ty.elementOrEmpty, Ty.elements?, hV]
  have hus : ∀ u ∈ os.map get, Inhabits s V u := by
    intro u hu
    obtain ⟨o, ho, rfl⟩ := List.mem_map.mp hu
    obtain ⟨-, hsecure⟩ :=
      inhabits_output ((inhabits_atClients (houtputsTy ▸ houtputs)).2 _ (List.mem_map_of_mem ho))
    obtain ⟨_, _, ⟨⟩, ha, _, _, ⟨⟩, hb, rfl⟩ := hget o
    cases ha
    obtain ⟨_, _, ⟨⟩, hb', hinh⟩ := hsecure.element hV hb
    cases hb.symm.trans hb'
    exact hinh
  unfold secureTotal
  rw [hchannel, hworkOut]
  split
  case isTrue hempty =>
    obtain rfl := isEmpty_iff.mp hempty
    obtain rfl := eq_of_inhabits_empty (inhabits_secureSum hint hus htotal)
    exact ensures_nothing hl
  case isFalse hempty =>
    have hwork := h.work.inert (hcalled _ (by simp [MapReduce.toList]))
    have hpath : Leads (.tuple [U, .tuple [V₁, V₂, V₃]]) [1, channel] V :=
      ⟨_, _, rfl, rfl, _, V, rfl, hV, rfl⟩
    obtain ⟨F, hsel, -, -⟩ :=
      selector_ok [1, channel] (Ty.isPlaced_func.mp (h.workTy ▸ hwork.bare.unplaced)).2 hpath
    obtain ⟨q, hq, hqint⟩ := hty
    obtain ⟨a, ha, hainert, rfl⟩ :=
      constant_ok (hpart.payload ▸ hpart.inert (hcalled e he)) (hpart.payload ▸ hq)
    have harun : Runs s (.expr [] a) p := constant_runs ha (hpart.payload.symm ▸ hp)
    rw [hsel]
    refine ensures_bind (ensures_map hl (acts_selector hsel hpath) houtputs (forall₂_along hget))
      fun e₁ w₁ τ₁ hl₁ hk₁ he₁ => ?_
    refine ensures_typed fun a' ha' => ?_
    cases ha'.symm.trans ha
    have hoperands :=
      carries_mkTuple (.cons he₁.2 (.cons (carries_closed hainert.typed harun) .nil))
    refine (ensures_gate hl₁ hoperands fun r hr => ?_).mono fun _ _ _ h => h.2
    have hr' := secureSum_resultType hop hint hqint hainert.bare.unplaced
    rw [mkTuple, ty_tuple, List.map_cons, List.map_cons, he₁.1, List.map_nil, hr'] at hr
    cases hr
    refine (runs_secureSum hop).mpr ⟨_, p, V, total, rfl, rfl, ?_, rfl⟩
    rw [held_of_inhabits (inhabits_of_runs hainert.typed harun) hqint, htotal]

theorem ensures_mapReduce (h : Form.MapReduceChecked parts f S C D U V₁ V₂ V₃ A R X)
    (hcalled : ∀ e ∈ parts.toList, e.intrinsicsCalled = true) (hl : Live s σ w τ)
    (hstate : Carries s w τ state state.ty (.atServer st)) (hstateTy : state.ty = .atCoordinator S)
    (hdata : Carries s w τ data data.ty (.atClients ds)) (hdataTy : data.ty = .atParticipants D)
    (hvalue : ds ≠ [] ∨ ∃ g, Runs s (.expr [] parts.work) g)
    (hv : parts.Yields s V₁ V₂ V₃ st ds v) :
    Ensures s σ w τ (mapReduce f state data) fun e w' τ' => Carries s w' τ' e e.ty v := by
  obtain ⟨hcontext, hos, hzero, hacc, hmerge, htotal, hreport, hp₁, hp₂, hp₃, ht₁, ht₂, ht₃,
    hupdate⟩ := hv
  have hup := h.update.inert (hcalled _ (by simp [MapReduce.toList]))
  have hupdateOut := (Ty.isPlaced_func.mp (h.updateTy ▸ hup.bare.unplaced)).2
  unfold mapReduce
  refine ensures_bind
    (ensures_clientOutputs h hcalled hl hstate hstateTy hdata hdataTy hvalue hcontext hos)
    fun outputs w₁ τ₁ hl₁ hk₁ ho => ?_
  refine ensures_bind (ensures_plainTotal h hcalled hl₁ ho.2 ho.1 hzero hacc hmerge htotal hreport)
    fun aggregate w₂ τ₂ hl₂ hk₂ haggregate => ?_
  refine ensures_bind (ensures_secureTotal h hcalled rfl rfl h.channels.1 (fun o =>
    ⟨_, _, rfl, rfl, _, _, rfl, rfl, rfl⟩) h.bitwidth (by simp [MapReduce.toList]) h.bitwidthTy hl₂
    (ho.2.mono hk₂) ho.1 hp₁ ht₁) fun a w₃ τ₃ hl₃ hk₃ ha => ?_
  refine ensures_bind (ensures_secureTotal h hcalled rfl rfl h.channels.2.1 (fun o =>
    ⟨_, _, rfl, rfl, _, _, rfl, rfl, rfl⟩) h.maxInput (by simp [MapReduce.toList]) h.maxInputTy hl₃
    (ho.2.mono (hk₂.trans hk₃)) ho.1 hp₂ ht₂) fun b w₄ τ₄ hl₄ hk₄ hb => ?_
  refine ensures_bind (ensures_secureTotal h hcalled rfl rfl h.channels.2.2 (fun o =>
    ⟨_, _, rfl, rfl, _, _, rfl, rfl, rfl⟩) h.modulus (by simp [MapReduce.toList]) h.modulusTy hl₄
    (ho.2.mono (hk₂.trans (hk₃.trans hk₄))) ho.1 hp₃ ht₃) fun c w₅ τ₅ hl₅ hk₅ hc => ?_
  refine ensures_bind (ensures_zipAtServer hl₅ (.cons (ha.mono (hk₄.trans hk₅))
    (.cons (hb.mono hk₅) (.cons hc .nil)))) fun secure w₆ τ₆ hl₆ hk₆ hsecure => ?_
  have hlate : Keeps w₂ τ₂ w₆ τ₆ := hk₃.trans (hk₄.trans (hk₅.trans hk₆))
  refine ensures_bind (ensures_zipAtServer hl₆ (.cons (haggregate.mono hlate) (.cons hsecure .nil)))
    fun global w₇ τ₇ hl₇ hk₇ hglobal => ?_
  refine ensures_bind (ensures_zipAtServer hl₇
    (.cons (hstate.mono (hk₁.trans (hk₂.trans (hlate.trans hk₇)))) (.cons hglobal .nil)))
    fun input w₈ τ₈ hl₈ hk₈ hinput => ?_
  rw [h.update.payload, (h.update.function h.updateTy).2]
  refine ensures_bind (ensures_apply hl₈
    (acts_closed hup.typed h.updateTy (hupdate.imp fun _ h => h.1)) hinput hupdate)
    fun updated w₉ τ₉ hl₉ hk₉ hupdated => ?_
  obtain ⟨F, hsel, -, -⟩ := selector_ok [0] hupdateOut ⟨_, _, rfl, rfl, rfl⟩
  obtain ⟨G, hsel', -, -⟩ := selector_ok [1] hupdateOut ⟨_, _, rfl, rfl, rfl⟩
  rw [hsel, hsel']
  refine ensures_bind (ensures_apply hl₉ (acts_selector hsel ⟨_, _, rfl, rfl, rfl⟩) hupdated.2
    ⟨_, _, rfl, rfl, rfl⟩) fun newState w₁₀ τ₁₀ hl₁₀ hk₁₀ hnewState => ?_
  refine ensures_bind (ensures_apply hl₁₀ (acts_selector hsel' ⟨_, _, rfl, rfl, rfl⟩)
    (hupdated.2.mono hk₁₀) ⟨_, _, rfl, rfl, rfl⟩) fun output w' τ' hl' hk' houtput => ?_
  exact ensures_pure hl' (carries_mkTuple (.cons (hnewState.2.mono hk') (.cons houtput.2 .nil)))

end MapReduce

theorem ensures_distributeAggregate
    {parts : DistributeAggregate Expr} {f : DistributeAggregate Block}
    {S T B B' D A A' X : Ty} (h : Form.DistributeAggregateChecked parts f S T B B' D A A' X)
    (hcalled : ∀ e ∈ parts.toList, e.intrinsicsCalled = true) (hl : Live s σ w τ)
    (hstate : ∀ b, Carries s w τ state (.placed S .coordinator b) (.atServer st))
    (hdata : Carries s w τ data (.atParticipants D) (.atClients ds)) (hv : parts.Yields s st ds v) :
    Ensures s σ w τ (distributeAggregate f state data) fun e w' τ' =>
    ∃ t, Carries s w' τ' e t v := by
  have typed : ∀ {e tier b}, Form.Part e tier b → e ∈ parts.toList → e.Scoped [] := fun hpart he =>
    .of_closed ⟨hpart.check, hcalled _ he⟩ (closed_of_leak? hpart.sealed)
  obtain ⟨sent, carried, received, values, aggregates, hprepare, hbroadcast, hwork, haggregation,
    hresult⟩ := hv
  obtain ⟨b, hprepareTy⟩ := h.serverPrepareTy
  have hst : Inhabits s (.placed S .coordinator b) (.atServer st) :=
    ⟨st, st, rfl, rfl, inhabits_atServer (hstate b)⟩
  have hds : Inhabits s (.atParticipants D) (.atClients ds) := by
    obtain ⟨hlen, hinh⟩ := inhabits_atClients hdata
    exact ⟨ds, ds, rfl, rfl, hlen, List.forall₂_same.mpr hinh⟩
  unfold distributeAggregate
  rw [h.serverPrepare.payload, h.broadcast.payload, h.clientWork.payload, h.aggregation.payload,
    h.serverResult.payload]
  refine ensures_bind
    (ensures_splice hl (typed h.serverPrepare (by simp [DistributeAggregate.toList])) hprepareTy hst
    (hstate b) hprepare) fun prepared w₁ τ₁ hl₁ hk₁ h₁ => ?_
  obtain ⟨_, _, _, _, hpair, -, hsentTy, hcarriedTy⟩ := h₁.1.pair
  cases hpair
  refine ensures_typed fun sentE hsentE => ensures_typed fun carriedE hcarriedE => ?_
  have hsent := carries_project h₁.2 rfl rfl hsentE
  have hcarried := carries_project h₁.2 rfl rfl hcarriedE
  refine ensures_bind (ensures_splice hl₁ (typed h.broadcast (by simp [DistributeAggregate.toList]))
    h.broadcastTy hsentTy.left hsent hbroadcast) fun receivedE w₂ τ₂ hl₂ hk₂ h₂ => ?_
  refine ensures_bind
    (ensures_splice hl₂ (typed h.clientWork (by simp [DistributeAggregate.toList])) h.clientWorkTy
    (similar_pair hds h₂.1) (carries_pair (hdata.mono (hk₁.trans hk₂)) h₂.2) hwork)
    fun valuesE w₃ τ₃ hl₃ hk₃ h₃ => ?_
  refine ensures_bind (ensures_splice hl₃ (typed h.aggregation
    (by simp [DistributeAggregate.toList])) h.aggregationTy (similar_pair hcarriedTy.left h₃.1)
    (carries_pair (hcarried.mono (hk₂.trans hk₃)) h₃.2) haggregation)
    fun totalsE w₄ τ₄ hl₄ hk₄ h₄ => ?_
  exact (ensures_splice hl₄ (typed h.serverResult (by simp [DistributeAggregate.toList]))
    h.serverResultTy (similar_pair hcarriedTy.left h₄.1) (carries_pair
    (hcarried.mono (hk₂.trans (hk₃.trans hk₄))) h₄.2) hresult).mono fun _ _ _ h => ⟨_, h.2⟩

theorem carries_element {x : String} {t t' u : Ty} {i : Nat} {vs : List Value}
    (hx : x ∈ w.names.used) (hτ : τ.lookup x = some (.tuple vs)) (hi : vs[i]? = some v)
    (hv : Inhabits s u v) :
    Carries s w τ (.select (.ref x t) i t') u v := by
  refine carries_of_runs (by simp) (fun n hn => ?_) fun τ' hτ' => ⟨v, ?_, hv⟩
  · obtain rfl := refers_ref.mp (refers_select.mp hn)
    exact hx
  · exact runs_select.mpr ⟨vs, runs_ref.mpr ((hτ' x (by simp)).trans hτ), hi⟩

/-- A round whose wires carry the form's result evaluates to it. -/
theorem applies_of_close {f : Form} {r : Expr} {S D R : Ty} {wire : Expr → Expr → WiringM Expr}
    (hr : close f wire = .ok r) (hsig : f.signature = roundType S D R) (hstate : Inhabits s S st)
    (hdata : ∀ d ∈ ds, Inhabits s D d) (hlen : ds.length = s.participants) (hv : v.isData = true)
    (hwire : ∀ σ w τ state data, Live s σ w τ → state.ty = .atCoordinator S →
      data.ty = .atParticipants D →
      (∀ b, Carries s w τ state (.placed S .coordinator b) (.atServer st)) →
      Carries s w τ data (.atParticipants D) (.atClients ds) →
      Ensures s σ w τ (wire state data) fun e w' τ' => ∃ t, Carries s w' τ' e t v) :
    Applies s r (some (.tuple [.atServer st, .atClients ds])) v := by
  obtain ⟨names, hnames⟩ :
      ∃ names, f.toList.foldl (fun (names : Names) b => names.reserveAll b.payload) {} = names :=
    ⟨_, rfl⟩
  simp only [close, hsig, roundType, hnames] at hr
  obtain ⟨⟨⟨x, e⟩, w⟩, hbuild, hr⟩ := except_bind_ok.mp hr
  cases hr
  let x₀ := (names.fresh "p").1
  let w₀ : Wiring := ⟨(names.fresh "p").2, [], none⟩
  let τ₀ : Env := [(x₀, .tuple [.atServer st, .atClients ds])]
  have hx₀ : x₀ ∈ w₀.names.used := (Names.mem_fresh rfl).mpr (.inl rfl)
  have hτ₀ : τ₀.lookup x₀ = some (.tuple [.atServer st, .atClients ds]) := by simp [τ₀]
  have hstart : Live s τ₀ w₀ τ₀ := ⟨rfl, by simp [w₀]⟩
  let t := Ty.tuple [.atCoordinator S, .atParticipants D]
  have hrun : (wire (.select (.ref x₀ t) 0 (.atCoordinator S)) (.select (.ref x₀ t) 1
      (.atParticipants D)) >>= fun e => pure (x₀, e)).run w₀ = .ok ((x, e), w) := hbuild
  rw [StateT.run_bind, except_bind_ok] at hrun
  obtain ⟨⟨e', w'⟩, hrun, hpure⟩ := hrun
  obtain ⟨hresult, rfl⟩ := Prod.mk.inj (Except.ok.inj hpure)
  obtain ⟨rfl, rfl⟩ := Prod.mk.inj hresult
  obtain ⟨τ, hl, -, u, hcarries⟩ := hwire τ₀ w₀ τ₀ _ _ hstart rfl rfl
    (fun b => carries_element hx₀ hτ₀ rfl ⟨st, st, rfl, rfl, hstate⟩)
    (carries_element hx₀ hτ₀ rfl ⟨ds, ds, rfl, rfl, hlen, List.forall₂_same.mpr hdata⟩) e' w' hrun
  obtain ⟨v', hv', hsim⟩ := hcarries.runs
  obtain rfl := hsim.eq_of_isData hv
  exact applies_lambda.mpr (runs_mkBlock.mpr ⟨τ, hl.binds, hv'⟩)

end Synthesis

theorem roundType_inj {S S' D D' R R' : Ty} (h : roundType S D R = roundType S' D' R') :
    S = S' ∧ D = D' := by
  simp only [roundType, Ty.place, Ty.func.injEq, Ty.tuple.injEq, List.cons.injEq,
    Ty.placed.injEq] at h
  exact ⟨h.1.1.1, h.1.2.1.1⟩

/-- The blocks that a round calls once for each participant, and evaluates also if there are
none. -/
def Parts.perParticipant : Parts → List Expr
  | .mapReduce parts => [parts.work]
  | .distributeAggregate _ => []
  | .broadcast parts => [parts.processing]

/-- Synthesis preserves meaning, for parts that call the intrinsics they mention. If nobody
participates, the block of the participants has to have a value by itself. -/
theorem synthesize_preserves {parts : Parts} {f : Form} {r : Expr} {S D R : Ty} {n g : Nat}
    {state v : Value} {data : List Value} (hf : (Form.ofParts parts).result = .ok f)
    (hcalled : ∀ e ∈ parts.toList, e.intrinsicsCalled = true) (hr : f.synthesize.result = .ok r)
    (hty : f.signature = roundType S D R)
    (hstate : Inhabits { participants := data.length, groupSize := g } S state)
    (hdata : ∀ d ∈ data, Inhabits { participants := data.length, groupSize := g } D d)
    (hvalue : data ≠ [] ∨ ∀ e ∈ parts.perParticipant,
      ∃ m u, (Eval.expr { participants := data.length, groupSize := g } m [] e).result = .ok u)
    (hv : (Eval.form n g f state data).result = .ok v) (hdata' : v.isData = true) :
    ∃ m₀, ∀ m ≥ m₀, (Eval.round m g r state data).result = .ok v := by
  obtain ⟨hclose, -⟩ := Form.synthesize_ok.mp hr
  have hruns : data ≠ [] ∨ ∀ e ∈ parts.perParticipant, ∃ u,
      Runs { participants := data.length, groupSize := g } (.expr [] e) u :=
    hvalue.imp_right fun h e he =>
      (h e he).elim fun m hm => hm.imp fun u hu => (runs_of_eval m).1 hu
  refine eventually_atTop.mp
    (Synthesis.applies_of_close hclose hty hstate hdata rfl hdata' ?_).round
  rintro σ w τ stateE dataE hl hstateTy hdataTy hstateC hdataC
  rcases Form.ofParts_ok hf with ⟨p, f, rfl, rfl, hp⟩ | ⟨p, f, rfl, rfl, hp⟩ | ⟨p, f, rfl, rfl, hp⟩
  · obtain ⟨S', C, D', U, V₁, V₂, V₃, A, R', X, h⟩ := Form.ofMapReduce_ok.mp hp
    obtain ⟨rfl, rfl⟩ := roundType_inj (h.signature.symm.trans hty)
    exact (Synthesis.ensures_mapReduce h hcalled hl (hstateTy ▸ hstateC true) hstateTy
      (hdataTy ▸ hdataC) hdataTy (hruns.imp_right fun h => h _ (by simp [Parts.perParticipant]))
      (h.yields_of_eval hv)).mono fun _ _ _ h => ⟨_, h⟩
  · obtain ⟨S', T, B, B', D', A, A', X, h⟩ := Form.ofDistributeAggregate_ok hp
    obtain ⟨rfl, rfl⟩ := roundType_inj (h.signature.symm.trans hty)
    exact Synthesis.ensures_distributeAggregate h hcalled hl hstateC hdataC (h.yields_of_eval hv)
  · obtain ⟨S', C, D', O, h⟩ := Form.ofBroadcast_ok.mp hp
    obtain ⟨rfl, rfl⟩ := roundType_inj (h.signature.symm.trans hty)
    exact (Synthesis.ensures_broadcast h hcalled hl (hstateTy ▸ hstateC true) hstateTy
      (hdataTy ▸ hdataC) hdataTy (hruns.imp_right fun h => h _ (by simp [Parts.perParticipant]))
      (h.yields_of_eval hv)).mono fun _ _ _ h => ⟨_, h⟩

theorem synthesize_preserves_summing : ∃ f r,
    (Form.ofParts (.distributeAggregate (summing (.atCoordinator .int32)))).result = .ok f ∧
      f.synthesize.result = .ok r ∧
      ∃ m₀, ∀ m ≥ m₀, (Eval.round m 2 r (.int 1) [.int 2, .int 3]).result =
        .ok (.pair (.atServer (.int 5)) (.atServer (.int 5))) := by
  have hint (n : Int) : Inhabits { participants := 2, groupSize := 2 } .int32 (.int n) :=
    inhabits_int.mpr ⟨n, rfl⟩
  have hf :
    (Form.ofParts (.distributeAggregate (summing (.atCoordinator .int32)))).result = .ok _ := rfl
  exact ⟨_, _, hf, rfl, synthesize_preserves (S := .int32) (D := .int32) (n := 20) hf
    (by decide) rfl rfl (hint 1) (by simp [hint]) (.inl (by decide)) rfl (by decide)⟩

/-- Parts that process data by a function, which is there only after a sum that is too large. -/
def overflowing : Broadcast Expr :=
  let pair := Ty.tuple [.int32, .int32]
  let sum := Expr.call (.builtin .add (.func pair .int32))
    (.mkTuple [.int 9223372036854775807, .int 1]) .int32
  { context := .mkLambda "s" .int32 (.ref "s" .int32)
    processing := .mkBlock [("z", sum)] (.mkLambda "a" pair ((Expr.ref "a" pair).field 0)) }

/-- Parts whose context is a value of the coordinator, under a type that does not say so. -/
def zippedContext : Broadcast Expr where
  context := .mkLambda "s" .int32
    (.mkBlock [("z", .intrinsic "federated_zip_at_server" (.func .empty .empty))]
    (.call (.ref "z" (.func .empty .empty)) .unit .empty))
  processing := .mkLambda "a" (.tuple [.empty, .int32])
    ((Expr.ref "a" (.tuple [.empty, .int32])).field 0)

/-- A round evaluates the participants' block even if nobody calls it, and takes an empty context
for empty. -/
theorem synthesize_differs :
    (∃ f r, (Form.ofParts (.broadcast overflowing)).result = .ok f ∧ f.synthesize.result = .ok r ∧
      (∀ n, (Eval.form (n + 20) 2 f (.int 1) []).result = .ok (.atClients [])) ∧
      ∃ fault, (Eval.round 20 2 r (.int 1) []).result = .error (.fault fault)) ∧
    ∃ f r, (Form.ofParts (.broadcast zippedContext)).result = .ok f ∧ f.synthesize.result = .ok r ∧
      (Eval.form 20 2 f (.int 1) [.int 2]).result = .ok (.atClients [.atServer (.tuple [])]) ∧
      (Eval.round 20 2 r (.int 1) [.int 2]).result = .ok (.atClients [.tuple []]) := by
  constructor
  · refine ⟨_, _, rfl, rfl, fun _ => rfl, ?_⟩
    exact ⟨_, rfl⟩
  · exact ⟨_, _, rfl, rfl, rfl, rfl⟩

end TwoTier

import TwoTier.Proofs.Forms
import TwoTier.Proofs.Locality
import TwoTier.Proofs.Wiring

/-! # Rounds as netlists

A map-reduce or broadcast form becomes a round whose locals are gates: each calls one intrinsic on
wires, that is on earlier locals or elements of the parameter, and on expressions that touch no
tier. What crosses tiers is listed.
-/

namespace TwoTier

namespace Expr

variable {e F : Expr} {t u : Ty}

/-- A closed expression that touches no tier. -/
structure Inert (e : Expr) : Prop where
  typed : e.Scoped []
  bare : e.Bare

theorem Inert.sealed (h : e.Inert) : e.leak? .unplaced = none :=
  leak?_unplaced.mpr ⟨fun _ => h.typed.closed, h.bare⟩

theorem Inert.mono {Γ : List (String × Ty)} (h : e.Inert) : e.Scoped Γ :=
  h.typed.mono fun _ _ hz => by simp at hz

/-- Selecting along the path leads from one type to the other. -/
def Leads : Ty → List Nat → Ty → Prop
  | t, [], u => t = u
  | t, i :: path, u => ∃ ts t', t = .tuple ts ∧ ts[i]? = some t' ∧ Leads t' path u

theorem foldlM_mkSelect {Γ : List (String × Ty)} {path : List Nat} (he : e.Scoped Γ) (hb : e.Bare)
    (h : Leads e.ty path u) :
    ∃ e', path.foldlM mkSelect e = .ok e' ∧ e'.Scoped Γ ∧ e'.Bare ∧ e'.ty = u := by
  induction path generalizing e with
  | nil => exact ⟨e, rfl, he, hb, h⟩
  | cons i path ih =>
    obtain ⟨ts, t', hts, ht', h⟩ := h
    have hplaced : t'.isPlaced = false :=
      Ty.isPlaced_tuple.mp (hts ▸ hb.unplaced) t' (List.mem_of_getElem? ht')
    obtain ⟨e', hok, he'⟩ := ih (scoped_select he hts ht') (bare_select.mpr ⟨hplaced, hb⟩) h
    refine ⟨e', ?_, he'⟩
    rw [List.foldlM_cons, mkSelect_ok.mpr ⟨ts, t', hts, ht', rfl⟩]
    exact hok

end Expr

theorem Form.Part.inert {e : Expr} {b : Block} (h : Form.Part e .unplaced b)
    (hcalled : e.intrinsicsCalled = true) : e.Inert where
  typed := .of_closed ⟨h.check, hcalled⟩ (Expr.closed_of_leak? h.sealed)
  bare := (Expr.leak?_unplaced.mp h.sealed).2

namespace Synthesis

open Expr

variable {e F : Expr} {p q t u : Ty}

theorem selector_ok (path : List Nat) (ht : t.isPlaced = false) (h : Leads t path u) :
    ∃ F, selector t path = .ok F ∧ F.Inert ∧ F.ty = .func t u := by
  obtain ⟨body, hok, hscoped, hbare, rfl⟩ :=
    foldlM_mkSelect (e := .ref "o" t) (scoped_ref (Γ := [("o", t)]) (by simp)) (bare_ref.mpr ht) h
  refine ⟨mkLambda "o" t body, ?_, ⟨scoped_lambda hscoped, ?_⟩, rfl⟩
  · simp only [selector, hok]
    rfl
  · exact bare_lambda.mpr ⟨Ty.isPlaced_func.mpr ⟨ht, hbare.unplaced⟩, hbare⟩

theorem constant_ok {b : Block} (h : b.payload.Inert) (hty : b.payload.ty = .thunk t) :
    ∃ e, constant b = .ok e ∧ e.Inert ∧ e.ty = t := by
  unfold constant
  split
  case h_1 body t' hb =>
    rw [hb] at h hty
    obtain ⟨hbody, rfl⟩ := h.typed.delayed
    obtain rfl := Ty.thunk.inj hty
    exact ⟨body, rfl, ⟨hbody, (bare_lambda.mp h.bare).2⟩, rfl⟩
  case h_2 =>
    refine ⟨.force b.payload t, mkForce_ok.mpr ⟨t, hty, rfl⟩,
      ⟨scoped_force h.typed hty, bare_force.mpr ⟨?_, h.bare⟩⟩, rfl⟩
    simpa [hty] using h.bare.unplaced

def gate (op : Intrinsic) (a : Expr) (t : Ty) : Expr :=
  .call (.intrinsic op.uri (.func a.ty t)) a t

def crossing? : Expr → Option Crossing
  | .call (.intrinsic uri _) _ _ => match Intrinsic.ofUri? uri with
    | some (.crossing op) => some op
    | _ => none
  | _ => none

@[simp] theorem crossing?_within {op : LocalOp} {a : Expr} :
    crossing? (gate (.within op) a t) = none := by
  simp [crossing?, gate, Intrinsic.ofUri?_uri]

@[simp] theorem crossing?_crossing {op : Crossing} {a : Expr} :
    crossing? (gate (.crossing op) a t) = some op := by
  simp [crossing?, gate, Intrinsic.ofUri?_uri]

def overOp : Placement → LocalOp
  | .coordinator => .apply
  | .participants => .map

def zipOp : Placement → LocalOp
  | .coordinator => .zipAtServer
  | .participants => .zipAtClients

/-- The locals of a netlist. -/
inductive Gate : Expr → Prop where
  | map {site : Placement} {F e : Expr} {p q : Ty} {b : Bool} :
      F.Inert → F.ty = .func p q → IsWire e → e.ty = .placed p site b →
      Gate (gate (.within (overOp site)) (mkTuple [F, e]) (.place q site false))
  | zip {site : Placement} {es : List Expr} {ms : List Ty} : es ≠ [] → (∀ e ∈ es, IsWire e) →
      List.Forall₂ (fun e m => ∃ b, e.ty = .placed m site b) es ms →
      Gate (gate (.within (zipOp site)) (mkTuple es) (.place (.tuple ms) site false))
  | nothing : Gate (gate (.within .valueAtServer) Expr.unit (.atCoordinator .empty))
  | broadcast {e : Expr} {t : Ty} : IsWire e → e.ty = .atCoordinator t →
      Gate (gate (.crossing .broadcast) e (.place t .participants true))
  | aggregation {op : Crossing} {e : Expr} {as : List Expr} {t u : Ty} :
      op.isAggregation = true → IsWire e →
      e.ty = .atParticipants u → (∀ a ∈ as, a.Inert) →
      Gate (gate (.crossing op) (mkTuple (e :: as)) (.atCoordinator t))

/-- The locals are gates, of which `cs` cross tiers. -/
structure Netted (Γ : List (String × Ty)) (w : Wiring) (cs : List (String × Expr)) : Prop
    extends Wired Gate Γ w where
  crossings : w.locals.filter (fun l => (crossing? l.2).isSome) = cs

def Wiring.Wire (Γ : List (String × Ty)) (w : Wiring) (e : Expr) (t : Ty) : Prop :=
  w.Has Γ e t ∧ IsWire e

section Netted

variable {Γ : List (String × Ty)} {w w' : Wiring} {cs : List (String × Expr)} {slot base : String}
  {Q : Expr → Wiring → Prop}

theorem Wiring.Wire.mono (h : w.Wire Γ e t) (hgrows : w.Grows Γ w') : w'.Wire Γ e t :=
  ⟨h.1.mono hgrows, h.2⟩

theorem Netted.gate {op : Intrinsic} {a : Expr}
    (h : Netted Γ w cs) (ht : op.resultType a.ty = .ok t)
    (ha : a.Scoped (scope Γ w.locals)) (hg : Gate (gate op a t))
    (hQ : ∀ y w',
      Netted Γ w' (cs ++ [(y, Synthesis.gate op a t)].filter fun l => (crossing? l.2).isSome) →
      w.Grows Γ w' → w'.Wire Γ (.ref y t) t → Q (.ref y t) w') :
    Builds (bind slot base (mkIntrinsicCall op a)) w Q := by
  refine h.bind (mkIntrinsicCall_ok.mpr ⟨t, ht, rfl⟩)
    ⟨scoped_intrinsic ha ht, rfl⟩ hg fun y w' hw hgrows hls he => ?_
  exact hQ y w' ⟨hw, by rw [hls, List.filter_append, h.crossings]; rfl⟩ hgrows ⟨he, .ref⟩

theorem Netted.within {op : LocalOp} {a : Expr} (h : Netted Γ w cs)
    (ht : (Intrinsic.within op).resultType a.ty = .ok t) (ha : a.Scoped (scope Γ w.locals))
    (hg : Gate (Synthesis.gate (.within op) a t))
    (hQ : ∀ y w', Netted Γ w' cs → w.Grows Γ w' → w'.Wire Γ (.ref y t) t → Q (.ref y t) w') :
    Builds (bind slot base (mkIntrinsicCall (.within op) a)) w Q :=
  h.gate ht ha hg fun y w' hw => hQ y w' (by simpa using hw)

theorem Netted.across {op : Crossing} {a : Expr} (h : Netted Γ w cs)
    (ht : (Intrinsic.crossing op).resultType a.ty = .ok t) (ha : a.Scoped (scope Γ w.locals))
    (hg : Gate (Synthesis.gate (.crossing op) a t))
    (hQ : ∀ y w', Netted Γ w' (cs ++ [(y, Synthesis.gate (.crossing op) a t)]) → w.Grows Γ w' →
      w'.Wire Γ (.ref y t) t → Q (.ref y t) w') :
    Builds (bind slot base (crossing op a)) w Q :=
  h.gate ht ha hg fun y w' hw => hQ y w' (by simpa using hw)

theorem Netted.over (site : Placement) {b : Bool} (h : Netted Γ w cs) (hF : F.Inert)
    (hty : F.ty = .func p q) (he : w.Wire Γ e (.placed p site b))
    (hQ : ∀ y w', Netted Γ w' cs → w.Grows Γ w' →
      w'.Wire Γ (.ref y (.place q site false)) (.place q site false) →
      Q (.ref y (.place q site false)) w') :
    Builds (bind slot base (mkIntrinsicCall (.within (overOp site)) (mkTuple [F, e]))) w Q := by
  refine h.within ?_ (scoped_tuple (by simpa using ⟨hF.mono, he.1.1⟩)) (.map hF hty he.2 he.1.2) hQ
  have hplaced := hty ▸ hF.bare.unplaced
  have hacc : p.accepts p = true := Ty.standsFor_self p
  cases site <;>
    simp [overOp, Intrinsic.resultType, Intrinsic.mapResult, mkTuple, hty, he.1.2, hplaced, hacc]

theorem Netted.zip (site : Placement) {es : List Expr} {ms : List Ty} (h : Netted Γ w cs)
    (hne : es ≠ []) (hes : List.Forall₂ (fun e m => ∃ b, w.Wire Γ e (.placed m site b)) es ms)
    (hQ : ∀ y w', Netted Γ w' cs → w.Grows Γ w' →
      w'.Wire Γ (.ref y (.place (.tuple ms) site false)) (.place (.tuple ms) site false) →
      Q (.ref y (.place (.tuple ms) site false)) w') :
    Builds (bind slot base (mkIntrinsicCall (.within (zipOp site)) (mkTuple es))) w Q := by
  have hwire : ∀ e ∈ es, ∃ m b, w.Wire Γ e (.placed m site b) := fun e he =>
    (forall₂_mem hes he).imp fun m hm => hm.2
  refine h.within ?_ (scoped_tuple fun e he => ?_)
    (.zip hne (fun e he => ?_) (hes.imp fun e m hm => ?_)) hQ
  · have hms : (es.map ty).mapM (Ty.memberAt? site) = some ms := by
      refine mapM_eq_some.mpr (List.forall₂_map_left_iff.mpr (hes.imp fun e m hm => ?_))
      obtain ⟨b, hb⟩ := hm
      simp [hb.1.2, Ty.memberAt?]
    cases site <;> simp [zipOp, Intrinsic.resultType, Intrinsic.zipResult, mkTuple, hms]
  · obtain ⟨m, b, he⟩ := hwire e he
    exact he.1.1
  · obtain ⟨m, b, he⟩ := hwire e he
    exact he.2
  · obtain ⟨b, hb⟩ := hm
    exact ⟨b, hb.1.2⟩

theorem Netted.nothingAt (h : Netted Γ w cs)
    (hQ : ∀ e w', Netted Γ w' cs → w.Grows Γ w' → w'.Wire Γ e (.atCoordinator .empty) → Q e w') :
    Builds (nothing slot) w Q := by
  unfold nothing
  refine builds_bind ⟨w, w, rfl, ?_⟩
  dsimp only
  split
  case h_1 e he => exact builds_pure (hQ e w h .refl (h.nothing e he))
  case h_2 =>
    refine builds_bind (h.within rfl (scoped_tuple (by simp)) .nothing fun y w' hw hgrows he => ?_)
    refine ⟨_, _, rfl,
      hQ _ _ ⟨⟨hw.chain, hw.used, hw.kind, fun e' he' => ?_⟩, hw.crossings⟩ hgrows he⟩
    exact Option.some.inj he' ▸ he

end Netted

section Templates

variable {Γ : List (String × Ty)} {w w' : Wiring} {slot : String} {state data : Expr}

/-- What a netlist broadcasts: a context of type `c`, or nothing. -/
inductive Sends (Γ : List (String × Ty)) (w : Wiring) (c : Ty) : List (String × Expr) → Prop where
  | nothing : c = .empty → Sends Γ w c []
  | context {y : String} {e : Expr} : c ≠ .empty → w.Wire Γ e (.atCoordinator c) →
      Sends Γ w c [(y, gate (.crossing .broadcast) e (.place c .participants true))]

/-- What a netlist aggregates: updates of type `u` with an accumulator of type `a`, or nothing. -/
inductive Aggregates (Γ : List (String × Ty)) (w : Wiring) (f : MapReduce Expr) (u a r : Ty) :
    List (String × Expr) → Prop where
  | nothing : a = .empty → r = .empty → Aggregates Γ w f u a r []
  | updates {y : String} {e zero : Expr} :
      ¬ (a = .empty ∧ r = .empty) → w.Wire Γ e (.atParticipants u) →
      zero.Inert → zero.ty = a → Aggregates Γ w f u a r
        [(y, gate (.crossing .aggregate) (mkTuple [e, zero, f.accumulate, f.merge, f.report])
          (.atCoordinator r))]

/-- What a netlist sums up on one channel: integers of type `v`, or nothing. -/
inductive Sums (Γ : List (String × Ty)) (w : Wiring) (op : Crossing) (v : Ty) :
    List (String × Expr) → Prop where
  | nothing : v = .empty → Sums Γ w op v []
  | integers {y : String} {e a : Expr} : v ≠ .empty → w.Wire Γ e (.atParticipants v) → a.Inert →
      a.ty.isInteger = true →
      Sums Γ w op v [(y, gate (.crossing op) (mkTuple [e, a]) (.atCoordinator v))]

theorem Sends.mono {c : Ty} {cs : List (String × Expr)} (h : Sends Γ w c cs)
    (hgrows : w.Grows Γ w') :
    Sends Γ w' c cs := by
  cases h with
  | nothing hc => exact .nothing hc
  | context hc he => exact .context hc (he.mono hgrows)

theorem Aggregates.mono {f : MapReduce Expr} {u a r : Ty} {cs : List (String × Expr)}
    (h : Aggregates Γ w f u a r cs) (hgrows : w.Grows Γ w') : Aggregates Γ w' f u a r cs := by
  cases h with
  | nothing ha hr => exact .nothing ha hr
  | updates hne he hz ha => exact .updates hne (he.mono hgrows) hz ha

theorem Sums.mono {op : Crossing} {v : Ty} {cs : List (String × Expr)} (h : Sums Γ w op v cs)
    (hgrows : w.Grows Γ w') :
    Sums Γ w' op v cs := by
  cases h with
  | nothing hv => exact .nothing hv
  | integers hv he ha hi => exact .integers hv (he.mono hgrows) ha hi

theorem isEmpty_iff : t.isEmpty = true ↔ t = .empty := by
  unfold Ty.isEmpty
  split <;> simp_all [Ty.empty]

theorem partially_builds {f : Expr} {r : Ty} {argument : Expr → Expr}
    {Q : Expr → Wiring → Prop} (hf : f.Inert) (hty : f.ty = .func p r)
    (ht : t.isPlaced = false) (hscoped : (argument (.ref "d" t)).Scoped [("d", t)])
    (hbare : (argument (.ref "d" t)).Bare) (harg : (argument (.ref "d" t)).ty = p)
    (hQ : ∀ F, F.Inert → F.ty = .func t r → Q F w) : Builds (partially slot f t argument) w Q := by
  have hacc : p.accepts p = true := Ty.standsFor_self p
  have hr : r.isPlaced = false := (Ty.isPlaced_func.mp (hty ▸ hf.bare.unplaced)).2
  refine builds_bind
    (builds_typed (mkCall_ok.mpr ⟨p, r, hty, harg ▸ hacc, rfl⟩) (builds_pure (hQ _ ⟨?_, ?_⟩ rfl)))
  · exact scoped_lambda (scoped_call hf.mono hscoped hty (harg ▸ hacc))
  · exact bare_lambda.mpr ⟨Ty.isPlaced_func.mpr ⟨ht, hr⟩, bare_call.mpr ⟨hr, hf.bare, hbare⟩⟩

theorem broadcast_builds {parts : Broadcast Expr} {f : Broadcast Block} {s c d o : Ty}
    (h : Form.BroadcastChecked parts f s c d o)
    (hcalled : ∀ e ∈ parts.toList, e.intrinsicsCalled = true) (hw : Netted Γ w [])
    (hstate : w.Wire Γ state (.atCoordinator s)) (hdata : w.Wire Γ data (.atParticipants d)) :
    Builds (broadcast f state data) w fun e w' => ∃ sent, Netted Γ w' sent ∧ Sends Γ w' c sent ∧
      w'.Wire Γ e (.atParticipants o) := by
  have hcontext := h.context.inert (hcalled _ (by simp [Broadcast.toList]))
  have hprocessing := h.processing.inert (hcalled _ (by simp [Broadcast.toList]))
  have hd : d.isPlaced = false := by
    have := (Ty.isPlaced_func.mp (h.processingTy ▸ hprocessing.bare.unplaced)).1
    exact Ty.isPlaced_tuple.mp this d (by simp)
  have hdataType : f.dataType = d := by
    simp [Broadcast.dataType, Block.paramElement, Block.paramOrEmpty,
      (h.processing.function h.processingTy).1, Ty.elementOrEmpty, Ty.elements?]
  unfold broadcast
  rw [(h.context.function h.contextTy).2, hdataType, h.context.payload, h.processing.payload]
  split
  case isTrue hempty =>
    obtain rfl := isEmpty_iff.mp hempty
    refine builds_bind (partially_builds hprocessing h.processingTy hd ?_ ?_ rfl fun F hF hty => ?_)
    · exact scoped_tuple (by simpa using ⟨scoped_tuple (by simp), scoped_ref (by simp)⟩)
    · simp [mkTuple, Expr.unit, bare_tuple, bare_ref, Ty.isPlaced_tuple, hd]
    · exact hw.over .participants hF hty hdata fun y w' hw hgrows he => ⟨[], hw, .nothing rfl, he⟩
  case isFalse hempty =>
    have hne : c ≠ .empty := fun hc => hempty (isEmpty_iff.mpr hc)
    refine builds_bind
      (hw.over .coordinator hcontext h.contextTy hstate fun y₁ w₁ hw₁ hgrows₁ h₁ => ?_)
    refine builds_bind
      (hw₁.across rfl h₁.1.1 (.broadcast h₁.2 h₁.1.2) fun y₂ w₂ hw₂ hgrows₂ h₂ => ?_)
    refine builds_bind (hw₂.zip .participants (by simp)
      (.cons ⟨true, h₂⟩ (.cons ⟨false, hdata.mono (hgrows₁.trans hgrows₂)⟩ .nil))
      fun y₃ w₃ hw₃ hgrows₃ h₃ => ?_)
    exact hw₃.over .participants hprocessing h.processingTy h₃ fun y w' hw hgrows he =>
      ⟨_, hw, .context hne (h₁.mono (hgrows₂.trans (hgrows₃.trans hgrows))), he⟩

theorem secureSum_resultType {op : Crossing} {v : Ty} (hop : op.secureChannel?.isSome = true)
    (hv : v.isInteger = true) (hp : p.isInteger = true) (hplaced : p.isPlaced = false) :
    (Intrinsic.crossing op).resultType (.tuple [.atParticipants v, p]) =
    .ok (.atCoordinator v) := by
  have hsum : Intrinsic.secureSumResult op (.tuple [.atParticipants v, p]) =
      .ok (.atCoordinator v) := by
    cases p <;> simp_all [Intrinsic.secureSumResult, Ty.atParticipants, Ty.place,
      Ty.memberAt?, Except.bind]
  cases op <;> first | exact hsum | simp [Crossing.secureChannel?] at hop

theorem secureTotal_builds {f : MapReduce Block} {outputs e : Expr} {channel : Nat}
    {op : Crossing} {base : String} {parameter : Block} {v₁ v₂ v₃ v : Ty}
    {cs : List (String × Expr)} {Q : Expr → Wiring → Prop} (hop : op.secureChannel?.isSome = true)
    (hwork : f.work.resultType = .tuple [u, .tuple [v₁, v₂, v₃]])
    (hv : [v₁, v₂, v₃][channel]? = some v) (hplaced : f.work.resultType.isPlaced = false)
    (hint : v.isInteger = true) (hparameter : Form.Part e .unplaced parameter) (hinert : e.Inert)
    (hty : ∃ p, e.ty = .thunk p ∧ p.isInteger = true) (hw : Netted Γ w cs)
    (houtputs : w.Wire Γ outputs (.atParticipants f.work.resultType))
    (hQ : ∀ e' w' k, Netted Γ w' (cs ++ k) → w.Grows Γ w' → Sums Γ w' op v k →
      w'.Wire Γ e' (.atCoordinator v) → Q e' w') :
    Builds (secureTotal f outputs channel op base slot parameter) w Q := by
  have hchannel : f.secureType.elementOrEmpty channel = v := by
    simp [MapReduce.secureType, Block.resultElement, hwork, Ty.elementOrEmpty, Ty.elements?, hv]
  unfold secureTotal
  rw [hchannel]
  split
  case isTrue hempty =>
    obtain rfl := isEmpty_iff.mp hempty
    exact hw.nothingAt fun e' w' hw hgrows he => hQ e' w' [] (by simpa using hw) hgrows
      (.nothing rfl) he
  case isFalse hempty =>
    have hne : v ≠ .empty := fun hv => hempty (isEmpty_iff.mpr hv)
    obtain ⟨F, hsel, hF, hFty⟩ :=
      selector_ok [1, channel] hplaced ⟨_, _, hwork, rfl, _, v, rfl, hv, rfl⟩
    obtain ⟨p, hp, hpint⟩ := hty
    obtain ⟨a, ha, hainert, rfl⟩ :=
      constant_ok (hparameter.payload ▸ hinert) (hparameter.payload ▸ hp)
    rw [hsel]
    refine builds_bind (hw.over .participants hF hFty houtputs fun y₁ w₁ hw₁ hgrows₁ h₁ => ?_)
    refine builds_bind (builds_typed ha ?_)
    refine hw₁.across ?_ (scoped_tuple (by simpa using ⟨h₁.1.1, hainert.mono⟩))
      (.aggregation ?_ h₁.2 h₁.1.2 (by simpa using hainert)) fun y w' hw' hgrows he =>
      hQ _ w' _ hw' (hgrows₁.trans hgrows) (.integers hne (h₁.mono hgrows) hainert hpint) he
    · exact secureSum_resultType hop hint hpint hainert.bare.unplaced
    · revert hop
      cases op <;> decide

section MapReduce

variable {parts : MapReduce Expr} {f : MapReduce Block} {s c d v₁ v₂ v₃ a r x : Ty} {outputs : Expr}
  {cs : List (String × Expr)} {Q : Expr → Wiring → Prop}

theorem clientOutputs_builds (h : Form.MapReduceChecked parts f s c d u v₁ v₂ v₃ a r x)
    (hcalled : ∀ e ∈ parts.toList, e.intrinsicsCalled = true) (hw : Netted Γ w [])
    (hstate : w.Wire Γ state (.atCoordinator s)) (hdata : w.Wire Γ data (.atParticipants d))
    (hQ : ∀ e w' sent, Netted Γ w' sent → w.Grows Γ w' → Sends Γ w' c sent →
      w'.Wire Γ e (.atParticipants f.work.resultType) → Q e w') :
    Builds (clientOutputs f state data) w Q := by
  have hprepare := h.prepare.inert (hcalled _ (by simp [MapReduce.toList]))
  have hwork := h.work.inert (hcalled _ (by simp [MapReduce.toList]))
  have hd : d.isPlaced = false :=
    Ty.isPlaced_tuple.mp (Ty.isPlaced_func.mp (h.workTy ▸ hwork.bare.unplaced)).1 d (by simp)
  have hcontextType : f.contextType = c := (h.prepare.function h.prepareTy).2
  have hdataType : f.dataType = d := by
    simp [MapReduce.dataType, Block.paramElement, Block.paramOrEmpty, (h.work.function h.workTy).1,
      Ty.elementOrEmpty, Ty.elements?]
  rw [(h.work.function h.workTy).2] at hQ
  unfold clientOutputs
  rw [hcontextType, hdataType, h.prepare.payload, h.work.payload]
  split
  case isTrue hempty =>
    obtain rfl := isEmpty_iff.mp hempty
    refine builds_bind (partially_builds hwork h.workTy hd ?_ ?_ rfl fun F hF hty => ?_)
    · exact scoped_tuple (by simpa using ⟨scoped_ref (by simp), scoped_tuple (by simp)⟩)
    · simp [mkTuple, Expr.unit, bare_tuple, bare_ref, Ty.isPlaced_tuple, hd]
    · exact hw.over .participants hF hty hdata fun y w' hw hgrows he =>
        hQ _ w' [] hw hgrows (.nothing rfl) he
  case isFalse hempty =>
    have hne : c ≠ .empty := fun hc => hempty (isEmpty_iff.mpr hc)
    refine builds_bind
      (hw.over .coordinator hprepare h.prepareTy hstate fun y₁ w₁ hw₁ hgrows₁ h₁ => ?_)
    refine builds_bind
      (hw₁.across rfl h₁.1.1 (.broadcast h₁.2 h₁.1.2) fun y₂ w₂ hw₂ hgrows₂ h₂ => ?_)
    refine builds_bind (hw₂.zip .participants (by simp)
      (.cons ⟨false, hdata.mono (hgrows₁.trans hgrows₂)⟩ (.cons ⟨true, h₂⟩ .nil))
      fun y₃ w₃ hw₃ hgrows₃ h₃ => ?_)
    exact hw₃.over .participants hwork h.workTy h₃ fun y w' hw hgrows he =>
      hQ _ w' _ hw (hgrows₁.trans (hgrows₂.trans (hgrows₃.trans hgrows)))
        (.context hne (h₁.mono (hgrows₂.trans (hgrows₃.trans hgrows)))) he

theorem plainTotal_builds (h : Form.MapReduceChecked parts f s c d u v₁ v₂ v₃ a r x)
    (hcalled : ∀ e ∈ parts.toList, e.intrinsicsCalled = true) (hw : Netted Γ w cs)
    (houtputs : w.Wire Γ outputs (.atParticipants f.work.resultType))
    (hQ : ∀ e w' total, Netted Γ w' (cs ++ total) → w.Grows Γ w' →
      Aggregates Γ w' parts u a r total → w'.Wire Γ e (.atCoordinator r) → Q e w') :
    Builds (plainTotal f outputs) w Q := by
  have hwork := h.work.inert (hcalled _ (by simp [MapReduce.toList]))
  have hzero := h.zero.inert (hcalled _ (by simp [MapReduce.toList]))
  have haccumulate := h.accumulate.inert (hcalled _ (by simp [MapReduce.toList]))
  have hmerge := h.merge.inert (hcalled _ (by simp [MapReduce.toList]))
  have hreport := h.report.inert (hcalled _ (by simp [MapReduce.toList]))
  have hworkOut := (h.work.function h.workTy).2
  have hplaced := (Ty.isPlaced_func.mp (h.workTy ▸ hwork.bare.unplaced)).2
  have hreportType : f.reportType = r := (h.report.function h.reportTy).2
  have haccumulatorType : f.accumulatorType = a := h.zero.value h.zeroTy
  unfold plainTotal
  rw [hreportType, haccumulatorType, h.accumulate.payload, h.merge.payload,
    h.report.payload, hworkOut]
  split
  case isTrue hempty =>
    simp only [Bool.and_eq_true, isEmpty_iff] at hempty
    obtain ⟨rfl, rfl⟩ := hempty
    exact hw.nothingAt fun e' w' hw hgrows he => hQ e' w' [] (by simpa using hw) hgrows
      (.nothing rfl rfl) he
  case isFalse hempty =>
    simp only [Bool.and_eq_true, isEmpty_iff] at hempty
    obtain ⟨F, hsel, hF, hFty⟩ := selector_ok [0] hplaced ⟨_, _, rfl, rfl, rfl⟩
    obtain ⟨z, hz, hzinert, rfl⟩ := constant_ok (h.zero.payload ▸ hzero) (h.zero.payload ▸ h.zeroTy)
    rw [hsel]
    refine builds_bind
      (hw.over .participants hF hFty (hworkOut ▸ houtputs) fun y₁ w₁ hw₁ hgrows₁ h₁ => ?_)
    refine builds_bind (builds_typed hz ?_)
    refine hw₁.across ?_ (scoped_tuple ?_)
        (.aggregation rfl h₁.2 h₁.1.2 ?_) fun y w' hw' hgrows he =>
      hQ _ w' _ hw' (hgrows₁.trans hgrows)
        (.updates (fun h => hempty h.symm) (h₁.mono hgrows) hzinert rfl) he
    · have hr : r.isPlaced = false := (Ty.isPlaced_func.mp (h.reportTy ▸ hreport.bare.unplaced)).2
      simp [Intrinsic.resultType, Intrinsic.aggregateResult, mkTuple, Ty.place, Ty.memberAt?,
        hzinert.bare.unplaced, h.accumulate_exact, h.merge_exact, h.reportTy, hr]
    · simpa using ⟨h₁.1.1, hzinert.mono, haccumulate.mono, hmerge.mono, hreport.mono⟩
    · simpa using ⟨hzinert, haccumulate, hmerge, hreport⟩

/-- The wires and crossings of a map-reduce round. -/
structure MapReduceNet (Γ : List (String × Ty)) (w : Wiring) (f : MapReduce Expr)
    (s c u v₁ v₂ v₃ a r x : Ty) (sent total sums₁ sums₂ sums₃ : List (String × Expr))
    (newState output : Expr) : Prop where
  net : Netted Γ w (sent ++ total ++ sums₁ ++ sums₂ ++ sums₃)
  sends : Sends Γ w c sent
  aggregates : Aggregates Γ w f u a r total
  bitwidth : Sums Γ w .bitwidthSum v₁ sums₁
  bounded : Sums Γ w .boundedSum v₂ sums₂
  modular : Sums Γ w .modularSum v₃ sums₃
  newState : w.Wire Γ newState (.atCoordinator s)
  output : w.Wire Γ output (.atCoordinator x)

theorem mapReduce_builds (h : Form.MapReduceChecked parts f s c d u v₁ v₂ v₃ a r x)
    (hcalled : ∀ e ∈ parts.toList, e.intrinsicsCalled = true) (hw : Netted Γ w [])
    (hstate : w.Wire Γ state (.atCoordinator s)) (hdata : w.Wire Γ data (.atParticipants d)) :
    Builds (mapReduce f state data) w fun e w' => ∃ sent total sums₁ sums₂ sums₃ newState output,
      MapReduceNet Γ w' parts s c u v₁ v₂ v₃ a r x sent total sums₁ sums₂ sums₃ newState output ∧
        e = mkTuple [newState, output] := by
  have hwork := h.work.inert (hcalled _ (by simp [MapReduce.toList]))
  have hupdate := h.update.inert (hcalled _ (by simp [MapReduce.toList]))
  have hworkOut := (h.work.function h.workTy).2
  have hplaced : f.work.resultType.isPlaced = false :=
    hworkOut ▸ (Ty.isPlaced_func.mp (h.workTy ▸ hwork.bare.unplaced)).2
  have hupdateOut := (Ty.isPlaced_func.mp (h.updateTy ▸ hupdate.bare.unplaced)).2
  unfold mapReduce
  refine builds_bind (clientOutputs_builds h hcalled hw hstate hdata
    fun outputs w₁ sent hw₁ hg₁ hsends houtputs => ?_)
  refine builds_bind
    (plainTotal_builds h hcalled hw₁ houtputs fun aggregate w₂ total hw₂ hg₂ haggregates h₂ => ?_)
  refine builds_bind (secureTotal_builds rfl hworkOut rfl hplaced h.channels.1 h.bitwidth
    (h.bitwidth.inert (hcalled _ (by simp [MapReduce.toList]))) h.bitwidthTy hw₂ (houtputs.mono hg₂)
    fun a₁ w₃ sums₁ hw₃ hg₃ hsums₁ h₃ => ?_)
  refine builds_bind (secureTotal_builds rfl hworkOut rfl hplaced h.channels.2.1 h.maxInput
    (h.maxInput.inert (hcalled _ (by simp [MapReduce.toList]))) h.maxInputTy hw₃
    (houtputs.mono (hg₂.trans hg₃)) fun a₂ w₄ sums₂ hw₄ hg₄ hsums₂ h₄ => ?_)
  refine builds_bind (secureTotal_builds rfl hworkOut rfl hplaced h.channels.2.2 h.modulus
    (h.modulus.inert (hcalled _ (by simp [MapReduce.toList]))) h.modulusTy hw₄
    (houtputs.mono (hg₂.trans (hg₃.trans hg₄))) fun a₃ w₅ sums₃ hw₅ hg₅ hsums₃ h₅ => ?_)
  refine builds_bind (hw₅.zip .coordinator (by simp)
    (.cons ⟨true, h₃.mono (hg₄.trans hg₅)⟩ (.cons ⟨true, h₄.mono hg₅⟩ (.cons ⟨true, h₅⟩ .nil)))
    fun y₆ w₆ hw₆ hg₆ h₆ => ?_)
  have hlate : w₂.Grows Γ w₆ := hg₃.trans (hg₄.trans (hg₅.trans hg₆))
  refine builds_bind (hw₆.zip .coordinator (by simp)
    (.cons ⟨true, h₂.mono hlate⟩ (.cons ⟨true, h₆⟩ .nil)) fun y₇ w₇ hw₇ hg₇ h₇ => ?_)
  refine builds_bind (hw₇.zip .coordinator (by simp)
    (.cons ⟨true, hstate.mono (hg₁.trans (hg₂.trans (hlate.trans hg₇)))⟩ (.cons ⟨true, h₇⟩ .nil))
    fun y₈ w₈ hw₈ hg₈ h₈ => ?_)
  refine builds_bind (hw₈.over .coordinator (h.update.payload ▸ hupdate) (h.update.payload ▸
    h.updateTy) h₈ fun y₉ w₉ hw₉ hg₉ h₉ => ?_)
  obtain ⟨F, hsel, hF, hFty⟩ := selector_ok [0] hupdateOut ⟨_, _, rfl, rfl, rfl⟩
  obtain ⟨G, hsel', hG, hGty⟩ := selector_ok [1] hupdateOut ⟨_, _, rfl, rfl, rfl⟩
  rw [(h.update.function h.updateTy).2, hsel, hsel']
  refine builds_bind (hw₉.over .coordinator hF hFty h₉ fun newState w₁₀ hw₁₀ hg₁₀ h₁₀ => ?_)
  refine builds_bind
    (hw₁₀.over .coordinator hG hGty (h₉.mono hg₁₀) fun output w' hw' hg₁₁ h₁₁ => builds_pure ?_)
  have hend : w₅.Grows Γ w' := hg₆.trans (hg₇.trans (hg₈.trans (hg₉.trans (hg₁₀.trans hg₁₁))))
  exact ⟨sent, total, sums₁, sums₂, sums₃, _, _,
    ⟨hw', hsends.mono (hg₂.trans (hg₃.trans (hg₄.trans (hg₅.trans hend)))), haggregates.mono
    (hg₃.trans (hg₄.trans (hg₅.trans hend))), hsums₁.mono (hg₄.trans (hg₅.trans hend)),
    hsums₂.mono (hg₅.trans hend), hsums₃.mono hend, h₁₀.mono hg₁₁, h₁₁⟩, rfl⟩

end MapReduce

end Templates

end Synthesis

end TwoTier

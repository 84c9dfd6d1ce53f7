import TwoTier.Proofs.Synthesis.View

/-! # Slices of a netlist

A wire of a netlist can be followed back to what a slot is given: slicing it ends, with an
expression over the slot's parameter that touches no tier, as long as every crossing met on the way
is among the slot's inputs.
-/

namespace TwoTier.Synthesis

open Expr Round

variable {Γ Δ : List (String × Ty)} {ns ls ls' : List (String × Expr)} {e g F : Expr} {m t : Ty}
    {x y : String}

/-- An expression of type `t` behind the locals of a slot with the variables `Δ`. -/
structure Fit (Δ : List (String × Ty)) (ls : List (String × Expr)) (e : Expr) (t : Ty) : Prop where
  typed : e.Scoped (scope Δ ls)
  bare : e.Bare
  ty : e.ty = t

/-- The locals of a slot. Each is the bare value of a local of the netlist. -/
structure Kept (Δ : List (String × Ty)) (ns ls : List (String × Expr)) : Prop where
  chain : Chain Δ ls
  bare : ∀ l ∈ ls, l.2.Bare
  member : ∀ l ∈ ls, ∃ g site b, (l.1, g) ∈ ns ∧ g.ty = .placed l.2.ty site b

theorem Fit.mono (h : Fit Δ ls e t) (hk : Kept Δ ns ls') (hls : ls <+: ls') : Fit Δ ls' e t := by
  obtain ⟨ds, rfl⟩ := hls
  refine ⟨h.typed.mono ?_, h.bare, h.ty⟩
  rw [scope_append]
  exact (chain_append.mp hk.chain).2.within

theorem Fit.of_nil (h : Fit Δ [] e t) (hk : Kept Δ ns ls) : Fit Δ ls e t :=
  h.mono hk List.nil_prefix

theorem inert_unit : Expr.unit.Inert :=
  ⟨scoped_tuple (by simp), bare_tuple.mpr ⟨rfl, by simp⟩⟩

theorem fit_inert (h : e.Inert) : Fit Δ ls e e.ty :=
  ⟨h.mono, h.bare, rfl⟩

theorem fit_mkTuple {es : List Expr} {ts : List Ty} (h : List.Forall₂ (Fit Δ ls) es ts) :
    Fit Δ ls (mkTuple es) (.tuple ts) := by
  have hes : ∀ e ∈ es, ∃ t, Fit Δ ls e t := fun e he => by
    obtain ⟨t, -, ht⟩ := forall₂_mem h he
    exact ⟨t, ht⟩
  have hts : es.map ty = ts := by
    rw [← List.forall₂_eq_eq_eq, List.forall₂_map_left_iff]
    exact h.imp fun _ _ he => he.ty
  refine ⟨scoped_tuple fun e he => ?_,
    bare_tuple.mpr ⟨Ty.isPlaced_tuple.mpr fun t ht => ?_, fun e he => ?_⟩, ?_⟩
  · obtain ⟨t, ht⟩ := hes e he
    exact ht.typed
  · obtain ⟨e, he, rfl⟩ := List.mem_map.mp ht
    obtain ⟨t, ht⟩ := hes e he
    exact ht.bare.unplaced
  · obtain ⟨t, ht⟩ := hes e he
    exact ht.bare
  · simp [mkTuple, hts]

theorem Kept.closeOver (hk : Kept [(x, t)] ns ls) (he : Fit [(x, t)] ls e m)
    (ht : t.isPlaced = false) :
    (Round.closeOver x t e ls).Inert ∧ (Round.closeOver x t e ls).ty = .func t m := by
  refine ⟨⟨scoped_lambda (hk.chain.mkBlock he.typed),
    bare_lambda.mpr ⟨?_, bare_mkBlock.mpr ⟨hk.bare, he.bare⟩⟩⟩, ?_⟩
  · rw [ty_mkBlock]
    exact Ty.isPlaced_func.mpr ⟨ht, he.bare.unplaced⟩
  · simp [Round.closeOver, mkLambda, he.ty]

theorem fillSlot_inert {slot : String} (h : e.Inert) (ht : e.ty = t) :
    (fillSlot e t .unplaced slot).result = .ok e := by
  simp only [fillSlot, Traced.bind_ok, Traced.mapError_ok, Expr.extract_ok, Traced.pure_ok]
  exact ⟨_, ⟨h.sealed, ht, rfl⟩, (), Traced.note_ok, rfl⟩

/-- Slicing from the locals `ls` ends, with new locals of names in `pre` and a result that satisfies
`Q`. -/
def Gives {α : Type} (Δ : List (String × Ty)) (ns pre : List (String × Expr)) (a : SliceM α)
    (ls : List (String × Expr)) (Q : α → List (String × Expr) → Prop) : Prop :=
  ∃ r ds, (a.run ls).result = .ok (r, ls ++ ds) ∧ (∀ l ∈ ds, l.1 ∈ pre.map Prod.fst) ∧
    Kept Δ ns (ls ++ ds) ∧
    Q r (ls ++ ds)

section Gives

variable {α β : Type} {pre : List (String × Expr)} {a : SliceM α} {f : α → SliceM β}
  {Q Q' : α → List (String × Expr) → Prop}

theorem gives_pure {r : α} (hk : Kept Δ ns ls) (h : Q r ls) : Gives Δ ns pre (pure r) ls Q :=
  ⟨r, [], by simp, by simp, by simpa using hk, by simpa using h⟩

theorem gives_bind {Q : β → List (String × Expr) → Prop}
    (h : Gives Δ ns pre a ls fun r ls' => Gives Δ ns pre (f r) ls' Q) :
    Gives Δ ns pre (a >>= f) ls Q := by
  obtain ⟨r, ds, hr, hds, -, r', ds', hr', hds', hk, hq⟩ := h
  refine ⟨r', ds ++ ds', ?_, fun l hl => ?_, by simpa using hk, by simpa using hq⟩
  · rw [Traced.run_bind_ok]
    exact ⟨r, _, hr, by simpa using hr'⟩
  · rcases List.mem_append.mp hl with hl | hl
    · exact hds l hl
    · exact hds' l hl

theorem Gives.mono (h : Gives Δ ns pre a ls Q)
    (hQ : ∀ r ls', Kept Δ ns ls' → ls <+: ls' → Q r ls' → Q' r ls') :
    Gives Δ ns pre a ls Q' := by
  obtain ⟨r, ds, hr, hds, hk, hq⟩ := h
  exact ⟨r, ds, hr, hds, hk, hQ r _ hk (List.prefix_append ls ds) hq⟩

/-- Slicing ends with an expression of type `t`. -/
def Offers (Δ : List (String × Ty)) (ns pre : List (String × Expr)) (a : SliceM Expr)
    (t : Ty) : Prop :=
  ∀ ls, Kept Δ ns ls → Gives Δ ns pre a ls fun e ls' => Fit Δ ls' e t

theorem offers_pure (h : Fit Δ [] e t) : Offers Δ ns pre (pure e) t :=
  fun _ hk => gives_pure hk (h.of_nil hk)

theorem gives_sequence {as : List (SliceM Expr)} {ts : List Ty}
    (h : List.Forall₂ (Offers Δ ns pre) as ts) (hk : Kept Δ ns ls) :
    Gives Δ ns pre (Slice.sequence as) ls fun es ls' => List.Forall₂ (Fit Δ ls') es ts := by
  induction h generalizing ls with
  | nil => exact gives_pure hk .nil
  | cons ha _ ih =>
    refine gives_bind ((ha ls hk).mono fun e ls₁ hk₁ _ he => ?_)
    refine gives_bind ((ih hk₁).mono fun es ls₂ hk₂ hls hes => ?_)
    exact gives_pure hk₂ (.cons (he.mono hk₂ hls) hes)

theorem offers_tuple {as : List (SliceM Expr)} {ts : List Ty}
    (h : List.Forall₂ (Offers Δ ns pre) as ts) :
    Offers Δ ns pre (do return mkTuple (← Slice.sequence as)) (.tuple ts) :=
  fun _ hk => gives_bind ((gives_sequence h hk).mono fun _ _ hk' _ hes =>
    gives_pure hk' (fit_mkTuple hes))

end Gives

section Equations

variable {c : Slice} {resolve : Step → SliceM Expr} {otherwise : SliceM Expr} {es : List Expr}
    {op : Intrinsic}

theorem unlessInert_inert (h : e.Inert) : Slice.unlessInert e otherwise = pure e := by
  obtain ⟨tree, htree, hlabels⟩ := classify_of_not_isPlaced fun e' he' => (h.bare e' he').1
  have htier : e.tier = .ok .unplaced := by
    simp only [tier, htree, Except.map]
    exact congrArg _ (hlabels _ (List.of_mem_zip (root_mem_labels (e := e))).2)
  simp [Slice.unlessInert, isClosed_iff.mpr fun _ => h.typed.closed, htier]

theorem valueWith_inert (h : e.Inert) : c.valueWith resolve e = pure e := by
  cases e with
  | lit | builtin => rfl
  | ref | lambda | block | intrinsic | tuple | select => exact unlessInert_inert h
  | force f t => cases f <;> exact unlessInert_inert h
  | call f a t =>
    cases f with
    | intrinsic => cases a <;> exact unlessInert_inert h
    | _ => exact unlessInert_inert h

theorem unlessInert_placed (h : e.ty.isPlaced = true) (hc : ∃ tree, e.classify = .ok tree) :
    Slice.unlessInert e otherwise = otherwise := by
  obtain ⟨tree, htree⟩ := hc
  unfold Slice.unlessInert
  split
  · split
    · rename_i hm
      simp [tier, htree, Except.map] at hm
    · rename_i ht
      simp [isPlaced_of_tier ht] at h
    · rfl
  · rfl

theorem valueWith_gate {op : LocalOp} (h : Gate (gate (.within op) (mkTuple es) t))
    (hmode : c.mode = .lowered) : c.valueWith resolve (gate (.within op) (mkTuple es) t) =
    c.loweredCall op (es.map (c.valueWith resolve))
      (Slice.unlessInert (mkTuple es) do
        return mkTuple (← Slice.sequence (es.map (c.valueWith resolve)))) := by
  obtain ⟨m, site, b, hty⟩ := h.ty
  rw [← Slice.valuesWith_eq]
  refine (unlessInert_placed (hty ▸ Ty.isPlaced_placed) (classify_admitted h.admitted)).trans ?_
  simp only [Slice.intrinsicCall, Intrinsic.ofUri?_uri, hmode]
  rfl

end Equations

def ownInput (c : Slice) : Placement → Option Expr
  | .coordinator => c.state
  | .participants => c.data

def ownType (s d : Ty) : Placement → Ty
  | .coordinator => s
  | .participants => d

/-- The slice has all that a slot at `site` with the variables `Δ` needs to follow the wires of
`pre`. -/
structure Serves (v : View) (s d : Ty) (Δ : List (String × Ty)) (ns pre : List (String × Expr))
    (site : Placement) (c : Slice) : Prop where
  view : c.view = v
  mode : c.mode = .lowered
  apart : ∀ x ∈ Δ.map Prod.fst, x ∉ ns.map Prod.fst
  own : ∃ e, ownInput c site = some e ∧ Fit Δ [] e (ownType s d site)
  inputs : ∀ x e, c.inputs.lookup x = some e → ∃ g b, (x, g) ∈ ns ∧ g.ty = .placed e.ty site b ∧
    Fit Δ [] e e.ty
  initial : pre <+: ns
  supplied : ∀ l ∈ pre, (crossing? l.2).isSome = true → (∃ m b, l.2.ty = .placed m site b) →
    ∃ e, c.inputs.lookup l.1 = some e

section Serves

variable {v : View} {template : Template} {s d : Ty} {w : Wiring}
  {cs pre avail : List (String × Expr)} {r : Expr} {site : Placement} {c : Slice} {b : Bool}
  {resolve : Step → SliceM Expr}

theorem IsWire.unlessInert {otherwise : SliceM Expr} (h : IsWire e)
    (hty : e.ty = .placed m site b) :
    Slice.unlessInert e otherwise = otherwise :=
  unlessInert_placed (hty ▸ Ty.isPlaced_placed)
    (classify_admitted fun e' he' => admitted_of_calm (h.quiet e' he'))

theorem valueWith_state {u : Ty} (hx : x = c.view.param) (hu : u = .placed m site b)
    (he : c.state = some e) :
    c.valueWith resolve (.select (.ref x t) 0 u) = pure e := by
  simp only [Slice.valueWith, Slice.selection, IsWire.select.unlessInert hu, if_pos hx, he,
    Option.elim_some]

theorem valueWith_data {u : Ty} (hx : x = c.view.param) (hu : u = .placed m site b)
    (he : c.data = some e) :
    c.valueWith resolve (.select (.ref x t) 1 u) = pure e := by
  simp only [Slice.valueWith, Slice.selection, IsWire.select.unlessInert hu, if_pos hx, he,
    Option.elim_some]

theorem Netted.variable (hw : Netted [(y, inputsType s d)] w cs) (hpre : pre <+: w.locals)
    (h : (scope [(y, inputsType s d)] pre).lookup x = some t) : (x = y ∧ t = inputsType s d) ∨
      ∃ g p q, pre = p ++ (x, g) :: q ∧ g.ty = t ∧ Gate g ∧
      g.Scoped (scope [(y, inputsType s d)] p) := by
  obtain ⟨post, hpost⟩ := hpre
  rcases lookup_scope h with h | ⟨g, p, q, rfl, rfl⟩
  · rw [List.lookup_cons] at h
    split at h
    · rename_i hx
      exact .inl ⟨beq_iff_eq.mp hx, (Option.some.inj h).symm⟩
    · simp at h
  · have hchain := hw.chain
    rw [← hpost, List.append_assoc, List.cons_append, chain_append] at hchain
    exact .inr ⟨g, p, q, rfl, rfl, hw.kind (x, g) (by simp [← hpost]), hchain.2.2.1⟩

theorem Serves.element {i : Nat} {u : Ty} (hs : Serves v s d Δ w.locals avail site c)
    (hw : Netted [(y, inputsType s d)] w cs)
    (hv : Lists v y s d w.locals r) (hpre : pre <+: w.locals)
    (he : (Expr.select (.ref x t) i u).Scoped (scope [(y, inputsType s d)] pre))
    (hu : u = .placed m site b) :
    Offers Δ w.locals pre (c.valueWith resolve (.select (.ref x t) i u)) m := by
  obtain ⟨href, ts, ht, hi⟩ := typed_select.mp he.typed
  obtain ⟨t', ht'⟩ := he.bound (z := x) (by simp)
  obtain rfl := typed_ref.mp href t' ht'
  obtain rfl : t' = .tuple ts := ht
  rcases hw.variable hpre ht' with ⟨rfl, hts⟩ | ⟨g, p, q, -, hg, hgate, -⟩
  swap
  · obtain ⟨m, site, b, hty⟩ := hgate.ty
    simp [hty] at hg
  obtain rfl := Ty.tuple.inj hts
  obtain ⟨e, hsome, hfit⟩ := hs.own
  rcases i with _ | _ | i
  · obtain ⟨rfl, rfl, -⟩ := Ty.placed.inj ((Option.some.inj hi).trans hu)
    rw [valueWith_state (hs.view ▸ hv.param.symm) hu hsome]
    exact offers_pure hfit
  · obtain ⟨rfl, rfl, -⟩ := Ty.placed.inj ((Option.some.inj hi).trans hu)
    rw [valueWith_data (hs.view ▸ hv.param.symm) hu hsome]
    exact offers_pure hfit
  · simp at hi

/-- A gate within a tier becomes a call, a tuple or the empty tuple, if its wires can be
followed. -/
theorem offers_gate {Γ : List (String × Ty)} (hmode : c.mode = .lowered)
    (hwire : ∀ {e m b}, IsWire e → e.Scoped Γ → e.ty = .placed m site b →
      Offers Δ ns pre (c.valueWith resolve e) m)
    (hg : Gate g) (hscoped : g.Scoped Γ) (hcross : crossing? g = none)
    (hty : g.ty = .placed m site b) :
    Offers Δ ns pre (c.valueWith resolve g) m := by
  have argument : ∀ {op a t}, (gate op a t).Scoped Γ → a.Scoped Γ :=
    fun h Δ hΔ => (typed_call.mp (h Δ hΔ)).1
  cases id hg with
  | @map site' F e p q b' hF hFty he hety =>
    obtain ⟨rfl, rfl, -⟩ := Ty.placed.inj hty
    have hcall : c.valueWith resolve
        (gate (.within (overOp site')) (mkTuple [F, e]) (.place q site' false)) = (do
          let function ← c.valueWith resolve F
          let value ← c.valueWith resolve e
          c.typed (function.mkCall value)) := by
      rw [valueWith_gate hg hmode]
      cases site' <;> rfl
    intro ls hk
    rw [hcall, valueWith_inert hF, pure_bind]
    refine gives_bind
      ((hwire he ((argument hscoped).element (by simp)) hety ls hk).mono fun a ls' hk' _ ha => ?_)
    have hok : F.mkCall a = .ok (.call F a q) :=
      mkCall_ok.mpr ⟨p, q, hFty, ha.ty ▸ Ty.standsFor_self p, rfl⟩
    rw [hok]
    refine gives_pure hk' ⟨scoped_call hF.mono ha.typed hFty (ha.ty ▸ Ty.standsFor_self p), ?_, rfl⟩
    exact bare_call.mpr ⟨(Ty.isPlaced_func.mp (hFty ▸ hF.bare.unplaced)).2, hF.bare, ha.bare⟩
  | @zip site' es ms hne hes hms =>
    obtain ⟨rfl, rfl, -⟩ := Ty.placed.inj hty
    have htuple : c.valueWith resolve
        (gate (.within (zipOp site')) (mkTuple es) (.place (.tuple ms) site' false)) =
        (do return mkTuple (← Slice.sequence (es.map (c.valueWith resolve)))) := by
      rw [valueWith_gate hg hmode]
      cases site' <;> rfl
    rw [htuple]
    obtain ⟨hlen, hmember⟩ := zip_forall hms
    refine offers_tuple (List.forall₂_map_left_iff.mpr (forall₂_of_zip hlen fun p hp => ?_))
    obtain ⟨hmem, -⟩ := List.of_mem_zip hp
    obtain ⟨b', hb'⟩ := hmember p hp
    exact hwire (hes _ hmem) ((argument hscoped).element hmem) hb'
  | nothing =>
    obtain ⟨rfl, rfl, -⟩ := Ty.placed.inj hty
    have hvalue : c.valueWith resolve
        (gate (.within .valueAtServer) Expr.unit (.atCoordinator .empty)) = pure Expr.unit :=
      (valueWith_gate hg hmode).trans (unlessInert_inert inert_unit)
    rw [hvalue]
    exact offers_pure (fit_inert inert_unit)
  | broadcast | aggregation => simp at hcross

theorem Netted.local_unique (hw : Netted Γ w cs) {g g' : Expr} (hg : (x, g) ∈ w.locals)
    (hg' : (x, g') ∈ w.locals) : g = g' :=
  (Prod.mk.inj (List.inj_on_of_nodup_map hw.chain.nodup hg hg' rfl)).2

theorem Lists.step? (hv : Lists v y s d w.locals r) (hw : Netted Γ w cs) (hg : (x, g) ∈ w.locals) :
    ∃ step, v.step? x = some step ∧ Stepped step (x, g) := by
  obtain ⟨step, hstep, h⟩ := forall₂_mem hv.steps.flip hg
  have hfound : (v.step? x).isSome = true := List.find?_isSome.mpr ⟨step, hstep, by simp [h.name]⟩
  obtain ⟨step', hstep'⟩ := Option.isSome_iff_exists.mp hfound
  obtain ⟨l, hl, h'⟩ := forall₂_mem hv.steps (List.mem_of_find?_eq_some hstep')
  obtain ⟨x', g'⟩ := l
  obtain rfl : x' = x := h'.name.symm.trans (by simpa using List.find?_some hstep')
  exact ⟨step', hstep', hw.local_unique hg hl ▸ h'⟩

theorem kept_snoc (hk : Kept Δ ns ls) (he : Fit Δ ls e m) (hx : x ∉ (scope Δ ls).map Prod.fst)
    (hg : (x, g) ∈ ns) (hty : g.ty = .placed m site b) : Kept Δ ns (ls ++ [(x, e)]) where
  chain := chain_snoc.mpr ⟨hk.chain, hx, he.typed⟩
  bare := by simpa [or_imp, forall_and] using ⟨fun y e' he' => hk.bare (y, e') he', he.bare⟩
  member := by
    intro l hl
    rcases List.mem_append.mp hl with hl | hl
    · exact hk.member l hl
    · obtain rfl := List.mem_singleton.mp hl
      exact ⟨g, site, b, hg, by rw [hty, he.ty]⟩

theorem Kept.fit_ref (hk : Kept Δ ns ls) (hx : (x, e) ∈ ls) : Fit Δ ls (.ref x e.ty) e.ty :=
  ⟨scoped_ref (hk.chain.lookup hx), bare_ref.mpr (hk.bare (x, e) hx).unplaced, rfl⟩

/-- A local of the netlist is one of the slot's inputs, one of its locals, or becomes one. -/
theorem Serves.local_ {resolve : Step → SliceM Expr} {p q : List (String × Expr)}
    (hs : Serves v s d Δ w.locals avail site c) (hw : Netted [(y, inputsType s d)] w cs)
    (hv : Lists v y s d w.locals r) (hpre : pre <+: avail) (hsplit : pre = p ++ (x, g) :: q)
    (hty : g.ty = .placed m site b)
    (hresolve : crossing? g = none → ∀ step, Stepped step (x, g) →
      ∀ ls, Kept Δ w.locals ls → x ∉ ls.map Prod.fst →
      Gives Δ w.locals pre (resolve step) ls fun e ls' => Fit Δ ls' e m) :
    Offers Δ w.locals pre (c.valueWith resolve (.ref x (.placed m site b))) m := by
  have hmem : (x, g) ∈ pre := by simp [hsplit]
  have hlocal : (x, g) ∈ w.locals := hs.initial.subset (hpre.subset hmem)
  intro ls hk
  have hvalue : c.valueWith resolve (.ref x (.placed m site b)) =
      c.reference resolve (.ref x (.placed m site b)) x := IsWire.ref.unlessInert rfl
  rw [hvalue]
  unfold Slice.reference
  cases hin : c.inputs.lookup x with
  | some input =>
    obtain ⟨g', b', hg', hty', hfit⟩ := hs.inputs x input hin
    obtain rfl := hw.local_unique hlocal hg'
    obtain ⟨rfl, -, -⟩ := Ty.placed.inj (hty.symm.trans hty')
    exact gives_pure hk (hfit.of_nil hk)
  | none =>
    refine gives_bind ⟨ls, [], by simp, by simp, by simpa using hk, ?_⟩
    rw [List.append_nil]
    cases hl : ls.lookup x with
    | some e =>
      have he : (x, e) ∈ ls := by
        obtain ⟨l₁, l₂, rfl, -⟩ := List.lookup_eq_some_iff.mp hl
        simp
      obtain ⟨g', site', b', hg', hty'⟩ := hk.member (x, e) he
      obtain rfl := hw.local_unique hlocal hg'
      obtain ⟨rfl, -, -⟩ := Ty.placed.inj (hty.symm.trans hty')
      simp only [hl]
      exact gives_pure hk (hk.fit_ref he)
    | none =>
      have hcross : crossing? g = none := by
        by_contra hne
        obtain ⟨e, he⟩ := hs.supplied (x, g) (hpre.subset hmem)
          (Option.isSome_iff_ne_none.mpr hne) ⟨m, b, hty⟩
        simp [hin] at he
      obtain ⟨step, hstep, h⟩ := hv.step? hw hlocal
      have hparam : x ≠ c.view.param := by
        rw [hs.view, hv.param]
        rintro rfl
        exact hw.chain.not_mem (List.mem_map_of_mem hlocal) (by simp)
      have hboundary : step.boundary = none := by
        have := h.op
        simpa [Step.op?, hcross] using this
      have hx : x ∉ ls.map Prod.fst := lookup_eq_none.mp hl
      simp only [hl, if_neg hparam]
      simp only [hs.view, hstep, hboundary]
      exact hresolve hcross step h ls hk hx

theorem Serves.resolved {depth : Nat} {step : Step} {p q : List (String × Expr)}
    (hs : Serves v s d Δ w.locals avail site c) (hw : Netted Γ w cs) (hpre : pre <+: avail)
    (hsplit : pre = p ++ (x, g) :: q) (hty : g.ty = .placed m site b) (hstep : Stepped step (x, g))
    (hg : Offers Δ w.locals p (c.valueWith (c.resolve depth) g) m) (hk : Kept Δ w.locals ls)
    (hx : x ∉ ls.map Prod.fst) :
    Gives Δ w.locals pre (c.resolve (depth + 1) step) ls fun e ls' => Fit Δ ls' e m := by
  have hlocals : ∀ l ∈ pre, l ∈ w.locals := fun l hl => hs.initial.subset (hpre.subset hl)
  have hlocal : (x, g) ∈ w.locals := hlocals _ (by simp [hsplit])
  obtain ⟨e, ds, hr, hds, hk', hfit⟩ := hg ls hk
  -- The new locals have names from before `x`, so none of them is `x`.
  have hfresh : x ∉ (scope Δ (ls ++ ds)).map Prod.fst := by
    rw [mem_scope, List.map_append, List.mem_append]
    rintro ((hx' | hx') | hx')
    · exact hx hx'
    · obtain ⟨l, hl, rfl⟩ := List.mem_map.mp hx'
      have hnodup := hw.chain.nodup.sublist ((hpre.trans hs.initial).sublist.map Prod.fst)
      rw [hsplit, List.map_append] at hnodup
      exact List.disjoint_of_nodup_append hnodup (hds l hl) (by simp)
    · exact hs.apart x hx' (List.mem_map_of_mem hlocal)
  have hkept := kept_snoc hk' hfit hfresh hlocal hty
  refine ⟨.ref x e.ty, ds ++ [(x, e)], ?_, fun l hl => ?_, by simpa using hkept, ?_⟩
  · simp only [Slice.resolve, hstep.value, hstep.name, Slice.bind, Traced.run_bind_ok,
      Traced.run_lift_ok, Traced.run_modify_ok, Traced.run_pure_ok]
    exact ⟨e, _, hr, (), _, ⟨Traced.note_ok, rfl⟩, (), _, rfl, by simp⟩
  · rcases List.mem_append.mp hl with hl | hl
    · obtain ⟨l', hl', heq⟩ := List.mem_map.mp (hds l hl)
      exact List.mem_map.mpr ⟨l', by simp [hsplit, hl'], heq⟩
    · obtain rfl := List.mem_singleton.mp hl
      simp [hsplit]
  · rw [← List.append_assoc, ← hfit.ty]
    exact hkept.fit_ref (by simp)

/-- Every wire can be followed. The induction is on the depth, which the wires before a gate leave
room for. -/
theorem Serves.wire {depth : Nat} (hs : Serves v s d Δ w.locals avail site c)
    (hw : Netted [(y, inputsType s d)] w cs) (hv : Lists v y s d w.locals r) (hpre : pre <+: avail)
    (hd : pre.length ≤ depth) (hwire : IsWire e) (he : e.Scoped (scope [(y, inputsType s d)] pre))
    (hty : e.ty = .placed m site b) :
    Offers Δ w.locals pre (c.valueWith (c.resolve depth) e) m := by
  induction depth using Nat.strong_induction_on generalizing pre e m b with
  | h depth ih =>
    cases hwire with
    | select => exact hs.element hw hv (hpre.trans hs.initial) he hty
    | @ref x t =>
      obtain rfl : t = .placed m site b := hty
      obtain ⟨u, hu⟩ := he.bound (z := x) (by simp)
      obtain rfl := typed_ref.mp he.typed u hu
      rcases hw.variable (hpre.trans hs.initial) hu with
        ⟨-, hinputs⟩ | ⟨g, p, q, hsplit, hgty, hgate, hscoped⟩
      · cases hinputs
      · have hlen : pre.length = p.length + 1 + q.length := by
          rw [hsplit, List.length_append, List.length_cons]
          omega
        obtain ⟨k, rfl⟩ : ∃ k, depth = k + 1 := ⟨depth - 1, by omega⟩
        have hp : p <+: avail := (hsplit ▸ List.prefix_append p _ : p <+: pre).trans hpre
        refine hs.local_ hw hv hpre hsplit hgty fun hcross step hstep ls hk hx => ?_
        refine hs.resolved hw hpre hsplit hgty hstep ?_ hk hx
        exact offers_gate hs.mode (fun hwire he hty => ih k (by omega) hp (by omega) hwire he hty)
          hgate hscoped hcross hgty

end Serves

end TwoTier.Synthesis

import TwoTier.Round.View
import TwoTier.Proofs.Meaning

/-! # The steps of a round

Collecting the steps of a round keeps track of its values: every step means the value that the round
has for it, and so does the result in the end. Names of steps are distinct.
-/

namespace TwoTier.Round

open Expr

/-- A step stands for the cell: it has the cell's name, and its expression means the cell's
value. -/
structure Step.Denotes (s : Setting) (Z : Prop) (C : List Cell) (step : Step)
    (c : Cell) : Prop where
  name : step.name = c.name
  ty : step.value.ty = c.ty
  boundary : step.value.boundary? = .ok step.boundary
  means : Means s Z C step.value c.value

/-- The cells of the round's parameter and of the steps so far. Names of steps are new or, if
`reserved` for the round's own, among those already `bound`. -/
structure Flow.Tracks (s : Setting) (Z : Prop) (reserved : List String) (param : Cell)
    (bound : List String) (flow : Flow) (C : List Cell) : Prop where
  steps : List.Forall₂ (Step.Denotes s Z (param :: C)) flow.steps C
  nodup : ((param :: C).map Cell.name).Nodup
  used : ∀ c ∈ C, c.name ∈ flow.names.used
  reserved_used : ∀ x ∈ reserved, x ∈ flow.names.used
  mem_bound : ∀ c ∈ C, c.name ∈ reserved → c.name ∈ bound
  param_reserved : param.name ∈ reserved

variable {s : Setting} {Z : Prop} {reserved bound : List String} {param : Cell} {flow flow' : Flow}
  {C : List Cell} {e e' : Expr} {v : Value} {x : String}

namespace FlowM

theorem push_ok (h : ((push x e).run flow).result = .ok ((), flow')) :
    ∃ step : Step, step.name = x ∧ step.value = e ∧ e.boundary? = .ok step.boundary ∧
    flow' = { flow with steps := flow.steps ++ [step] } := by
  simp only [push, Traced.run_bind_ok, Traced.run_lift_ok, Traced.ofExcept_ok, except_mapError_ok,
    Traced.run_modify_ok] at h
  obtain ⟨b, _, ⟨hb, rfl⟩, rfl⟩ := h
  exact ⟨_, rfl, rfl, hb, rfl⟩

end FlowM

namespace Flow.Tracks

theorem widen {bound' : List String} (h : flow.Tracks s Z reserved param bound C)
    (hb : ∀ z ∈ bound, z ∈ bound') :
    flow.Tracks s Z reserved param bound' C :=
  { h with mem_bound := fun c hc hr => hb _ (h.mem_bound c hc hr) }

theorem push (h : flow.Tracks s Z reserved param bound C) (hm : Means s Z (param :: C) e v)
    (hx : x ∉ (param :: C).map Cell.name)
    (hused : x ∈ flow.names.used) (hbound : x ∈ reserved → x ∈ bound)
    (hp : ((FlowM.push x e).run flow).result = .ok ((), flow')) :
    flow'.Tracks s Z reserved param bound (C ++ [⟨x, e.ty, v⟩]) := by
  obtain ⟨step, rfl, rfl, hb, rfl⟩ := FlowM.push_ok hp
  have hC : ∀ c ∈ param :: C, c ∈ param :: (C ++ [⟨step.name, step.value.ty, v⟩]) := by
    intro c hc
    rw [← List.cons_append]
    exact List.mem_append_left _ hc
  refine ⟨List.rel_append ?_ (.cons ⟨rfl, rfl, hb, hm.mono hC⟩ .nil), ?_, ?_, h.reserved_used, ?_,
    h.param_reserved⟩
  · exact h.steps.imp fun _ _ hd => ⟨hd.name, hd.ty, hd.boundary, hd.means.mono hC⟩
  · rw [← List.cons_append, List.map_append, List.nodup_append]
    exact ⟨h.nodup, by simp, fun y hy z hz => by
      simp only [List.map_cons, List.map_nil, List.mem_singleton] at hz
      rintro rfl
      exact hx (hz ▸ hy)⟩
  · intro c hc
    rcases List.mem_append.mp hc with hc | hc
    · exact h.used c hc
    · rw [List.mem_singleton.mp hc]
      exact hused
  · intro c hc
    rcases List.mem_append.mp hc with hc | hc
    · exact h.mem_bound c hc
    · rw [List.mem_singleton.mp hc]
      exact hbound

/-- A call that stays or becomes a step means the same either way. -/
theorem settle {top : Bool} (h : flow.Tracks s Z reserved param bound C)
    (hm : Means s Z (param :: C) e v)
    (hs : ((FlowM.settle top e).run flow).result = .ok (e', flow')) :
    ∃ D, flow'.Tracks s Z reserved param bound (C ++ D) ∧ Means s Z (param :: (C ++ D)) e' v ∧
    e'.ty = e.ty := by
  have stays : ((pure e : FlowM Expr).run flow).result = .ok (e', flow') → ∃ D, flow'.Tracks s Z
      reserved param bound (C ++ D) ∧ Means s Z (param :: (C ++ D)) e' v ∧ e'.ty = e.ty := by
    intro h'
    obtain ⟨rfl, rfl⟩ := Prod.mk.inj (Traced.run_pure_ok.mp h')
    exact ⟨[], by simpa using h, by simpa using hm, rfl⟩
  unfold FlowM.settle at hs
  split at hs
  · rename_i uri _
    split at hs
    · simp only [Traced.run_bind_ok, Traced.run_get_ok, Traced.run_modify_ok,
        Traced.run_pure_ok] at hs
      obtain ⟨_, _, ⟨rfl, rfl⟩, _, _, rfl, _, _, hnote, _, _, hpush, hr⟩ := hs
      obtain ⟨-, rfl⟩ := Traced.run_lift_ok.mp hnote
      obtain ⟨rfl, rfl⟩ := Prod.mk.inj hr
      obtain ⟨y, names, hf⟩ : ∃ y names, flow.names.fresh (FlowM.stepName uri) = (y, names) :=
        ⟨_, _, rfl⟩
      simp only [hf] at hpush ⊢
      have hy := Names.fresh_not_mem hf
      have hnames : ∀ z ∈ flow.names.used, z ∈ names.used :=
        fun z hz => (Names.mem_fresh hf).mpr (.inr hz)
      have h' : (⟨flow.steps, names⟩ : Flow).Tracks s Z reserved param bound C :=
        ⟨h.steps, h.nodup, fun c hc => hnames _ (h.used c hc),
          fun z hz => hnames z (h.reserved_used z hz), h.mem_bound, h.param_reserved⟩
      refine ⟨[⟨y, e.ty, v⟩], h'.push hm ?_ ((Names.mem_fresh hf).mpr (.inl rfl)) ?_ hpush,
        Means.ref (c := ⟨y, e.ty, v⟩) (by simp) hm.inhabits, rfl⟩
      · simp only [List.map_cons, List.mem_cons, List.mem_map, not_or, not_exists, not_and]
        exact ⟨fun hyp => hy (hyp ▸ h.reserved_used _ h.param_reserved),
          fun c hc hyc => hy (hyc ▸ h.used c hc)⟩
      · exact fun hr => absurd (h.reserved_used y hr) hy
    · exact stays hs
  · exact stays hs

/-- Lifting nested calls of `e` keeps its meaning `v`, also if there are more cells than `C` when
its turn comes. -/
def Lifts (s : Setting) (Z : Prop) (reserved : List String) (param : Cell) (bound : List String)
    (C : List Cell) (e : Expr) (v : Value) : Prop :=
  ∀ {B : List Cell} {flow flow' : Flow} {top : Bool} {e' : Expr}, (∀ c ∈ C, c ∈ B) →
    flow.Tracks s Z reserved param bound B → ((FlowM.lift top e).run flow).result =
    .ok (e', flow') → ∃ D, flow'.Tracks s Z reserved param bound (B ++ D) ∧
    Means s Z (param :: (B ++ D)) e' v ∧ e'.ty = e.ty

theorem liftList {es es' : List Expr} {vs : List Value} {B : List Cell}
    (hlen : es.length = vs.length) (hes : ∀ p ∈ es.zip vs, Lifts s Z reserved param bound C p.1 p.2)
    (hB : ∀ c ∈ C, c ∈ B) (h : flow.Tracks s Z reserved param bound B)
    (hl : ((FlowM.liftList es).run flow).result = .ok (es', flow')) :
    ∃ D, flow'.Tracks s Z reserved param bound (B ++ D) ∧ es'.length = vs.length ∧
      es'.map Expr.ty = es.map Expr.ty ∧
      ∀ p ∈ es'.zip vs, Means s Z (param :: (B ++ D)) p.1 p.2 := by
  induction es generalizing vs B flow es' with
  | nil =>
    obtain ⟨rfl, rfl⟩ := Prod.mk.inj (Traced.run_pure_ok.mp hl)
    exact ⟨[], by simpa using h, hlen, rfl, by simp⟩
  | cons e es ih =>
    obtain ⟨v, vs, rfl⟩ := List.exists_cons_of_length_eq_add_one hlen.symm
    simp only [FlowM.liftList, Traced.run_bind_ok] at hl
    obtain ⟨e₁, flow₁, he, es₁, flow₂, hl, hr⟩ := hl
    obtain ⟨rfl, rfl⟩ := Prod.mk.inj (Traced.run_pure_ok.mp hr)
    obtain ⟨D, hD, hm, hty⟩ := hes (e, v) (by simp) hB h he
    obtain ⟨D', hD', hlen', htys, hes'⟩ := ih (by simpa using hlen)
      (fun p hp => hes p (by simp [hp])) (fun c hc => List.mem_append_left D (hB c hc)) hD hl
    refine ⟨D ++ D', by simpa using hD', by simp [hlen'], by simp [hty, htys], ?_⟩
    rw [← List.append_assoc]
    simp only [List.zip_cons_cons, List.forall_mem_cons]
    exact ⟨hm.mono fun c hc => by rw [← List.cons_append]; exact List.mem_append_left _ hc, hes'⟩

/-- By induction on how the expression means its value. -/
theorem lift (hm : Means s Z (param :: C) e v) : Lifts s Z reserved param bound C e v := by
  have hcons : ∀ {A B : List Cell}, (∀ c ∈ A, c ∈ B) → ∀ c ∈ param :: A, c ∈ param :: B :=
    fun h c hc => by simp only [List.mem_cons] at hc ⊢; exact hc.imp_right (h c)
  have stays : ∀ {e : Expr} {v : Value}, Means s Z (param :: C) e v →
      (∀ top, FlowM.lift top e = pure e) → Lifts s Z reserved param bound C e v := by
    intro e v hm hpure B flow flow' top e' hB h hl
    rw [hpure] at hl
    obtain ⟨rfl, rfl⟩ := Prod.mk.inj (Traced.run_pure_ok.mp hl)
    exact ⟨[], by simpa using h, by simpa using hm.mono (hcons hB), rfl⟩
  induction hm with
  | ref hc hv => exact stays (.ref hc hv) fun _ => rfl
  | lit => exact stays .lit fun _ => rfl
  | builtin ht => exact stays (.builtin ht) fun _ => rfl
  | @whole e v hw ht hv hrun =>
    exact stays (.whole hw ht hv hrun) fun _ => by cases e <;> cases hw <;> rfl
  | tuple hlen _ ih =>
    intro B flow flow' top e' hB h hl
    simp only [FlowM.lift, Traced.run_bind_ok] at hl
    obtain ⟨es', flow₁, hl, hr⟩ := hl
    obtain ⟨rfl, rfl⟩ := Prod.mk.inj (Traced.run_pure_ok.mp hr)
    obtain ⟨D, hD, hlen', hty, hes'⟩ := liftList hlen ih hB h hl
    refine ⟨D, hD, ?_, rfl⟩
    rw [← hty]
    exact .tuple hlen' hes'
  | select hts ht _ hv ih =>
    intro B flow flow' top e' hB h hl
    simp only [FlowM.lift, Traced.run_bind_ok] at hl
    obtain ⟨e₁, flow₁, hl, hr⟩ := hl
    obtain ⟨rfl, rfl⟩ := Prod.mk.inj (Traced.run_pure_ok.mp hr)
    obtain ⟨D, hD, hm, hty⟩ := ih hB h hl
    exact ⟨D, hD, .select (hty.trans hts) ht hm hv, rfl⟩
  | intrinsic ho hr hz _ hv ih =>
    intro B flow flow' top e' hB h hl
    simp only [FlowM.lift, Traced.run_bind_ok] at hl
    obtain ⟨a', flow₁, hl, hs⟩ := hl
    obtain ⟨D, hD, hm, hty⟩ := ih hB h hl
    rw [← hty] at hs hr hz hv
    obtain ⟨D', hD', hm', hty'⟩ := hD.settle (.intrinsic ho hr hz hm hv) hs
    exact ⟨D ++ D', by simpa using hD', by simpa using hm', hty'⟩
  | call hf hacc hg _ hv _ ih =>
    intro B flow flow' top e' hB h hl
    simp only [FlowM.lift, Traced.run_bind_ok] at hl
    obtain ⟨a', flow₁, hl, hs⟩ := hl
    obtain ⟨D, hD, hm, hty⟩ := ih hB h hl
    rw [← hty] at hacc
    have hg' := hg.mono (hcons fun c hc => List.mem_append_left D (hB c hc))
    obtain ⟨D', hD', hm', hty'⟩ := hD.settle (.call hf hacc hg' hm hv) hs
    exact ⟨D ++ D', by simpa using hD', by simpa using hm', hty'⟩
  | force hf hg hv _ =>
    intro B flow flow' top e' hB h hl
    exact h.settle (.force hf (hg.mono (hcons hB)) hv) hl

theorem locals {Γ : List (String × Ty)} {σ σ' : Env}
    {m m' : Subst} {ls : List (String × Expr)} {r : Expr} {t : Ty}
    (h : flow.Tracks s Z reserved param bound C) (hk : Known s Z (param :: C) Γ σ m)
    (hls : (Expr.block ls r t).Typed Γ) (hz : Z → (Expr.block ls r t).zipsNothing = false)
    (hb : Binds s σ ls σ') (hbound : ∀ z r, m.lookup z = some r → z ∈ bound)
    (hparam : param.name ∈ bound) (hnew : ∀ x ∈ ls.map Prod.fst, x ∈ reserved)
    (hfirst : firstRepeated? bound (ls.map Prod.fst) = none)
    (hl : ((FlowM.locals m ls).run flow).result = .ok (m', flow')) :
    ∃ bound' D Γ', flow'.Tracks s Z reserved param bound' (C ++ D) ∧
    Known s Z (param :: (C ++ D)) Γ' σ' m' ∧
      r.Typed Γ' ∧ (Z → r.zipsNothing = false) ∧ t = r.ty := by
  induction ls generalizing Γ σ m bound C flow with
  | nil =>
    obtain ⟨rfl, rfl⟩ := Prod.mk.inj (Traced.run_pure_ok.mp hl)
    obtain rfl := hb
    obtain ⟨hr, ht⟩ := typed_block_nil.mp hls
    exact ⟨bound, [], Γ, by simpa using h, by simpa using hk, hr,
      fun hZ => zipsNothing_block_nil.mp (hz hZ), ht⟩
  | cons l ls ih =>
    obtain ⟨x, e⟩ := l
    obtain ⟨he, hls⟩ := typed_block_cons.mp hls
    obtain ⟨u, hu, hb⟩ := hb
    have hzip : Z → e.zipsNothing = false ∧ (Expr.block ls r t).zipsNothing = false := fun hZ =>
      zipsNothing_block_cons.mp (hz hZ)
    simp only [List.map_cons, firstRepeated?] at hfirst
    split at hfirst
    · cases hfirst
    rename_i hx
    simp only [FlowM.locals, Traced.run_bind_ok] at hl
    obtain ⟨e₁, flow₁, hlift, hl⟩ := hl
    have hinh := hk.inhabits he hu
    obtain ⟨D, hD, hm, hty⟩ := lift (hk.means_subst he (fun hZ => (hzip hZ).1) hu)
      (fun _ h => h) h hlift
    rw [(hk.typed_subst he).2] at hty
    have hk' : Known s Z (param :: (C ++ D)) Γ σ m := hk.mono fun c hc => by
      rw [← List.cons_append]
      exact List.mem_append_left D hc
    have hD' := hD.widen fun z hz => List.mem_cons_of_mem x hz
    have hm' : m.lookup x = none := by
      cases hl : m.lookup x with
      | none => rfl
      | some r => exact absurd (hbound x r hl) hx
    have hxr : x ∈ reserved := hnew x (by simp)
    split at hl
    · simp only [Traced.run_bind_ok] at hl
      obtain ⟨_, flow₂, hpush, hl⟩ := hl
      have hxC : x ∉ (param :: (C ++ D)).map Cell.name := by
        simp only [List.map_cons, List.mem_cons, List.mem_map, not_or, not_exists, not_and]
        exact ⟨fun hxp => hx (hxp ▸ hparam),
          fun c hc hxc => hx (hxc ▸ hD.mem_bound c hc (hxc ▸ hxr))⟩
      have hpushed := hD'.push hm hxC (hD.reserved_used x hxr) (fun _ => by simp) hpush
      have himage : m.image x e.ty = .ref x e.ty := by simp [Subst.image, hm']
      have hknown :
          Known s Z (param :: (C ++ D ++ [⟨x, e₁.ty, u⟩])) ((x, e.ty) :: Γ) ((x, u) :: σ) m := by
        refine (hk'.mono fun c hc => ?_).bind hinh (fun _ _ => rfl) ?_ ?_
        · rw [← List.cons_append]
          exact List.mem_append_left _ hc
        · rw [himage, ← hty]
          exact Means.ref (c := ⟨x, e₁.ty, u⟩) (by simp) hm.inhabits
        · rw [himage, ty_ref]
      obtain ⟨bound', D', Γ', hT, hK, hr⟩ := ih hpushed hknown hls (fun hZ => (hzip hZ).2) hb
        (fun z r hz => List.mem_cons_of_mem x (hbound z r hz)) (List.mem_cons_of_mem x hparam)
        (fun z hz => hnew z (by simp [hz])) hfirst hl
      exact ⟨bound', D ++ [⟨x, e₁.ty, u⟩] ++ D', Γ', by simpa using hT, by simpa using hK, hr⟩
    · simp only [Traced.run_bind_ok] at hl
      obtain ⟨_, flow₂, hnote, hl⟩ := hl
      obtain ⟨-, rfl⟩ := Traced.run_lift_ok.mp hnote
      have himage : (m.insert x e₁).image x e.ty = e₁ := by simp [Subst.image, Subst.lookup_insert]
      have hknown : Known s Z (param :: (C ++ D)) ((x, e.ty) :: Γ) ((x, u) :: σ) (m.insert x e₁) :=
        hk'.bind hinh (fun z hz => by simp [Subst.lookup_insert, hz]) (himage.symm ▸ hm)
          (himage.symm ▸ hty)
      obtain ⟨bound', D', Γ', hT, hK, hr⟩ := ih hD' hknown hls (fun hZ => (hzip hZ).2) hb
        (fun z r hz => by
          rw [Subst.lookup_insert] at hz
          split at hz
          · simp_all
          · exact List.mem_cons_of_mem x (hbound z r hz)) (List.mem_cons_of_mem x hparam)
        (fun z hz => hnew z (by simp [hz])) hfirst hl
      exact ⟨bound', D ++ D', Γ', by simpa using hT, by simpa using hK, hr⟩

end Flow.Tracks

/-- The view of a round that was run: its parameter, its steps and its result mean the values that
they have in the run. -/
structure View.Denotes (s : Setting) (Z : Prop) (v : View) (param : Cell) (C : List Cell)
    (result : Value) : Prop where
  param_name : param.name = v.param
  inputs : inputs? param.ty = some (v.state, v.data)
  steps : List.Forall₂ (Step.Denotes s Z (param :: C)) v.steps C
  nodup : ((param :: C).map Cell.name).Nodup
  used : ∀ c ∈ param :: C, c.name ∈ v.names.used
  result : Means s Z (param :: C) v.result result

theorem runs_bodyParts {env : Env} {body : Expr} {v : Value} : Runs s (.expr env body) v ↔
    ∃ env', Binds s env (bodyParts body).1 env' ∧ Runs s (.expr env' (bodyParts body).2) v := by
  unfold bodyParts
  split
  · exact runs_block
  · simp [Binds]

theorem typed_bodyParts {Γ : List (String × Ty)} {body : Expr} (h : body.Typed Γ) :
    (Expr.block (bodyParts body).1 (bodyParts body).2 body.ty).Typed Γ := by
  unfold bodyParts
  split
  · exact h
  · exact typed_block_nil.mpr ⟨h, rfl⟩

theorem zipsNothing_bodyParts {body : Expr} (h : body.zipsNothing = false) :
    (Expr.block (bodyParts body).1 (bodyParts body).2 body.ty).zipsNothing = false := by
  unfold bodyParts
  split
  · exact h
  · exact zipsNothing_block_nil.mpr h

theorem mem_allNames_bodyParts {body : Expr} {x : String}
    (h : x ∈ (bodyParts body).1.map Prod.fst) :
    x ∈ body.allNames := by
  unfold bodyParts at h
  split at h
  · simp only [List.mem_map] at h
    obtain ⟨l, hl, rfl⟩ := h
    rw [mem_allNames_block]
    grind
  · simp at h

theorem View.ofRound_denotes {round : Expr} {template : Template} {view : View}
    {f input result : Value} (h : (View.ofRound round template).result = .ok view)
    (hr : round.Typed []) (hz : Z → round.zipsNothing = false) (hf : Runs s (.expr [] round) f)
    (hinput : ∀ p t, round.ty = .func p t → Inhabits s p input)
    (hv : Runs s (.call f (some input)) result) :
    ∃ param C, view.Denotes s Z param C result ∧ param.value = input ∧
    round.ty = .func param.ty view.result.ty := by
  unfold View.ofRound at h
  simp only at h
  split at h
  · rename_i x body p t
    split at h
    · exact absurd h Traced.fail_ok
    rename_i state data hinputs
    split at h
    · exact absurd h Traced.fail_ok
    rename_i hfirst
    simp only [Traced.bind_ok, Traced.run_bind_ok, Traced.pure_ok] at h
    obtain ⟨⟨e', flow'⟩, ⟨m, flow, hl, hlift⟩, rfl⟩ := h
    obtain ⟨p', hbody, hp⟩ := typed_lambda.mp hr
    obtain ⟨rfl, rfl⟩ := Ty.func.inj hp
    obtain rfl := runs_lambda.mp hf
    obtain ⟨σ, hb, hres⟩ := runs_bodyParts.mp (runs_closure.mp hv)
    have hinh : Inhabits s p input := hinput p body.ty rfl
    let param : Cell := ⟨x, p, input⟩
    have hstart : (⟨[], Names.avoiding (.lambda (some x) body (.func p body.ty))⟩ : Flow).Tracks s Z
        (Expr.lambda (some x) body (.func p body.ty)).allNames param [x] [] :=
      ⟨.nil, by simp, by simp,
        fun z hz => Names.mem_avoiding.mpr hz, by simp, by simp [allNames_lambda, param]⟩
    have hknown : Known s Z [param] [(x, p)] [(x, input)] [] := by
      refine Known.bind ⟨by simp, by simp⟩ hinh (fun _ _ => rfl) ?_ rfl
      exact Means.ref (c := param) (by simp) hinh
    obtain ⟨bound, C, Γ, hT, hK, hrt, hrz, hty⟩ := hstart.locals hknown (typed_bodyParts hbody)
      (fun hZ => zipsNothing_bodyParts (zipsNothing_lambda.mp (hz hZ))) hb
      (by simp) (by simp [param])
      (fun z hz => by rw [allNames_lambda]; simp [mem_allNames_bodyParts hz]) hfirst hl
    obtain ⟨D, hD, hmeans, hty'⟩ :=
      Flow.Tracks.lift (hK.means_subst hrt hrz hres) (fun _ h => h) hT hlift
    refine ⟨param, C ++ D, ⟨rfl, hinputs, hD.steps, hD.nodup, fun c hc => ?_, hmeans⟩, rfl, ?_⟩
    · rcases List.mem_cons.mp hc with rfl | hc
      · exact hD.reserved_used _ hD.param_reserved
      · exact hD.used c hc
    · simp only [ty_lambda, param, hty', (hK.typed_subst hrt).2, hty]
  · exact absurd h Traced.fail_ok

end TwoTier.Round

import TwoTier.Proofs.Alike

/-! # Substitution preserves meaning

Where the replacements evaluate to the values of what they replace, an expression evaluates to the
same data after substitution. This takes no types, but it takes that functions with a parameter are
called on an argument: without one, a body reads the parameter's name in the variables around the
function.
-/

namespace TwoTier

open Filter

variable {s : Setting}

namespace Expr

variable {m m' : Subst} {avoid avoid' scope : List String} {e : Expr} {x y : String}

theorem image_of_isEmpty (hm : m.isEmpty = true) (z : String) (t : Ty) :
    m.image z t = .ref z t := by
  simp [Subst.image, Subst.lookup_of_isEmpty hm]

theorem rebinds_self (hm : m.isEmpty = true) : Rebinds m x e x m where
  self t := ⟨t, image_of_isEmpty hm x t⟩
  other _ _ _ _ := rfl
  free z t _ hzx := by simpa [image_of_isEmpty hm] using Ne.symm hzx

theorem replaced_tuple {es es' : List Expr} {t t' : Ty} (h : List.Forall₂ (Replaced m) es es') :
    Replaced m (.tuple es t) (.tuple es' t') := by
  obtain ⟨hl, h⟩ := zip_forall h
  exact .tuple hl h

theorem replaced_self (hm : m.isEmpty = true) : Replaced m e e := by
  induction e with
  | ref x t => simpa [image_of_isEmpty hm] using Replaced.ref (m := m) (x := x) (t := t)
  | lit => exact .lit
  | intrinsic => exact .intrinsic
  | builtin => exact .builtin
  | tuple es t ih =>
    exact replaced_tuple (List.forall₂_same.mpr ih)
  | select e i t ih => exact .select ih
  | call f a t ihf iha => exact .call ihf iha
  | force f t ih => exact .force ih
  | lambda x e t ih =>
    cases x with
    | none => exact .delay ih
    | some x => exact .lambda (rebinds_self hm) ih
  | block ls r t ihl ihr =>
    induction ls with
    | nil => exact .blockNil ihr
    | cons l ls ih =>
      exact .blockCons (ihl l (by simp)) (rebinds_self hm) (ih fun l hl => ihl l (by simp [hl]))

theorem Under.rebinds {p : Ty} (h : Under m avoid x p scope m' avoid' y)
    (hs : ∀ z, e.Refers z → z ∈ scope) :
    Rebinds m x e y m' where
  self := h.image_self
  other z t _ hzx := by rw [Subst.image, h.other z hzx, Subst.image]
  free z t hz hzx hy := by
    cases hl : m.lookup z with
    | none =>
      simp only [Subst.image, hl, Option.getD_none, refers_ref] at hy
      exact h.stays z hzx (hs z hz) hy.symm
    | some r =>
      simp only [Subst.image, hl, Option.getD_some] at hy
      exact h.fresh z r hzx hl hy

theorem replaced_replace (hm : m.Avoids avoid) : Replaced m e (e.replace m avoid) := by
  induction e generalizing m avoid with
  | ref x t => exact .ref
  | lit => exact .lit
  | intrinsic => exact .intrinsic
  | builtin => exact .builtin
  | tuple es t ih =>
    rw [Expr.replace, replaceList_eq]
    exact replaced_tuple
      (List.forall₂_map_right_iff.mpr (List.forall₂_same.mpr fun e he => ih e he hm))
  | select e i t ih => exact .element (ih hm)
  | call f a t ihf iha => exact .call (ihf hm) (iha hm)
  | force f t ih => exact .force (ih hm)
  | lambda x e t ih =>
    cases x with
    | none => exact .delay (ih hm)
    | some x =>
      obtain ⟨p, m', avoid', y, -, under, hreplace⟩ := exists_replace_lambda hm x e t
      rw [hreplace]
      refine .lambda (under.rebinds fun z hz => hz.mem_allNames) ?_
      split
      case isTrue hempty => exact replaced_self hempty
      case isFalse => exact ih under.avoids
  | block ls r t ihl ihr =>
    have key :
        ∀ scope, (∀ z ∈ (Expr.block ls r t).allNames, z ∈ scope) → ∀ t', Replaced m (.block ls r t)
        (.block (replaceBlock m avoid scope ls r).1 (replaceBlock m avoid scope ls r).2 t') := by
      intro scope hscope t'
      induction ls generalizing m avoid with
      | nil => exact .blockNil (ihr hm)
      | cons l ls ih =>
        obtain ⟨x, e⟩ := l
        obtain ⟨m', avoid', y, under, hblock⟩ := exists_replaceBlock_cons hm x e ls r scope
        rw [hblock]
        refine .blockCons (ihl (x, e) (by simp) hm) (under.rebinds fun z hz => ?_)
          (ih (fun l hl => ihl l (by simp [hl])) under.avoids fun z hz => ?_)
        · exact hscope z (mem_allNames_block_cons hz.mem_allNames)
        · exact hscope z (mem_allNames_block_cons hz)
    cases ls with
    | nil => exact .result (ihr hm)
    | cons l ls => exact key _ (fun _ hz => hz) _

theorem replaced_subst : Replaced m e (e.subst m) := by
  unfold subst
  split
  case isTrue hempty => exact replaced_self hempty
  case isFalse => exact replaced_replace m.avoids_names

end Expr

section Runs

variable {σ τ : Env} {m m' : Subst} {e e' : Expr} {x y : String} {a b v w : Value}

/-- What `e` refers to in `σ` is replaced by expressions that present its value in `τ`, also where
other names mean something else. -/
def Provides (s : Setting) (σ τ : Env) (m : Subst) (e : Expr) : Prop :=
  ∀ z v t τ', e.Refers z → σ.lookup z = some v →
    (∀ n, (m.image z t).Refers n → τ'.lookup n = τ.lookup n) →
    Presents (Alike s) s (.expr τ' (m.image z t)) v

theorem Provides.mono (h : Provides s σ τ m e) (he : ∀ z, e'.Refers z → e.Refers z) :
    Provides s σ τ m e' :=
  fun z v t τ' hz => h z v t τ' (he z hz)

theorem provides_cons (hself : ∀ t, ∃ t', m.image x t = .ref y t')
    (hfree : ∀ z t, e.Refers z → z ≠ x → ¬ (m.image z t).Refers y)
    (h : ∀ z v t τ', e.Refers z → z ≠ x → σ.lookup z = some v →
      (∀ n, (m.image z t).Refers n → τ'.lookup n = τ.lookup n) →
      Presents (Alike s) s (.expr τ' (m.image z t)) v)
    (hab : Alike s a b) : Provides s ((x, a) :: σ) ((y, b) :: τ) m e := by
  intro z v t τ' hz hv hτ
  by_cases hzx : z = x
  · subst hzx
    obtain rfl : a = v := by simpa using hv
    obtain ⟨t', ht'⟩ := hself t
    rw [ht'] at hτ ⊢
    exact .other (by simp) (completes_ref ((hτ y (by simp)).trans (by simp))) hab
  · have hne : (z == x) = false := by simpa using hzx
    rw [List.lookup_cons, hne] at hv
    refine h z v t τ' hz hzx hv fun n hn => ?_
    have hny : (n == y) = false := by
      rw [beq_eq_false_iff_ne]
      rintro rfl
      exact hfree z t hz hzx hn
    simpa [List.lookup_cons, hny] using hτ n hn

theorem Provides.bind (h : Provides s σ τ m e) (hb : Rebinds m x e' y m')
    (he : ∀ z, e'.Refers z → z ≠ x → e.Refers z) (hab : Alike s a b) :
    Provides s ((x, a) :: σ) ((y, b) :: τ) m' e' := by
  refine provides_cons hb.self (fun z t hz hzx => ?_) (fun z v t τ' hz hzx => ?_) hab
  · rw [hb.other z t hz hzx]
    exact hb.free z t hz hzx
  · rw [hb.other z t hz hzx]
    exact h z v t τ' (he z hz hzx)

/-- What a run says about tasks like its own. -/
def Mirrored (s : Setting) : Task → Value → Prop
  | .expr σ e, v =>
    ∀ m τ e', Replaced m e e' → Provides s σ τ m e → Presents (Alike s) s (.expr τ e') v
  | .call f a, v => ∀ g b, Alike s f g → Option.Rel (Alike s) a b →
      ∃ w, Completes s (.call g b) w ∧ Alike s v w
  | .fold f total vs, v =>
    ∀ g total' vs', Alike s f g → Alike s total total' → List.Forall₂ (Alike s) vs vs' →
      ∃ w, Completes s (.fold g total' vs') w ∧ Alike s v w

/-- The free references of a function's body are replaced by what presents their values, whatever
its parameter is. -/
structure Encloses (s : Setting) (m : Subst) (e : Expr) (x : Option String) (σ : Env)
    (y : Option String) (τ : Env) : Prop where
  binder : Renames m x y
  free : ∀ z t, e.Refers z → some z ≠ x → ∀ n ∈ y, ¬ (m.image z t).Refers n
  values : ∀ z v t τ', e.Refers z → some z ≠ x → σ.lookup z = some v →
    (∀ n, (m.image z t).Refers n → τ'.lookup n = τ.lookup n) →
    Presents (Alike s) s (.expr τ' (m.image z t)) v

theorem encloses_self {x : Option String} : Encloses s [] e x σ x σ where
  binder := by
    cases x with
    | none => trivial
    | some x => exact fun t => ⟨t, rfl⟩
  free z t _ hzx n hn := by
    rw [Expr.image_of_isEmpty rfl, Expr.refers_ref]
    rintro rfl
    exact hzx hn.symm
  values z v t τ' _ _ hv hτ := by
    rw [Expr.image_of_isEmpty rfl] at hτ ⊢
    exact .other (by simp) (completes_ref ((hτ z (by simp)).trans hv)) .same

theorem Alike.of_closure {x : Option String} {g : Value} (h : Alike s (.closure x e σ) g) :
    ∃ y e' τ m, g = .closure y e' τ ∧ Replaced m e e' ∧ Encloses s m e x σ y τ := by
  cases h with
  | same => exact ⟨x, e, σ, [], rfl, Expr.replaced_self rfl, encloses_self⟩
  | closure hr hx hfree hv => exact ⟨_, _, _, _, rfl, hr, hx, hfree, hv⟩

theorem Encloses.enter {x y : Option String} {a b : Option Value} (h : Encloses s m e x σ y τ)
    (hab : Option.Rel (Alike s) a b) (ha : x.isSome = true → a.isSome = true) :
    Provides s (Env.enter x a σ) (Env.enter y b τ) m e := by
  cases x with
  | none =>
    cases y with
    | none => exact fun z v t τ' hz hv => h.values z v t τ' hz (by simp) hv
    | some y => exact h.binder.elim
  | some x =>
    cases y with
    | none => exact h.binder.elim
    | some y =>
      cases hab with
      | none => simp at ha
      | some hab =>
        exact provides_cons h.binder (fun z t hz hzx => h.free z t hz (by simpa using hzx) y rfl)
          (fun z v t τ' hz hzx => h.values z v t τ' hz (by simpa using hzx)) hab

theorem Provides.encloses (h : Provides s σ τ m (.lambda (some x) e t)) (hb : Rebinds m x e y m') :
    Encloses s m' e (some x) σ (some y) τ where
  binder := hb.self
  free z t hz hzx n hn := by
    cases hn
    rw [hb.other z t hz (by simpa using hzx)]
    exact hb.free z t hz (by simpa using hzx)
  values z v t τ' hz hzx hv hτ := by
    rw [hb.other z t hz (by simpa using hzx)] at hτ ⊢
    exact h z v t τ' (Expr.refers_lambda.mpr ⟨hz, hzx.symm⟩) hv hτ

theorem alike_getD {a b : Option Value} (h : Option.Rel (Alike s) a b) :
    Alike s (a.getD .empty) (b.getD .empty) := by
  cases h with
  | none => exact .same
  | some h => exact h

theorem Applied.argument {x : Option String} {a : Option Value}
    (h : Applied s (.call (.closure x e σ) a)) (hx : x.isSome = true) : a.isSome = true := by
  have happlied := h.isApplied
  cases x with
  | none => cases hx
  | some x =>
    cases a with
    | none => cases happlied
    | some a => rfl

theorem Encloses.isSome_eq {x y : Option String} (h : Encloses s m e x σ y τ) :
    y.isSome = x.isSome := by
  have hbinder := h.binder
  cases x <;> cases y <;> first | rfl | exact hbinder.elim

/-- A run that applies what it calls is mirrored. By induction on the run. -/
theorem Completes.mirrored {task : Task} (h : Completes s task v) : Mirrored s task v := by
  obtain ⟨hruns, happ⟩ := h
  induction hruns with
  | ref h =>
    rintro m τ _ ⟨⟩ hp
    exact hp _ _ _ τ (by simp) h fun _ _ => rfl
  | lit =>
    rintro m τ _ ⟨⟩ hp
    exact .other (by simp) (Runs.lit.completes (.inl rfl)) .same
  | tuple hl _ ih =>
    rintro m τ _ hr hp
    cases hr with
    | tuple hl' hes =>
      refine .tuple (hl'.symm.trans hl) fun p hp' => ?_
      obtain ⟨i, hi⟩ := List.getElem?_of_mem hp'
      rw [List.getElem?_zip_eq_some] at hi
      obtain ⟨e, he, hrun⟩ := forall₂_getElem? (forall₂_of_zip hl' hes).flip hi.1
      have hmem : (e, p.2) ∈ List.zip _ _ :=
        List.mem_of_getElem? (List.getElem?_zip_eq_some.mpr ⟨he, hi.2⟩)
      have hmem' := List.mem_of_getElem? he
      exact ih _ hmem (happ.step (.element hmem') rfl) m τ _ hrun
        (hp.mono fun z hz => Expr.refers_tuple.mpr ⟨e, hmem', hz⟩)
  | select _ hi ih =>
    rintro m τ _ hr hp
    have hsource := ih (happ.step .source rfl)
    cases hr with
    | select hr =>
      obtain ⟨_, hw, h⟩ := (hsource m τ _ hr (hp.mono fun z hz => by simpa using hz)).completes
      obtain ⟨ws, rfl, hws⟩ := alike_tuple.mp h
      obtain ⟨w, hi', h⟩ := forall₂_getElem? hws hi
      exact .other (by simp) (completes_select hw hi') h
    | element hr => exact (hsource m τ _ hr (hp.mono fun z hz => by simpa using hz)).selectOf hi
  | call hf ha _ ihf iha ihc =>
    rintro m τ _ hr hp
    cases hr with
    | call hrf hra =>
      obtain ⟨g', hg', hg⟩ :=
        (ihf (happ.step .function rfl) m τ _ hrf (hp.mono fun z hz => by simp [hz])).completes
      obtain ⟨b', hb', hb⟩ :=
        (iha (happ.step .argument rfl) m τ _ hra (hp.mono fun z hz => by simp [hz])).completes
      obtain ⟨w, hw, h⟩ := ihc (happ.step (.call hf ha) rfl) g' (some b') hg (.some hb)
      exact .other (by simp) (completes_call hg' hb' hw) h
  | force hf _ ihf ihc =>
    rintro m τ _ hr hp
    cases hr with
    | force hr =>
      obtain ⟨g', hg', hg⟩ :=
        (ihf (happ.step .thunk rfl) m τ _ hr (hp.mono fun z hz => by simpa using hz)).completes
      obtain ⟨w, hw, h⟩ := ihc (happ.step (.force hf) rfl) g' none hg .none
      exact .other (by simp) (completes_force hg' hw) h
  | lambda =>
    rintro m τ _ hr hp
    cases hr with
    | delay hr =>
      refine .other (by simp) (Runs.lambda.completes (.inr rfl)) (.closure hr trivial (by simp) ?_)
      exact fun z v t τ' hz _ => hp z v t τ' (by simpa using hz)
    | lambda hb hr =>
      have h := hp.encloses hb
      exact .other (by simp) (Runs.lambda.completes (.inr rfl))
        (.closure hr h.binder h.free h.values)
  | blockNil _ ih =>
    rintro m τ _ hr hp
    have hresult := ih (happ.step .result rfl)
    cases hr with
    | blockNil hr =>
      obtain ⟨w, hw, h⟩ := (hresult m τ _ hr (hp.mono fun z hz => by simpa using hz)).completes
      exact .other (by simp) (completes_block_nil hw) h
    | result hr => exact hresult m τ _ hr (hp.mono fun z hz => by simpa using hz)
  | blockCons he _ ihe ihr =>
    rintro m τ _ hr hp
    cases hr with
    | blockCons hre hb hr =>
      obtain ⟨u', hu', hu⟩ :=
        (ihe (happ.step .bound rfl) m τ _ hre (hp.mono fun z hz => by simp [hz])).completes
      obtain ⟨w, hw, h⟩ := (ihr (happ.step (.rest he) rfl) _ _ _ hr
        (hp.bind hb (fun z hz hzx => by simp [hz, hzx]) hu)).completes
      exact .other (by simp) (completes_block_cons hu' hw) h
  | intrinsic h =>
    rintro m τ _ ⟨⟩ hp
    exact .other (by simp) ((Runs.intrinsic h).completes (.inl rfl)) .same
  | builtin =>
    rintro m τ _ ⟨⟩ hp
    exact .other (by simp) (Runs.builtin.completes (.inl rfl)) .same
  | closure _ ih =>
    rintro _ b hg hab
    obtain ⟨y, e', τ, m, rfl, hr, henc⟩ := hg.of_closure
    obtain ⟨w, hw, h⟩ :=
      (ih (happ.step .body rfl) m _ e' hr (henc.enter hab happ.argument)).completes
    refine ⟨w, completes_closure (fun hy => ?_) hw, h⟩
    have hsome := happ.argument (henc.isSome_eq.symm.trans hy)
    cases hab with
    | none => exact hsome
    | some => rfl
  | arithmetic h =>
    rintro _ b hg hab
    cases hg
    exact ⟨_, completes_builtin (.arithmetic (alike_applyBuiltin h (alike_getD hab))), .same⟩
  | plain hop h =>
    rintro _ b hg hab
    cases hg
    obtain ⟨w, hw, h⟩ := alike_plain hop ((runs_plain hop).mpr h) (alike_getD hab)
    exact ⟨w, completes_plain hop (.plain hop ((runs_plain hop).mp hw)), h⟩
  | @mapClients _ f vs ws hl _ ih =>
    rintro _ _ hg hab
    cases hg
    cases hab with
    | some hab =>
      obtain ⟨_, rfl, _ | ⟨hf, _ | ⟨hvs, ⟨⟩⟩⟩⟩ := alike_tuple.mp hab
      obtain ⟨us, rfl, hus⟩ := alike_atClients.mp hvs
      have hcalls : List.Forall₂ (fun v w => Mirrored s (.call f (some v)) w) vs ws :=
        forall₂_of_zip hl fun p hp => ih p hp (happ.step (.participant (List.of_mem_zip hp).1) rfl)
      obtain ⟨ws, hws, h⟩ := forall₂_carry hcalls hus fun v w u hw hu => hw _ _ hf (.some hu)
      exact ⟨_, completes_mapClients hws, .atClients h⟩
  | mapServer ho _ ih =>
    rintro _ _ hg hab
    cases hg
    cases hab with
    | some hab =>
      obtain ⟨_, rfl, _ | ⟨hf, _ | ⟨hv, ⟨⟩⟩⟩⟩ := alike_tuple.mp hab
      obtain ⟨u, rfl, hu⟩ := alike_atServer.mp hv
      have hcall := ih (happ.step .coordinator (by rcases ho with rfl | rfl <;> rfl))
      obtain ⟨w, hw, h⟩ := hcall _ _ hf (.some hu)
      exact ⟨_, completes_mapServer ho hw, .atServer h⟩
  | @aggregate _ vs parts zero accumulate _ _ _ _ hl hp ht _ ihp iht ihr =>
    rintro _ _ hg hab
    cases hg
    cases hab with
    | some hab =>
      obtain ⟨_, rfl, _ | ⟨hvs, _ | ⟨hz, _ | ⟨ha, _ | ⟨hm, _ | ⟨hr, ⟨⟩⟩⟩⟩⟩⟩⟩ := alike_tuple.mp hab
      obtain ⟨us, rfl, hus⟩ := alike_atClients.mp hvs
      have hparts : List.Forall₂ (fun us part => Runs s (.fold accumulate zero us) part) _ parts :=
        forall₂_of_zip hl hp
      have hfolds :
          List.Forall₂ (fun us part => Mirrored s (.fold accumulate zero us) part) _ parts :=
        forall₂_of_zip hl fun p hp => ihp p hp (happ.step (.accumulate (List.of_mem_zip hp).1) rfl)
      obtain ⟨parts', hparts', hp'⟩ := forall₂_carry hfolds (forall₂_groupsFrom hus s.groupSize 0)
        fun _ _ _ hw hus => hw _ _ _ ha hz hus
      obtain ⟨total', htotal', htotal⟩ :=
        iht (happ.step (.merge hparts) rfl) _ _ _ hm (forall₂_headD hp' hz) (forall₂_tail hp')
      obtain ⟨w, hw, h⟩ := ihr (happ.step (.report ⟨_, hparts, ht⟩) rfl) _ _ hr (.some htotal)
      exact ⟨_, completes_aggregate hparts' htotal' hw, .atServer h⟩
  | foldNil =>
    rintro g total' _ hg ht ⟨⟩
    exact ⟨total', completes_fold_nil, ht⟩
  | foldCons hc _ ihc ihf =>
    rintro g total' _ hg ht (_ | ⟨hv, hvs⟩)
    obtain ⟨u', hu', hu⟩ :=
      ihc (happ.step .combine rfl) g _ hg (.some (.tuple (.cons ht (.cons hv .nil))))
    obtain ⟨w, hw, h⟩ := ihf (happ.step (.items hc) rfl) g u' _ hg hu hvs
    exact ⟨w, completes_fold_cons hu' hw, h⟩

end Runs

section Substitution

variable {env : Env} {m : Subst} {vs : List Value} {e : Expr} {v : Value}

/-- The variables with the replaced names set to the values of their replacements. -/
def Env.set (env : Env) (m : Subst) (vs : List Value) : Env :=
  (m.zip vs).map (fun p => (p.1.1, p.2)) ++ env

theorem lookup_set {R : Expr → Value → Prop} (h : List.Forall₂ (fun r v => R r.2 v) m vs)
    (z : String) : (m.lookup z = none ∧ (env.set m vs).lookup z = env.lookup z) ∨
      ∃ r v, m.lookup z = some r ∧ (env.set m vs).lookup z = some v ∧ R r v := by
  induction h with
  | nil => exact .inl ⟨rfl, rfl⟩
  | @cons r v m vs hr _ ih =>
    have hset : env.set (r :: m) (v :: vs) = (r.1, v) :: env.set m vs := rfl
    have hr' : r = (r.1, r.2) := rfl
    rw [hset, hr', List.lookup_cons, List.lookup_cons]
    cases z == r.1 with
    | true => exact .inr ⟨_, _, rfl, rfl, hr⟩
    | false => exact ih

theorem Completes.presents {τ : Env} (h : Completes s (.expr env e) v)
    (hτ : ∀ n, e.Refers n → τ.lookup n = env.lookup n) : Presents (Alike s) s (.expr τ e) v := by
  refine h.mirrored [] τ e (Expr.replaced_self rfl) fun z u t τ' hz hu hτ' => ?_
  rw [Expr.image_of_isEmpty rfl] at hτ' ⊢
  exact .other (by simp) (completes_ref (((hτ' z (by simp)).trans (hτ z hz)).trans hu)) .same

theorem provides_set (h : List.Forall₂ (fun r v => Completes s (.expr env r.2) v) m vs) :
    Provides s (env.set m vs) env m e := by
  intro z v t τ _ hv hτ
  rcases lookup_set (R := fun r v => Completes s (.expr env r) v) h z with
    ⟨hz, hl⟩ | ⟨r, u, hz, hl, hr⟩
  · simp only [Subst.image, hz, Option.getD_none] at hτ ⊢
    exact .other (by simp) (completes_ref ((hτ z (by simp)).trans (hl.symm.trans hv))) .same
  · obtain rfl : u = v := Option.some.inj (hl.symm.trans hv)
    simp only [Subst.image, hz, Option.getD_some] at hτ ⊢
    exact hr.presents hτ

/-- Substitution means the same as setting the names to the values of what replaces them. -/
theorem subst_preserves {k : Nat}
    (hm : List.Forall₂ (fun r v =>
      (∃ n, (Eval.expr s n env r.2).result = .ok v) ∧ Applied s (.expr env r.2)) m vs)
    (he : (Eval.expr s k (env.set m vs) e).result = .ok v)
    (happlied : Applied s (.expr (env.set m vs) e)) (hv : v.isData = true) :
    ∃ n₀, ∀ n ≥ n₀, (Eval.expr s n env (e.subst m)).result = .ok v := by
  have hrun : Completes s (.expr (env.set m vs) e) v := ⟨(runs_of_eval k).1 he, happlied⟩
  have hprovides : Provides s (env.set m vs) env m e := by
    refine provides_set (hm.imp fun r v h => ?_)
    obtain ⟨⟨n, hn⟩, happlied⟩ := h
    exact ⟨(runs_of_eval n).1 hn, happlied⟩
  obtain ⟨w, hw, hlike⟩ := (hrun.mirrored m env _ Expr.replaced_subst hprovides).runs
  rw [hlike.eq_of_isData hv] at hw
  exact eventually_atTop.mp hw.eval

def pairing : Expr :=
  .call (.mkLambda "y" .int32 (.mkTuple [.ref "x" .int32, .ref "y" .int32])) (.int 2)
    (.tuple [.int32, .int32])

/-- A replacement that mentions the parameter's name is not captured. -/
theorem subst_preserves_pairing :
    ∃ n₀, ∀ n ≥ n₀, (Eval.expr ⟨1, 1⟩ n [("y", .int 1)]
      (pairing.subst [("x", .ref "y" .int32)])).result = .ok (.tuple [.int 1, .int 2]) := by
  have happlied : Applied ⟨1, 1⟩
      (.expr (Env.set [("y", .int 1)] [("x", .ref "y" .int32)] [.int 1]) pairing) := by
    refine applied_call (applied_leaf (.inr rfl)) (applied_leaf (.inl rfl)) fun g b hg _ => ?_
    cases hg
    refine applied_closure (fun _ => rfl) (applied_tuple fun e he => applied_leaf (.inl ?_))
    rcases List.mem_pair.mp he with rfl | rfl <;> rfl
  exact subst_preserves (k := 9) (.cons ⟨⟨9, rfl⟩, applied_leaf (.inl rfl)⟩ .nil) rfl happlied rfl

def argumentless : Expr :=
  .force (.mkLambda "x" .int32 (.ref "x" .int32)) .int32

/-- Called without an argument, a function's body reads its parameter's name in the variables around
the function, where substitution takes the name to be bound. -/
theorem subst_unapplied :
    (Eval.expr ⟨1, 1⟩ 9 [] (Expr.int 7)).result = .ok (.int 7) ∧
      (Eval.expr ⟨1, 1⟩ 9 (Env.set [] [("x", .int 7)] [.int 7]) argumentless).result =
      .ok (.int 7) ∧
      ∀ n, (Eval.expr ⟨1, 1⟩ n [] (argumentless.subst [("x", .int 7)])).result ≠ .ok (.int 7) := by
  refine ⟨rfl, rfl, fun n h => ?_⟩
  have hruns : Runs ⟨1, 1⟩ (.expr [] argumentless) (.int 7) := (runs_of_eval n).1 h
  obtain ⟨g, hg, hcall⟩ := runs_force.mp hruns
  cases hg
  cases hcall with
  | closure hbody => cases runs_ref.mp hbody

end Substitution

end TwoTier

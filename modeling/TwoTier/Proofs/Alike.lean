import TwoTier.Proofs.Independence
import TwoTier.Proofs.Application
import TwoTier.Proofs.Substitution

/-! # Values alike up to substitution

Two closures are alike if the body of the second is that of the first with its free references
replaced, by expressions that evaluate to something alike. No types are involved. Arithmetic and the
intrinsics that call no function take alike arguments to alike results.
-/

namespace TwoTier

variable {s : Setting} {τ : Env} {m m' : Subst} {e e' : Expr} {x y : String} {v w : Value}

/-- Below the binder `x` of `e`, which is renamed to `y`, other references are replaced as before,
without capture. -/
structure Rebinds (m : Subst) (x : String) (e : Expr) (y : String) (m' : Subst) : Prop where
  self : ∀ t, ∃ t', m'.image x t = .ref y t'
  other : ∀ z t, e.Refers z → z ≠ x → m'.image z t = m.image z t
  free : ∀ z t, e.Refers z → z ≠ x → ¬ (m.image z t).Refers y

/-- The second expression is the first one with its free references replaced. Binders may be
renamed, and selections from tuple literals and blocks without locals may be folded. -/
inductive Replaced : Subst → Expr → Expr → Prop where
  | ref {m : Subst} {x : String} {t : Ty} : Replaced m (.ref x t) (m.image x t)
  | lit {m : Subst} {a : Literal} {t : Ty} : Replaced m (.lit a t) (.lit a t)
  | intrinsic {m : Subst} {uri : String} {t : Ty} : Replaced m (.intrinsic uri t) (.intrinsic uri t)
  | builtin {m : Subst} {b : Builtin} {t : Ty} : Replaced m (.builtin b t) (.builtin b t)
  | tuple {m : Subst} {es es' : List Expr} {t t' : Ty} : es.length = es'.length →
      (∀ p ∈ es.zip es', Replaced m p.1 p.2) → Replaced m (.tuple es t) (.tuple es' t')
  | select {m : Subst} {e e' : Expr} {i : Nat} {t t' : Ty} : Replaced m e e' →
      Replaced m (.select e i t) (.select e' i t')
  | element {m : Subst} {e e' : Expr} {i : Nat} {t t' : Ty} : Replaced m e e' →
      Replaced m (.select e i t) (e'.selectOf i t')
  | call {m : Subst} {f f' a a' : Expr} {t t' : Ty} : Replaced m f f' → Replaced m a a' →
      Replaced m (.call f a t) (.call f' a' t')
  | force {m : Subst} {f f' : Expr} {t t' : Ty} :
      Replaced m f f' → Replaced m (.force f t) (.force f' t')
  | delay {m : Subst} {e e' : Expr} {t t' : Ty} :
      Replaced m e e' → Replaced m (.lambda none e t) (.lambda none e' t')
  | lambda {m m' : Subst} {x y : String} {e e' : Expr} {t t' : Ty} :
      Rebinds m x e y m' → Replaced m' e e' →
      Replaced m (.lambda (some x) e t) (.lambda (some y) e' t')
  | blockNil {m : Subst} {r r' : Expr} {t t' : Ty} :
      Replaced m r r' → Replaced m (.block [] r t) (.block [] r' t')
  | result {m : Subst} {r r' : Expr} {t : Ty} : Replaced m r r' → Replaced m (.block [] r t) r'
  | blockCons {m m' : Subst} {x y : String} {e e' r r' : Expr} {ls ls' : List (String × Expr)}
      {t t' : Ty} : Replaced m e e' → Rebinds m x (.block ls r t) y m' →
      Replaced m' (.block ls r t) (.block ls' r' t') →
      Replaced m (.block ((x, e) :: ls) r t) (.block ((y, e') :: ls') r' t')

/-- `e` evaluates under `τ` to something related to `v`, in a run that applies what it calls. Of a
tuple literal this is asked of each element by itself, since a selection may keep just one of
them. -/
inductive Presents (R : Value → Value → Prop) (s : Setting) : Task → Value → Prop where
  | tuple {τ : Env} {es : List Expr} {t : Ty} {vs : List Value} : es.length = vs.length →
      (∀ p ∈ es.zip vs, Presents R s (.expr τ p.1) p.2) →
      Presents R s (.expr τ (.tuple es t)) (.tuple vs)
  | other {τ : Env} {e : Expr} {v w : Value} :
      (∀ es t, e ≠ .tuple es t) → Completes s (.expr τ e) w →
      R v w → Presents R s (.expr τ e) v

def Renames (m : Subst) : Option String → Option String → Prop
  | none, none => True
  | some x, some y => ∀ t, ∃ t', m.image x t = .ref y t'
  | _, _ => False

inductive Alike (s : Setting) : Value → Value → Prop where
  | same {v : Value} : Alike s v v
  | tuple {vs ws : List Value} : List.Forall₂ (Alike s) vs ws → Alike s (.tuple vs) (.tuple ws)
  | seq {vs ws : List Value} : List.Forall₂ (Alike s) vs ws → Alike s (.seq vs) (.seq ws)
  | atServer {v w : Value} : Alike s v w → Alike s (.atServer v) (.atServer w)
  | atClients {vs ws : List Value} :
      List.Forall₂ (Alike s) vs ws → Alike s (.atClients vs) (.atClients ws)
  | closure {x y : Option String} {e e' : Expr} {σ τ : Env} {m : Subst} :
      Replaced m e e' → Renames m x y →
      (∀ z t, e.Refers z → some z ≠ x → ∀ n ∈ y, ¬ (m.image z t).Refers n) →
      (∀ z v t τ', e.Refers z → some z ≠ x → σ.lookup z = some v →
        (∀ n, (m.image z t).Refers n → τ'.lookup n = τ.lookup n) →
        Presents (Alike s) s (.expr τ' (m.image z t)) v) →
      Alike s (.closure x e σ) (.closure y e' τ)

theorem alike_tuple {vs : List Value} :
    Alike s (.tuple vs) w ↔ ∃ ws, w = .tuple ws ∧ List.Forall₂ (Alike s) vs ws := by
  constructor
  · rintro (_ | h)
    · exact ⟨vs, rfl, List.forall₂_same.mpr fun _ _ => .same⟩
    · exact ⟨_, rfl, h⟩
  · rintro ⟨ws, rfl, h⟩
    exact .tuple h

theorem alike_seq {vs : List Value} :
    Alike s (.seq vs) w ↔ ∃ ws, w = .seq ws ∧ List.Forall₂ (Alike s) vs ws := by
  constructor
  · rintro (_ | _ | h)
    · exact ⟨vs, rfl, List.forall₂_same.mpr fun _ _ => .same⟩
    · exact ⟨_, rfl, h⟩
  · rintro ⟨ws, rfl, h⟩
    exact .seq h

theorem alike_atServer : Alike s (.atServer v) w ↔ ∃ u, w = .atServer u ∧ Alike s v u := by
  constructor
  · rintro (_ | _ | _ | h)
    · exact ⟨v, rfl, .same⟩
    · exact ⟨_, rfl, h⟩
  · rintro ⟨u, rfl, h⟩
    exact .atServer h

theorem alike_atClients {vs : List Value} :
    Alike s (.atClients vs) w ↔ ∃ ws, w = .atClients ws ∧ List.Forall₂ (Alike s) vs ws := by
  constructor
  · rintro (_ | _ | _ | _ | h)
    · exact ⟨vs, rfl, List.forall₂_same.mpr fun _ _ => .same⟩
    · exact ⟨_, rfl, h⟩
  · rintro ⟨ws, rfl, h⟩
    exact .atClients h

theorem Alike.eq_of_isData (h : Alike s v w) (hv : v.isData = true) : w = v := by
  have each : ∀ {vs ws : List Value}, (∀ v ∈ vs, ∀ {w}, Alike s v w → v.isData = true → w = v) →
      List.Forall₂ (Alike s) vs ws → Value.allData vs = true → ws = vs := by
    intro vs ws ih h hvs
    induction h with
    | nil => rfl
    | cons hvw _ iht =>
      simp only [Value.allData, Bool.and_eq_true] at hvs
      rw [ih _ (by simp) hvw hvs.1, iht (fun v hv => ih v (by simp [hv])) hvs.2]
  induction v generalizing w with
  | int | float | bool =>
    cases h
    rfl
  | tuple vs ih =>
    obtain ⟨ws, rfl, hvs⟩ := alike_tuple.mp h
    rw [each ih hvs hv]
  | seq vs ih =>
    obtain ⟨ws, rfl, hvs⟩ := alike_seq.mp h
    rw [each ih hvs hv]
  | atServer v ih =>
    obtain ⟨u, rfl, hu⟩ := alike_atServer.mp h
    rw [ih hu hv]
  | atClients vs ih =>
    obtain ⟨ws, rfl, hvs⟩ := alike_atClients.mp h
    rw [each ih hvs hv]
  | closure | builtin | intrinsic => simp [Value.isData] at hv

theorem Presents.completes {task : Task} (h : Presents (Alike s) s task v) :
    ∃ w, Completes s task w ∧ Alike s v w := by
  induction h with
  | @tuple τ es t vs hl _ ih =>
    have hes : List.Forall₂ (fun e v => ∃ w, Completes s (.expr τ e) w ∧ Alike s v w) es vs :=
      forall₂_of_zip hl ih
    obtain ⟨ws, hws, h⟩ := forall₂_choose hes fun _ _ _ h => h
    exact ⟨_, completes_tuple hws, .tuple h⟩
  | other _ hw h => exact ⟨_, hw, h⟩

theorem Presents.runs {task : Task} (h : Presents (Alike s) s task v) :
    ∃ w, Runs s task w ∧ Alike s v w :=
  h.completes.imp fun _ h => ⟨h.1.runs, h.2⟩

theorem Presents.selectOf {vs : List Value} {i : Nat} {t : Ty}
    (h : Presents (Alike s) s (.expr τ e) (.tuple vs)) (hv : vs[i]? = some v) :
    Presents (Alike s) s (.expr τ (e.selectOf i t)) v := by
  cases h with
  | @tuple _ es u _ hl h =>
    obtain ⟨e, he⟩ : ∃ e, es[i]? = some e :=
      ⟨_, List.getElem?_eq_getElem (by have := (List.getElem?_eq_some_iff.mp hv).1; omega)⟩
    have hp : (e, v) ∈ es.zip vs :=
      List.mem_of_getElem? (i := i) (by simp [List.getElem?_zip_eq_some, he, hv])
    simpa [Expr.selectOf, List.getD_eq_getElem?_getD, he] using h _ hp
  | other he hw h =>
    have hsel : e.selectOf i t = .select e i t := by
      unfold Expr.selectOf
      split
      · exact absurd rfl (he _ _)
      · rfl
    rw [hsel]
    obtain ⟨ws, rfl, hws⟩ := alike_tuple.mp h
    obtain ⟨w, hw', h⟩ := forall₂_getElem? hws hv
    exact .other (by simp) (completes_select hw hw') h

namespace Value

theorem data_of_combine {op : Builtin} {a b : Value} (h : combine op a b = .ok v) :
    a.isData = true ∧ b.isData = true := by
  induction a generalizing b v with
  | tuple as ih =>
    cases b with
    | tuple bs =>
      simp only [combine] at h
      split at h
      · rename_i hl
        obtain ⟨vs, hvs, -⟩ := except_map_ok.mp h
        simp only [isData]
        clear h
        induction as generalizing bs vs with
        | nil =>
          obtain rfl := List.eq_nil_of_length_eq_zero hl.symm
          exact ⟨rfl, rfl⟩
        | cons a as iha =>
          obtain ⟨b, bs, rfl⟩ := List.exists_cons_of_length_eq_add_one hl.symm
          simp only [combineAll, except_bind_ok, except_pure_ok] at hvs
          obtain ⟨u, hu, us, hus, -⟩ := hvs
          obtain ⟨ha, hb⟩ := ih a (by simp) hu
          obtain ⟨has, hbs⟩ := iha (fun a ha => ih a (by simp [ha])) bs (by simpa using hl) us hus
          simp [allData, ha, hb, has, hbs]
      · simp at h
    | _ => simp [combine] at h
  | int | float => cases b <;> first | exact ⟨rfl, rfl⟩ | simp [combine] at h
  | _ => simp [combine] at h

theorem data_of_sum {total : Value} {items : List Value} (h : sum total items = .ok v) :
    ∀ u ∈ items, u.isData = true := by
  induction items generalizing total with
  | nil => simp
  | cons u us ih =>
    simp only [sum, except_bind_ok] at h
    obtain ⟨total', htotal', h⟩ := h
    exact List.forall_mem_cons.mpr ⟨(data_of_combine htotal').2, ih h⟩

theorem data_of_leafwise {f : Int → Int → Except EvalFault Int} {p : Value}
    (h : leafwise f v p = .ok w) :
    v.isData = true ∧ p.isData = true ∧ w.isData = true := by
  induction v generalizing p w with
  | int x =>
    simp only [leafwise, except_bind_ok, integer_ok, except_pure_ok] at h
    obtain ⟨_, rfl, _, -, rfl⟩ := h
    exact ⟨rfl, rfl, rfl⟩
  | tuple vs ih =>
    cases p with
    | int p =>
      obtain ⟨ws, hws, rfl⟩ := except_map_ok.mp h
      simp only [isData, true_and]
      clear h
      induction vs generalizing ws with
      | nil =>
        cases hws
        exact ⟨rfl, rfl⟩
      | cons v vs ihv =>
        simp only [leafwiseAll, except_bind_ok, except_pure_ok] at hws
        obtain ⟨w, hw, ws, hws, rfl⟩ := hws
        obtain ⟨hv, -, hw⟩ := ih v (by simp) hw
        obtain ⟨hvs, hws⟩ := ihv (fun v hv => ih v (by simp [hv])) ws hws
        simp [allData, hv, hw, hvs, hws]
    | tuple ps =>
      simp only [leafwise] at h
      split at h
      · rename_i hl
        obtain ⟨ws, hws, rfl⟩ := except_map_ok.mp h
        simp only [isData]
        clear h
        induction vs generalizing ps ws with
        | nil =>
          obtain rfl := List.eq_nil_of_length_eq_zero hl.symm
          cases hws
          exact ⟨rfl, rfl, rfl⟩
        | cons v vs ihv =>
          obtain ⟨p, ps, rfl⟩ := List.exists_cons_of_length_eq_add_one hl.symm
          simp only [leafwiseEach, except_bind_ok, except_pure_ok] at hws
          obtain ⟨w, hw, ws, hws, rfl⟩ := hws
          obtain ⟨hv, hp, hw⟩ := ih v (by simp) hw
          obtain ⟨hvs, hps, hws⟩ :=
            ihv (fun v hv => ih v (by simp [hv])) ps (by simpa using hl) ws hws
          simp [allData, hv, hp, hw, hvs, hps, hws]
      · simp at h
    | _ => simp [leafwise] at h
  | _ => simp [leafwise] at h

theorem data_of_accept {op : Crossing} {p u : Value} (h : accept op p u = .ok w)
    (hw : w.isData = true) :
    u.isData = true := by
  unfold accept at h
  split at h
  · exact (data_of_leafwise h).1
  · cases h
    exact hw

theorem data_of_sumAdmitted {op : Crossing} {p total : Value} {us : List Value}
    (h : sumAdmitted op p total us = .ok v) (hv : v.isData = true) :
    total.isData = true ∧ ∀ u ∈ us, u.isData = true := by
  induction us generalizing total with
  | nil =>
    cases h
    exact ⟨hv, by simp⟩
  | cons u us ih =>
    simp only [sumAdmitted, except_bind_ok] at h
    obtain ⟨u', hu', total', htotal', h⟩ := h
    obtain ⟨ht, hu⟩ := data_of_combine htotal'
    exact ⟨ht, List.forall_mem_cons.mpr ⟨data_of_accept hu' hu, (ih h).2⟩⟩

theorem isData_sumAdmitted {op : Crossing} {p total : Value} {us : List Value}
    (h : sumAdmitted op p total us = .ok v) (ht : total.isData = true) : v.isData = true := by
  induction us generalizing total with
  | nil =>
    cases h
    exact ht
  | cons u us ih =>
    simp only [sumAdmitted, except_bind_ok] at h
    obtain ⟨_, -, total', htotal', h⟩ := h
    exact ih h (isData_combine htotal')

theorem data_of_secureSum {op : Crossing} (ho : op.secureChannel?.isSome = true) {t : Ty}
    {u p : Value} {us : List Value} (hu : u ≠ .tuple []) (h : secureSum op t (u :: us) p = .ok v) :
    u.isData = true ∧ (∀ u ∈ us, u.isData = true) ∧ p.isData = true ∧ v.isData = true := by
  have h : (do
      let first ← accept op p u
      let total ← sumAdmitted op p first us
      reduce op p total) = .ok v := by
    unfold secureSum at h
    split at h
    · simp_all
    · simp_all
    · simp_all
  simp only [except_bind_ok] at h
  obtain ⟨first, hfirst, total, htotal, h⟩ := h
  obtain ⟨hdata, hp, hv⟩ : total.isData = true ∧ p.isData = true ∧ v.isData = true := by
    cases op with
    | bitwidthSum | modularSum => exact data_of_leafwise h
    | boundedSum =>
      cases h
      obtain ⟨-, hp, hdata⟩ := data_of_leafwise hfirst
      exact ⟨isData_sumAdmitted htotal hdata, hp, isData_sumAdmitted htotal hdata⟩
    | broadcast | aggregate => simp [Crossing.secureChannel?] at ho
  obtain ⟨hfirst', hus⟩ := data_of_sumAdmitted htotal hdata
  exact ⟨data_of_accept hfirst hfirst', hus, hp, hv⟩

end Value

theorem alike_applyBuiltin {op : Builtin} {t : Ty} {a b : Value}
    (h : Value.applyBuiltin op t a = .ok v) (hab : Alike s a b) :
    Value.applyBuiltin op t b = .ok v := by
  suffices hdata : a.isData = true by rw [hab.eq_of_isData hdata, h]
  unfold Value.applyBuiltin at h
  split at h
  · split at h
    · simp only [except_bind_ok] at h
      obtain ⟨z, -, h⟩ := h
      exact Value.allData_iff.mpr (Value.data_of_sum h)
    · simp at h
  · simp only [except_bind_ok, Value.two_ok] at h
    obtain ⟨⟨a, b⟩, rfl, h⟩ := h
    simpa [Value.isData, Value.allData] using Value.data_of_combine h

theorem alike_secureSum {op : Crossing} (ho : op.secureChannel?.isSome = true) {t : Ty}
    {us us' : List Value} {p p' : Value} (h : Value.secureSum op t us p = .ok v)
    (hus : List.Forall₂ (Alike s) us us') (hp : Alike s p p') :
    Value.secureSum op t us' p' = .ok v ∧ v.isData = true := by
  cases hus with
  | nil =>
    simp only [Value.secureSum, Value.zeroOf, except_mapError_ok] at h ⊢
    exact ⟨h, Value.isData_zero h⟩
  | @cons u _ us _ hu hus =>
    by_cases hempty : u = .tuple []
    · subst hempty
      obtain ⟨_, rfl, ⟨⟩⟩ := alike_tuple.mp hu
      cases h
      exact ⟨rfl, rfl⟩
    · obtain ⟨hdata, hdatas, hdatap, hv⟩ := Value.data_of_secureSum ho hempty h
      obtain rfl := hu.eq_of_isData hdata
      obtain rfl := hp.eq_of_isData hdatap
      have hseq := (Alike.seq hus).eq_of_isData (Value.allData_iff.mpr hdatas)
      rw [Value.seq.inj hseq]
      exact ⟨h, hv⟩

section Plain

variable {t : Ty} {a b : Value}

theorem alike_zipAtServer (h : Runs s (.call (.intrinsic (.within .zipAtServer) t) (some a)) v)
    (hab : Alike s a b) :
    ∃ w, Runs s (.call (.intrinsic (.within .zipAtServer) t) (some b)) w ∧ Alike s v w := by
  obtain ⟨us, rfl, rfl⟩ := runs_zipAtServer.mp h
  obtain ⟨bs, rfl, hbs⟩ := alike_tuple.mp hab
  obtain ⟨ws, rfl, hws⟩ := forall₂_map_inv hbs fun _ _ h => alike_atServer.mp h
  exact ⟨_, runs_zipAtServer.mpr ⟨ws, rfl, rfl⟩, .atServer (.tuple hws)⟩

theorem alike_zipAtClients (h : Runs s (.call (.intrinsic (.within .zipAtClients) t) (some a)) v)
    (hab : Alike s a b) :
    ∃ w, Runs s (.call (.intrinsic (.within .zipAtClients) t) (some b)) w ∧ Alike s v w := by
  obtain ⟨columns, rows, rfl, rfl, hrows⟩ := runs_zipAtClients.mp h
  obtain ⟨bs, rfl, hbs⟩ := alike_tuple.mp hab
  obtain ⟨columns', rfl, hcolumns⟩ := forall₂_map_inv hbs fun _ _ h => alike_atClients.mp h
  have hrow : ∀ i ∈ List.range s.participants, ∀ row, (∃ us, row = .tuple us ∧
      List.Forall₂ (fun column u => column[i]? = some u) columns us) → ∃ row',
      (∃ us, row' = .tuple us ∧ List.Forall₂ (fun column u => column[i]? = some u) columns' us) ∧
        Alike s row row' := by
    rintro i - _ ⟨us, rfl, hus⟩
    obtain ⟨us', hus', h⟩ := forall₂_carry hus hcolumns fun _ _ _ hu h => forall₂_getElem? h hu
    exact ⟨_, ⟨us', rfl, hus'⟩, .tuple h⟩
  obtain ⟨rows', hrows', h⟩ := forall₂_choose hrows hrow
  exact ⟨_, runs_zipAtClients.mpr ⟨columns', rows', rfl, rfl, hrows'⟩, .atClients h⟩

theorem Alike.held (h : Alike s a b) : Alike s a.held b.held := by
  cases h with
  | same => exact .same
  | atServer h => exact h
  | tuple h => exact .tuple h
  | seq h => exact .seq h
  | atClients h => exact .atClients h
  | closure h₁ h₂ h₃ h₄ => exact .closure h₁ h₂ h₃ h₄

theorem alike_secureSums {op : Crossing} (ho : op.secureChannel?.isSome = true)
    (h : Runs s (.call (.intrinsic (.crossing op) t) (some a)) v) (hab : Alike s a b) :
    ∃ w, Runs s (.call (.intrinsic (.crossing op) t) (some b)) w ∧ Alike s v w := by
  obtain ⟨us, p, m, total, rfl, hm, htotal, rfl⟩ := (runs_secureSum ho).mp h
  obtain ⟨_, rfl, _ | ⟨hvalues, _ | ⟨hp, ⟨⟩⟩⟩⟩ := alike_tuple.mp hab
  obtain ⟨us', rfl, hus⟩ := alike_atClients.mp hvalues
  exact ⟨_, (runs_secureSum ho).mpr ⟨us', _, m, total, rfl, hm,
    (alike_secureSum ho htotal hus hp.held).1, rfl⟩, .same⟩

theorem alike_plain {op : Intrinsic} (hop : op.isPlain = true)
    (h : Runs s (.call (.intrinsic op t) (some a)) v) (hab : Alike s a b) :
    ∃ w, Runs s (.call (.intrinsic op t) (some b)) w ∧ Alike s v w := by
  rcases op with (_ | _ | _ | _ | _) | (_ | _ | _ | _ | _)
  case crossing.broadcast =>
    obtain ⟨u, rfl, rfl⟩ := runs_broadcast.mp h
    obtain ⟨u', rfl, hu⟩ := alike_atServer.mp hab
    exact ⟨_, runs_broadcast.mpr ⟨u', rfl, rfl⟩, .atClients (forall₂_replicate hu)⟩
  case crossing.bitwidthSum | crossing.boundedSum | crossing.modularSum =>
    exact alike_secureSums rfl h hab
  case within.zipAtClients => exact alike_zipAtClients h hab
  case within.zipAtServer => exact alike_zipAtServer h hab
  case within.valueAtServer =>
    obtain rfl := runs_valueAtServer.mp h
    exact ⟨_, runs_valueAtServer.mpr rfl, .atServer hab⟩
  all_goals cases hop

end Plain

end TwoTier

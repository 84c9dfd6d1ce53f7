import TwoTier.Proofs.Itemwise
import TwoTier.Proofs.Locality
import TwoTier.Proofs.Substitution
import TwoTier.Source.Elaboration

/-! # Elaborated expressions

What a syntax tree means, node by node. The types of what it means are regular: a value of the
coordinator is one value. Its recorded types are right, up to intrinsics that the tree itself gives
a type and calls on arguments that imply another one.
-/

namespace TwoTier

namespace Source

variable {scope scope' : Scope} {e : Expr} {span : Span} {x : Ident} {t : TypeTree} {ty : Ty}

attribute [local simp] TypeTree.toTy Tree.toExpr Tree.toLocals

theorem typed_ok {α : Type} {r : Except TypeFault α} {a : α} : typed span r = .ok a ↔ r = .ok a :=
  except_mapError_ok

theorem toTys_ok {ts : List TypeTree} {us : List Ty} :
    TypeTree.toTys ts = .ok us ↔ List.Forall₂ (fun t u => t.toTy = .ok u) ts us := by
  induction ts generalizing us with
  | nil => cases us <;> simp [TypeTree.toTys]
  | cons t ts ih =>
    simp only [TypeTree.toTys, except_bind_ok, except_pure_ok, ih, List.forall₂_cons_left_iff]
    constructor
    · rintro ⟨u, hu, us, hus, rfl⟩
      exact ⟨u, us, hu, hus, rfl⟩
    · rintro ⟨u, us, hu, hus, rfl⟩
      exact ⟨u, hu, us, hus, rfl⟩

theorem toTy_named : (TypeTree.named x span).toTy = .ok ty ↔ ∃ k, Scalar.ofName? x.name = some k ∧
    ty = .scalar k := by
  cases h : Scalar.ofName? x.name <;> simp [TypeTree.toTy, h, eq_comm]

theorem toTy_tuple {ts : List TypeTree} : (TypeTree.tuple ts span).toTy = .ok ty ↔
    ∃ us, List.Forall₂ (fun t u => t.toTy = .ok u) ts us ∧ ty = .tuple us := by
  simp only [TypeTree.toTy, except_bind_ok, except_pure_ok, toTys_ok, @eq_comm _ _ ty]

theorem toTy_seq : (TypeTree.seq t span).toTy = .ok ty ↔ ∃ u, t.toTy = .ok u ∧ ty = .seq u := by
  simp only [TypeTree.toTy, except_bind_ok, except_pure_ok, @eq_comm _ _ ty]

theorem toTy_func {r : TypeTree} : (TypeTree.func t r span).toTy = .ok ty ↔
    ∃ u, t.toTy = .ok u ∧ ∃ v, r.toTy = .ok v ∧ ty = .func u v := by
  simp only [TypeTree.toTy, except_bind_ok, except_pure_ok, @eq_comm _ _ ty]

theorem toTy_thunk : (TypeTree.thunk t span).toTy = .ok ty ↔ ∃ u, t.toTy = .ok u ∧
    ty = .thunk u := by
  simp only [TypeTree.toTy, except_bind_ok, except_pure_ok, @eq_comm _ _ ty]

theorem toTy_placed {allEqual : Bool} : (TypeTree.placed t x allEqual span).toTy = .ok ty ↔
    ∃ p, Placement.ofName? x.name = some p ∧ ∃ u, t.toTy = .ok u ∧ ty = .place u p allEqual := by
  cases h : Placement.ofName? x.name with
  | none => simp [TypeTree.toTy, h]
  | some p =>
    simp only [TypeTree.toTy, h, except_bind_ok, except_pure_ok, @eq_comm _ _ ty, Option.some.injEq,
      exists_eq_left']

theorem toExprs_ok {as : List Tree} {es : List Expr} :
    Tree.toExprs scope as = .ok es ↔ List.Forall₂ (fun a e => a.toExpr scope = .ok e) as es := by
  induction as generalizing es with
  | nil => cases es <;> simp [Tree.toExprs]
  | cons a as ih =>
    simp only [Tree.toExprs, except_bind_ok, except_pure_ok, ih, List.forall₂_cons_left_iff]
    constructor
    · rintro ⟨e, he, es, hes, rfl⟩
      exact ⟨e, es, he, hes, rfl⟩
    · rintro ⟨e, es, he, hes, rfl⟩
      exact ⟨e, he, es, hes, rfl⟩

theorem toExpr_name : (Tree.name x span).toExpr scope = .ok e ↔
    ∃ u, scope.lookup x.name = some u ∧ e = .ref x.name u := by
  simp only [Tree.toExpr, nameExpr]
  cases scope.lookup x.name with
  | some u => simp [eq_comm]
  | none => simp; grind

theorem toExpr_builtin :
    (Tree.builtin x t span).toExpr scope = .ok e ↔ ∃ b u, Builtin.ofName? x.name = some b ∧
    t.toTy = .ok u ∧ u.isNumeric = true ∧ e = .builtin b (.func (b.paramType u) u) := by
  simp only [Tree.toExpr]
  cases Builtin.ofName? x.name with
  | none => simp
  | some b => simp [typed_ok, Expr.mkBuiltin_ok]

theorem toExpr_tuple {as : List Tree} : (Tree.tuple as span).toExpr scope = .ok e ↔
    ∃ es, List.Forall₂ (fun a e => a.toExpr scope = .ok e) as es ∧ e = .mkTuple es := by
  simp only [Tree.toExpr, except_bind_ok, except_pure_ok, toExprs_ok, @eq_comm _ _ e]

theorem toExpr_select {a : Tree} {i : Nat} : (Tree.select a i span).toExpr scope = .ok e ↔
    ∃ e', a.toExpr scope = .ok e' ∧ ∃ ts u, e'.ty = .tuple ts ∧ ts[i]? = some u ∧
    e = .select e' i u := by
  simp [Tree.toExpr, typed_ok, Expr.mkSelect_ok]

/-- What a call of `f` on the arguments `es` means. -/
inductive Calls (scope : Scope) (f : Tree) (es : List Expr) : Expr → Prop where

  | intrinsic {op : Intrinsic} {a : Expr} {r : Ty} : calledIntrinsic? scope f = some op →
      (packed es).getD .unit = a → op.resultType a.ty = .ok r →
      Calls scope f es (.call (.intrinsic op.uri (.func a.ty r)) a r)

  | apply {g a : Expr} {p r : Ty} :
      calledIntrinsic? scope f = none → f.toExpr scope = .ok g → packed es = some a →
      g.ty = .func p r → p.accepts a.ty = true → Calls scope f es (.call g a r)

  | force {g : Expr} {r : Ty} :
      calledIntrinsic? scope f = none → f.toExpr scope = .ok g → packed es = none →
      g.ty = .thunk r → Calls scope f es (.force g r)

theorem toExpr_call {f : Tree} {as : List Tree} : (Tree.call f as span).toExpr scope = .ok e ↔
    ∃ es, List.Forall₂ (fun a e => a.toExpr scope = .ok e) as es ∧ Calls scope f es e := by
  simp only [Tree.toExpr, except_bind_ok, toExprs_ok]
  refine exists_congr fun es => and_congr_right fun _ => ?_
  cases hop : calledIntrinsic? scope f with
  | some op =>
    simp only [typed_ok, Expr.mkIntrinsicCall_ok]
    constructor
    · rintro ⟨r, hr, rfl⟩
      exact .intrinsic hop rfl hr
    · rintro (⟨hop', rfl, hr⟩ | ⟨hop', -, -, -, -⟩ | ⟨hop', -, -, -⟩)
      · cases hop.symm.trans hop'
        exact ⟨_, hr, rfl⟩
      all_goals cases hop.symm.trans hop'
  | none =>
    simp only [except_bind_ok, typed_ok]
    constructor
    · rintro ⟨g, hg, hcall⟩
      cases ha : packed es with
      | none =>
        obtain ⟨r, hr, rfl⟩ := Expr.mkForce_ok.mp (ha ▸ hcall)
        exact .force hop hg ha hr
      | some a =>
        obtain ⟨p, r, hp, hacc, rfl⟩ := Expr.mkCall_ok.mp (ha ▸ hcall)
        exact .apply hop hg ha hp hacc
    · rintro (⟨hop', -, -⟩ | ⟨-, hg, ha, hp, hacc⟩ | ⟨-, hg, ha, hr⟩)
      · cases hop.symm.trans hop'
      · exact ⟨_, hg, ha ▸ Expr.mkCall_ok.mpr ⟨_, _, hp, hacc, rfl⟩⟩
      · exact ⟨_, hg, ha ▸ Expr.mkForce_ok.mpr ⟨_, hr, rfl⟩⟩

theorem toExpr_lambda {b : Tree} : (Tree.lambda (some (x, t)) b span).toExpr scope = .ok e ↔
    ∃ u, t.toTy = .ok u ∧ ∃ e', b.toExpr ((x.name, u) :: scope) = .ok e' ∧
    e = .mkLambda x.name u e' := by
  simp only [Tree.toExpr, except_bind_ok, except_pure_ok, @eq_comm _ _ e]

theorem toExpr_delay {b : Tree} : (Tree.lambda none b span).toExpr scope = .ok e ↔
    ∃ e', b.toExpr scope = .ok e' ∧ e = .mkDelay e' := by
  simp only [Tree.toExpr, except_bind_ok, except_pure_ok, @eq_comm _ _ e]

theorem toExpr_letIn {bs : List (Ident × Tree)} {b : Tree} :
    (Tree.letIn bs b span).toExpr scope = .ok e ↔
    ∃ ls scope', Tree.toLocals scope bs = .ok (ls, scope') ∧ ∃ r, b.toExpr scope' = .ok r ∧
    e = .mkBlock ls r := by
  simp only [Tree.toExpr, except_bind_ok, except_pure_ok, Prod.exists, @eq_comm _ _ e]

theorem toExpr_intrinsic {uri : String} : (Tree.intrinsic uri t span).toExpr scope = .ok e ↔
    ∃ u, t.toTy = .ok u ∧ e = .intrinsic uri u := by
  simp only [Tree.toExpr, except_bind_ok, except_pure_ok, @eq_comm _ _ e]

theorem toLocals_cons {b : Tree} {bs : List (Ident × Tree)} {ls : List (String × Expr)} :
    Tree.toLocals scope ((x, b) :: bs) = .ok (ls, scope') ↔ ∃ e, b.toExpr scope = .ok e ∧
      ∃ ls', Tree.toLocals ((x.name, e.ty) :: scope) bs = .ok (ls', scope') ∧
      ls = (x.name, e) :: ls' := by
  simp only [Tree.toLocals, except_bind_ok, except_pure_ok, Prod.exists, Prod.mk.injEq]
  grind

end Source

/-- Values of the coordinator are marked as equal for all, wherever they occur in the type. -/
inductive Ty.Regular : Ty → Prop where
  | scalar (k : Scalar) : Regular (.scalar k)
  | tuple {ts : List Ty} (h : ∀ t ∈ ts, Regular t) : Regular (.tuple ts)
  | seq {t : Ty} (h : Regular t) : Regular (.seq t)
  | func {p r : Ty} (hp : Regular p) (hr : Regular r) : Regular (.func p r)
  | thunk {r : Ty} (h : Regular r) : Regular (.thunk r)
  | placed {m : Ty} {p : Placement} {e : Bool} (h : Regular m) (he : p = .coordinator → e = true) :
      Regular (.placed m p e)

theorem Ty.Regular.place {m : Ty} (h : m.Regular) (p : Placement) (e : Bool) :
    (m.place p e).Regular :=
  .placed h (by rintro rfl; simp)

theorem Ty.Regular.memberAt? {t m : Ty} {p : Placement} (h : t.Regular)
    (hm : t.memberAt? p = some m) : m.Regular := by
  obtain ⟨e, rfl⟩ := memberAt?_eq hm
  cases h with
  | placed h _ => exact h

theorem Ty.Regular.elements {ts : List Ty} (h : (Ty.tuple ts).Regular) : ∀ t ∈ ts, t.Regular := by
  cases h with
  | tuple h => exact h

theorem Ty.Regular.result {p r : Ty} (h : (Ty.func p r).Regular) : r.Regular := by
  cases h with
  | func _ hr => exact hr

theorem Ty.Regular.resultType {op : Intrinsic} {t r : Ty} (h : t.Regular)
    (hr : op.resultType t = .ok r) : r.Regular := by
  have secure : ∀ {op : Crossing}, Intrinsic.secureSumResult op t = .ok r → r.Regular := by
    intro op hr
    obtain ⟨m, p, e, rfl, -, rfl, -⟩ := secureSumResult_ok hr
    have hvalues := h.elements (.placed m .participants e) (by simp)
    exact (hvalues.memberAt? (p := .participants) rfl).place _ _
  have mapped : ∀ {op : LocalOp}, Intrinsic.mapResult op t = .ok r → r.Regular := by
    intro op hr
    obtain ⟨p, q, m, site, e, rfl, -, -, -, rfl⟩ := mapResult_ok hr
    exact (h.elements (.func p q) (by simp)).result.place _ _
  have zipped : ∀ {site : Placement} {wanted : Wanted}, Intrinsic.zipResult site wanted t = .ok r →
      r.Regular := by
    intro site wanted hr
    obtain ⟨ts, ms, rfl, hms, rfl⟩ := zipResult_ok hr
    refine Regular.place (.tuple fun m hm => ?_) _ _
    obtain ⟨t, ht, htm⟩ := forall₂_mem hms.flip hm
    exact (h.elements t ht).memberAt? htm
  rcases op with op | op
  · cases op with
    | broadcast =>
      simp only [Intrinsic.resultType, Intrinsic.broadcastResult] at hr
      split at hr <;> cases hr
      rename_i m hm
      exact (h.memberAt? hm).place _ _
    | aggregate =>
      obtain ⟨m, e, z, q, rfl, rfl, -, -⟩ := aggregateResult_ok hr
      exact (h.elements (.func z q) (by simp)).result.place _ _
    | bitwidthSum | boundedSum | modularSum => exact secure hr
  · cases op with
    | map | apply => exact mapped hr
    | zipAtClients | zipAtServer => exact zipped hr
    | valueAtServer =>
      simp only [Intrinsic.resultType] at hr
      split at hr <;> cases hr
      exact h.place _ _

namespace Source

variable {scope scope' : Scope} {e : Expr} {span : Span} {x : Ident} {t : TypeTree} {ty : Ty}

theorem regular_toTy (h : t.toTy = .ok ty) : ty.Regular := by
  induction t generalizing ty with
  | named x span =>
    obtain ⟨k, -, rfl⟩ := toTy_named.mp h
    exact .scalar k
  | tuple ts span ih =>
    obtain ⟨us, hus, rfl⟩ := toTy_tuple.mp h
    refine .tuple fun u hu => ?_
    obtain ⟨t, ht, htu⟩ := forall₂_mem hus.flip hu
    exact ih t ht htu
  | seq t span ih =>
    obtain ⟨u, hu, rfl⟩ := toTy_seq.mp h
    exact .seq (ih hu)
  | func p r span ihp ihr =>
    obtain ⟨u, hu, v, hv, rfl⟩ := toTy_func.mp h
    exact .func (ihp hu) (ihr hv)
  | thunk r span ih =>
    obtain ⟨u, hu, rfl⟩ := toTy_thunk.mp h
    exact .thunk (ih hu)
  | placed m x e span ih =>
    obtain ⟨p, -, u, hu, rfl⟩ := toTy_placed.mp h
    exact (ih hu).place _ _

theorem packed_cases {es : List Expr} {P : Expr → Prop} {a : Expr} (ha : packed es = some a)
    (h : ∀ e ∈ es, P e) (htuple : P (.mkTuple es)) : P a := by
  unfold packed at ha
  split at ha <;> cases ha
  · exact h a (by simp)
  · exact htuple

theorem regular_packed {es : List Expr} (h : ∀ e ∈ es, e.ty.Regular) :
    ((packed es).getD .unit).ty.Regular := by
  cases ha : packed es with
  | none => exact .tuple (by simp)
  | some a => exact packed_cases (P := fun e => e.ty.Regular) ha h (.tuple (by simpa using h))

theorem regular_toExpr {tree : Tree} (h : tree.toExpr scope = .ok e)
    (hscope : ∀ b ∈ scope, b.2.Regular) :
    e.ty.Regular := by
  induction tree generalizing scope e with
  | int | float | bool =>
    cases h
    exact .scalar _
  | name x span =>
    obtain ⟨u, hu, rfl⟩ := toExpr_name.mp h
    obtain ⟨_, _, rfl, -⟩ := List.lookup_eq_some_iff.mp hu
    exact hscope (x.name, u) (by simp)
  | builtin x t span =>
    obtain ⟨b, u, -, hu, -, rfl⟩ := toExpr_builtin.mp h
    have hreg := regular_toTy hu
    refine .func ?_ hreg
    cases b with
    | sequenceSum => exact .seq hreg
    | _ => exact .tuple (by simpa using hreg)
  | tuple as span ih =>
    obtain ⟨es, hes, rfl⟩ := toExpr_tuple.mp h
    refine .tuple ?_
    simp only [List.mem_map, forall_exists_index, and_imp, forall_apply_eq_imp_iff₂]
    intro e he
    obtain ⟨a, ha, hae⟩ := forall₂_mem hes.flip he
    exact ih a ha hae hscope
  | call f as span ihf iha =>
    obtain ⟨es, hes, hcall⟩ := toExpr_call.mp h
    have hargs : ∀ e ∈ es, e.ty.Regular := by
      intro e he
      obtain ⟨a, ha, hae⟩ := forall₂_mem hes.flip he
      exact iha a ha hae hscope
    rcases hcall with ⟨-, rfl, hr⟩ | ⟨-, hg, -, hp, -⟩ | ⟨-, hg, -, hr⟩
    · exact (regular_packed hargs).resultType hr
    · have hfun := ihf hg hscope
      rw [hp] at hfun
      exact hfun.result
    · have hfun := ihf hg hscope
      rw [hr] at hfun
      cases hfun with
      | thunk h => exact h
  | select a i span ih =>
    obtain ⟨e', he, ts, u, hts, hu, rfl⟩ := toExpr_select.mp h
    have hsource := ih he hscope
    rw [hts] at hsource
    exact hsource.elements u (List.mem_of_getElem? hu)
  | lambda p b span ih =>
    cases p with
    | none =>
      obtain ⟨e', he, rfl⟩ := toExpr_delay.mp h
      exact .thunk (ih he hscope)
    | some p =>
      obtain ⟨u, hu, e', he, rfl⟩ := toExpr_lambda.mp h
      exact .func (regular_toTy hu) (ih he (List.forall_mem_cons.mpr ⟨regular_toTy hu, hscope⟩))
  | letIn bs b span ihl ihb =>
    obtain ⟨ls, scope', hls, r, hr, rfl⟩ := toExpr_letIn.mp h
    rw [Expr.ty_mkBlock]
    refine ihb hr ?_
    clear hr h
    induction bs generalizing scope ls with
    | nil =>
      cases hls
      exact hscope
    | cons b bs ih =>
      obtain ⟨e, he, ls, hrest, rfl⟩ := toLocals_cons.mp hls
      have hreg := ihl b (by simp) he hscope
      refine ih (fun b hb => ihl b (by simp [hb])) ?_ ls hrest
      exact List.forall_mem_cons.mpr ⟨hreg, hscope⟩
  | intrinsic uri t span =>
    obtain ⟨u, hu, rfl⟩ := toExpr_intrinsic.mp h
    exact regular_toTy hu

end Source

namespace Expr

variable {e : Expr} {Γ : List (String × Ty)}

def isImpliedCall : Expr → Bool
  | .call f a _ => (checkImplied f a).isOk
  | _ => true

/-- Intrinsics are called only at the types that their arguments imply. -/
def CallsImplied (e : Expr) : Prop :=
  ∀ e' ∈ e.subterms, e'.isImpliedCall = true

instance (e : Expr) : Decidable e.CallsImplied :=
  inferInstanceAs (Decidable (∀ e' ∈ e.subterms, _))

theorem CallsImplied.children (h : e.CallsImplied) : ∀ c ∈ e.children, c.CallsImplied :=
  fun c hc e' he' => h e' (mem_subterms.mpr (.inr ⟨c, hc, he'⟩))

theorem CallsImplied.call {f a : Expr} {t : Ty} (h : (Expr.call f a t).CallsImplied) :
    checkImplied f a = .ok () := by
  obtain ⟨⟨⟩, ha⟩ := except_isOk (h _ (mem_subterms_self _))
  exact ha

theorem CallsImplied.parts {ls : List (String × Expr)} (h : (mkBlock ls e).CallsImplied) :
    (∀ l ∈ ls, l.2.CallsImplied) ∧ e.CallsImplied := by
  cases ls with
  | nil => exact ⟨by simp, h⟩
  | cons l ls =>
    have hparts := CallsImplied.children (e := .block (l :: ls) e e.ty) h
    simp only [Expr.children, List.forall_mem_append, List.mem_map, forall_exists_index, and_imp,
      forall_apply_eq_imp_iff₂] at hparts
    exact ⟨hparts.1, hparts.2 e (by simp)⟩

theorem callsImplied_of_check (h : e.checkIn Γ = .ok ()) : e.CallsImplied := by
  have hchecked : ∀ e' ∈ e.subterms, ∃ Γ, e'.checkIn Γ = .ok () := by
    refine forall_subterms ?_ ⟨Γ, h⟩
    rintro e ⟨Γ, he⟩
    exact checkIn_children he
  intro e' he'
  obtain ⟨Γ, h⟩ := hchecked e' he'
  cases e' with
  | call f a t =>
    obtain ⟨-, -, himplied, -⟩ := checkIn_call.mp h
    simp [isImpliedCall, himplied, Except.isOk, Except.toBool]
  | _ => rfl

end Expr

namespace Source

variable {scope scope' : Scope} {e : Expr}

theorem checkIn_mkTuple {es : List Expr} (h : ∀ e ∈ es, e.checkIn scope = .ok ()) :
    (Expr.mkTuple es).checkIn scope = .ok () :=
  except_seq_ok.mpr ⟨Expr.checkList_ok.mpr h, Expr.agrees_ok.mpr rfl⟩

theorem check_toExpr {tree : Tree} (h : tree.toExpr scope = .ok e) (hc : e.CallsImplied) :
    e.checkIn scope = .ok () := by
  induction tree generalizing scope e with
  | int | float | bool =>
    cases h
    exact Expr.agrees_ok.mpr rfl
  | name x span =>
    obtain ⟨u, hu, rfl⟩ := toExpr_name.mp h
    simp [Expr.checkIn, hu, Expr.agrees_ok]
  | builtin x t span =>
    obtain ⟨b, u, -, -, hn, rfl⟩ := toExpr_builtin.mp h
    exact (Expr.typed_builtin.mpr ⟨u, hn, rfl⟩).1
  | tuple as span ih =>
    obtain ⟨es, hes, rfl⟩ := toExpr_tuple.mp h
    refine checkIn_mkTuple fun e he => ?_
    obtain ⟨a, ha, hae⟩ := forall₂_mem hes.flip he
    exact ih a ha hae (hc.children e he)
  | call f as span ihf iha =>
    obtain ⟨es, hes, hcall⟩ := toExpr_call.mp h
    have hargs : ∀ e ∈ es, e.CallsImplied → e.checkIn scope = .ok () := by
      intro e he
      obtain ⟨a, ha, hae⟩ := forall₂_mem hes.flip he
      exact iha a ha hae
    have hpacked : ∀ {a}, packed es = some a → a.CallsImplied → a.checkIn scope = .ok () := by
      intro a ha
      refine packed_cases (P := fun a => a.CallsImplied → a.checkIn scope = .ok ()) ha
        hargs fun hc => ?_
      exact checkIn_mkTuple fun e he => hargs e he (hc.children e he)
    rcases hcall with ⟨-, rfl, hr⟩ | ⟨-, hg, ha, hp, hacc⟩ | ⟨-, hg, -, hr⟩
    · refine Expr.checkIn_call.mpr ⟨rfl, ?_, hc.call, _, rfl, Ty.standsFor_self _⟩
      cases ha : packed es with
      | none => exact checkIn_mkTuple (by simp)
      | some a => exact hpacked ha (hc.children a (by simp [Expr.children, ha]))
    · refine Expr.checkIn_call.mpr ⟨ihf hg (hc.children _ (by simp [Expr.children])), ?_,
        hc.call, _, hp, hacc⟩
      exact hpacked ha (hc.children _ (by simp [Expr.children]))
    · refine except_seq_ok.mpr ⟨ihf hg (hc.children _ (by simp [Expr.children])), ?_⟩
      exact except_bind_ok.mpr ⟨_, Expr.mkForce_ok.mpr ⟨_, hr, rfl⟩, Expr.agrees_ok.mpr rfl⟩
  | select a i span ih =>
    obtain ⟨e', he, ts, u, hts, hu, rfl⟩ := toExpr_select.mp h
    refine except_seq_ok.mpr ⟨ih he (hc.children e' (by simp [Expr.children])), ?_⟩
    exact except_bind_ok.mpr ⟨_, Expr.mkSelect_ok.mpr ⟨ts, u, hts, hu, rfl⟩, Expr.agrees_ok.mpr rfl⟩
  | lambda p b span ih =>
    cases p with
    | none =>
      obtain ⟨e', he, rfl⟩ := toExpr_delay.mp h
      exact except_seq_ok.mpr
        ⟨ih he (hc.children e' (by simp [Expr.mkDelay, Expr.children])), by simp⟩
    | some p =>
      obtain ⟨u, hu, e', he, rfl⟩ := toExpr_lambda.mp h
      exact except_seq_ok.mpr
        ⟨ih he (hc.children e' (by simp [Expr.mkLambda, Expr.children])), by simp⟩
  | letIn bs b span ihl ihb =>
    obtain ⟨ls, scope', hls, r, hr, rfl⟩ := toExpr_letIn.mp h
    obtain ⟨hlocals, hresult⟩ := hc.parts
    have hchecked : Expr.checkLocals scope ls = .ok scope' := by
      clear hr h hc
      induction bs generalizing scope ls with
      | nil =>
        cases hls
        rfl
      | cons b bs ih =>
        obtain ⟨e, he, ls, hrest, rfl⟩ := toLocals_cons.mp hls
        rw [List.forall_mem_cons] at hlocals
        exact except_seq_ok.mpr ⟨ihl b (by simp) he hlocals.1,
          ih (fun b hb => ihl b (by simp [hb])) ls hrest hlocals.2⟩
    have hr := ihb hr hresult
    cases ls with
    | nil =>
      cases hchecked
      exact hr
    | cons l ls => exact Expr.checkIn_block.mpr ⟨scope', hchecked, hr, rfl⟩
  | intrinsic uri t span =>
    obtain ⟨u, hu, rfl⟩ := toExpr_intrinsic.mp h
    rfl

end Source

end TwoTier

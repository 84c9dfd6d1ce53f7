import Mathlib.Data.List.Basic
import TwoTier.Source.Tree
import TwoTier.Value.Basic

/-! # Induction over nested lists

Types, expressions, values and syntax trees contain lists of their own kind. In these inductions the
parts are the members of such lists.
-/

namespace TwoTier

@[elab_as_elim, induction_eliminator]
theorem Ty.induct {motive : Ty → Prop} (scalar : ∀ k, motive (.scalar k))
    (tuple : ∀ ts, (∀ t ∈ ts, motive t) → motive (.tuple ts))
    (seq : ∀ t, motive t → motive (.seq t)) (func : ∀ p r, motive p → motive r → motive (.func p r))
    (thunk : ∀ r, motive r → motive (.thunk r))
    (placed : ∀ m p e, motive m → motive (.placed m p e)) (t : Ty) : motive t :=
  @Ty.rec motive (fun ts => ∀ t ∈ ts, motive t) scalar tuple seq func thunk placed
    (by simp) (fun t ts ht hts => List.forall_mem_cons.mpr ⟨ht, hts⟩) t

@[elab_as_elim, induction_eliminator]
theorem Expr.induct {motive : Expr → Prop} (ref : ∀ x t, motive (.ref x t))
    (lit : ∀ a t, motive (.lit a t)) (tuple : ∀ es t, (∀ e ∈ es, motive e) → motive (.tuple es t))
    (select : ∀ e i t, motive e → motive (.select e i t))
    (call : ∀ f a t, motive f → motive a → motive (.call f a t))
    (force : ∀ f t, motive f → motive (.force f t))
    (lambda : ∀ x e t, motive e → motive (.lambda x e t))
    (block : ∀ ls r t, (∀ l ∈ ls, motive l.2) → motive r → motive (.block ls r t))
    (intrinsic : ∀ u t, motive (.intrinsic u t)) (builtin : ∀ b t, motive (.builtin b t))
    (e : Expr) : motive e :=
  @Expr.rec motive (fun es => ∀ e ∈ es, motive e) (fun ls => ∀ l ∈ ls, motive l.2)
    (fun l => motive l.2) ref lit tuple select call force lambda block intrinsic builtin
    (by simp) (fun e es he hes => List.forall_mem_cons.mpr ⟨he, hes⟩) (by simp)
    (fun l ls hl hls => List.forall_mem_cons.mpr ⟨hl, hls⟩) (fun _ _ h => h) e

/-- Induction over the direct parts, where the constructor does not matter. -/
theorem Expr.induct_children {P : Expr → Prop} (h : ∀ e, (∀ c ∈ e.children, P c) → P e)
    (e : Expr) : P e := by
  induction e with
  | ref | lit | intrinsic | builtin => exact h _ (by simp [Expr.children])
  | tuple es t ih => exact h _ ih
  | select e i t ih | force e t ih | lambda x e t ih =>
    exact h _ (by simpa [Expr.children] using ih)
  | call f a t ihf iha => exact h _ (by simpa [Expr.children] using ⟨ihf, iha⟩)
  | block ls r t ihl ihr =>
    refine h _ fun c hc => ?_
    simp only [Expr.children, List.mem_append, List.mem_map, List.mem_singleton] at hc
    rcases hc with ⟨l, hl, rfl⟩ | rfl
    · exact ihl l hl
    · exact ihr

@[elab_as_elim, induction_eliminator]
theorem Value.induct {motive : Value → Prop}
    (int : ∀ n, motive (.int n)) (float : ∀ x, motive (.float x))
    (bool : ∀ b, motive (.bool b)) (tuple : ∀ vs, (∀ v ∈ vs, motive v) → motive (.tuple vs))
    (seq : ∀ vs, (∀ v ∈ vs, motive v) → motive (.seq vs))
    (closure : ∀ x e env, (∀ b ∈ env, motive b.2) → motive (.closure x e env))
    (builtin : ∀ b t, motive (.builtin b t)) (intrinsic : ∀ op t, motive (.intrinsic op t))
    (atServer : ∀ v, motive v → motive (.atServer v))
    (atClients : ∀ vs, (∀ v ∈ vs, motive v) → motive (.atClients vs)) (v : Value) : motive v :=
  @Value.rec motive (fun vs => ∀ v ∈ vs, motive v) (fun env => ∀ b ∈ env, motive b.2)
    (fun b => motive b.2) int float bool tuple seq closure builtin intrinsic atServer atClients
    (by simp) (fun v vs hv hvs => List.forall_mem_cons.mpr ⟨hv, hvs⟩) (by simp)
    (fun b env hb henv => List.forall_mem_cons.mpr ⟨hb, henv⟩) (fun _ _ h => h) v

namespace Source

@[elab_as_elim, induction_eliminator]
theorem TypeTree.induct {motive : TypeTree → Prop} (named : ∀ x s, motive (.named x s))
    (tuple : ∀ ts s, (∀ t ∈ ts, motive t) → motive (.tuple ts s))
    (seq : ∀ t s, motive t → motive (.seq t s))
    (func : ∀ p r s, motive p → motive r → motive (.func p r s))
    (thunk : ∀ r s, motive r → motive (.thunk r s))
    (placed : ∀ m x e s, motive m → motive (.placed m x e s)) (t : TypeTree) : motive t :=
  @TypeTree.rec motive (fun ts => ∀ t ∈ ts, motive t) named tuple seq func thunk placed
    (by simp) (fun t ts ht hts => List.forall_mem_cons.mpr ⟨ht, hts⟩) t

@[elab_as_elim, induction_eliminator]
theorem Tree.induct {motive : Tree → Prop} (int : ∀ v s, motive (.int v s))
    (float : ∀ v s, motive (.float v s)) (bool : ∀ v s, motive (.bool v s))
    (name : ∀ x s, motive (.name x s)) (builtin : ∀ x t s, motive (.builtin x t s))
    (tuple : ∀ es s, (∀ e ∈ es, motive e) → motive (.tuple es s))
    (call : ∀ f as s, motive f → (∀ a ∈ as, motive a) → motive (.call f as s))
    (select : ∀ e i s, motive e → motive (.select e i s))
    (lambda : ∀ p e s, motive e → motive (.lambda p e s))
    (letIn : ∀ bs e s, (∀ b ∈ bs, motive b.2) → motive e → motive (.letIn bs e s))
    (intrinsic : ∀ u t s, motive (.intrinsic u t s)) (t : Tree) : motive t :=
  @Tree.rec motive (fun es => ∀ e ∈ es, motive e) (fun bs => ∀ b ∈ bs, motive b.2)
    (fun b => motive b.2) int float bool name builtin tuple call select lambda letIn intrinsic
    (by simp) (fun e es he hes => List.forall_mem_cons.mpr ⟨he, hes⟩) (by simp)
    (fun b bs hb hbs => List.forall_mem_cons.mpr ⟨hb, hbs⟩) (fun _ _ h => h) t

end Source

end TwoTier

import TwoTier.Form.Synthesis
import TwoTier.Proofs.Outcome
import TwoTier.Proofs.Scope

/-! # Wiring

What wiring a form together leaves behind: a chain of locals under fresh names, in which everything
that was in scope stays in scope.
-/

namespace TwoTier.Synthesis

open Expr

variable {α β : Type} {w w' : Wiring} {Γ : List (String × Ty)} {e : Expr} {t : Ty}
    {slot base : String}

/-- Wiring from `w` ends with a result and a wiring that satisfy `Q`. -/
def Builds (m : WiringM α) (w : Wiring) (Q : α → Wiring → Prop) : Prop :=
  ∃ a w', m.run w = .ok (a, w') ∧ Q a w'

variable {Q : α → Wiring → Prop} {m : WiringM α}

theorem builds_pure {a : α} (h : Q a w) : Builds (pure a) w Q :=
  ⟨a, w, rfl, h⟩

theorem builds_bind {f : α → WiringM β} {Q : β → Wiring → Prop}
    (h : Builds m w fun a w' => Builds (f a) w' Q) :
    Builds (m >>= f) w Q := by
  obtain ⟨a, w₁, hr, b, w₂, hr', hq⟩ := h
  refine ⟨b, w₂, ?_, hq⟩
  rw [StateT.run_bind, hr]
  exact hr'

theorem builds_typed {x : Except TypeFault α} {a : α} (hx : x = .ok a) (h : Q a w) :
    Builds (typed slot x) w Q := by
  subst hx
  exact ⟨a, w, rfl, h⟩

def Wiring.push (w : Wiring) (base : String) (e : Expr) : Wiring :=
  { w with names := (w.names.fresh base).2, locals := w.locals ++ [((w.names.fresh base).1, e)] }

theorem builds_local {x : Except TypeFault Expr} {Q : Expr → Wiring → Prop} (hx : x = .ok e)
    (h : Q (.ref (w.names.fresh base).1 e.ty) (w.push base e)) : Builds (bind slot base x) w Q := by
  subst hx
  exact ⟨_, _, rfl, h⟩

/-- `e` has type `t` behind the locals. -/
def Wiring.Has (Γ : List (String × Ty)) (w : Wiring) (e : Expr) (t : Ty) : Prop :=
  e.Scoped (scope Γ w.locals) ∧ e.ty = t

/-- A wire is a local, or an element of the round's parameter. -/
inductive IsWire : Expr → Prop where
  | ref {x : String} {t : Ty} : IsWire (.ref x t)
  | select {x : String} {i : Nat} {t u : Ty} : IsWire (.select (.ref x t) i u)

/-- The locals are a chain under taken names, each of the kind `P`. -/
structure Wired (P : Expr → Prop) (Γ : List (String × Ty)) (w : Wiring) : Prop where
  chain : Chain Γ w.locals
  used : (scope Γ w.locals).map Prod.fst ⊆ w.names.used
  kind : ∀ l ∈ w.locals, P l.2
  nothing : ∀ e, w.nothing = some e → w.Has Γ e (.atCoordinator .empty) ∧ IsWire e

/-- Everything in scope stays in scope. -/
def Wiring.Grows (Γ : List (String × Ty)) (w w' : Wiring) : Prop :=
  Within (scope Γ w.locals) (scope Γ w'.locals)

theorem Wiring.Grows.refl : w.Grows Γ w :=
  fun _ _ hz => hz

theorem Wiring.Grows.trans {w'' : Wiring} (h : w.Grows Γ w') (h' : w'.Grows Γ w'') :
    w.Grows Γ w'' :=
  fun z u hz => h' z u (h z u hz)

theorem Wiring.Has.mono (he : w.Has Γ e t) (h : w.Grows Γ w') : w'.Has Γ e t :=
  ⟨he.1.mono h, he.2⟩

variable {P : Expr → Prop}

theorem Wired.fresh (h : Wired P Γ w) : (w.names.fresh base).1 ∉ (scope Γ w.locals).map Prod.fst :=
  fun hx => Names.fresh_not_mem rfl (h.used hx)

theorem Wired.grows_push (h : Wired P Γ w) : w.Grows Γ (w.push base e) := by
  rw [Wiring.Grows, Wiring.push, scope_snoc]
  exact within_cons h.fresh e.ty

theorem Wired.push (h : Wired P Γ w) (he : w.Has Γ e t) (hp : P e) : Wired P Γ (w.push base e) where
  chain := chain_snoc.mpr ⟨h.chain, h.fresh, he.1⟩
  used := by
    simp only [Wiring.push, scope_snoc, List.map_cons]
    exact List.cons_subset.mpr ⟨(Names.mem_fresh rfl).mpr (.inl rfl),
      fun y hy => (Names.mem_fresh rfl).mpr (.inr (h.used hy))⟩
  kind := by simpa [Wiring.push, or_imp, forall_and] using ⟨fun x e he => h.kind (x, e) he, hp⟩
  nothing := fun e' he' => ⟨(h.nothing e' he').1.mono h.grows_push, (h.nothing e' he').2⟩

theorem has_ref_push (he : w.Has Γ e t) :
    (w.push base e).Has Γ (.ref (w.names.fresh base).1 t) t := by
  refine ⟨scoped_ref ?_, rfl⟩
  simp [Wiring.push, he.2]

theorem Wired.bind {x : Except TypeFault Expr} {Q : Expr → Wiring → Prop} (h : Wired P Γ w)
    (hx : x = .ok e) (he : w.Has Γ e t) (hp : P e)
    (hQ : ∀ y w', Wired P Γ w' → w.Grows Γ w' → w'.locals = w.locals ++ [(y, e)] →
      w'.Has Γ (.ref y t) t → Q (.ref y t) w') :
    Builds (Synthesis.bind slot base x) w Q := by
  refine builds_local hx ?_
  rw [he.2]
  exact hQ _ _ (h.push he hp) h.grows_push rfl (has_ref_push he)

theorem Wired.spliceLocals {m : Subst} {Γ' : List (String × Ty)} {ls : List (String × Expr)}
    {r : Expr} {Q : Subst → Wiring → Prop} (h : Wired P Γ w) (hp : ∀ e, P e)
    (hm : Fills Γ' (scope Γ w.locals) m) (hb : (block ls r t).Scoped Γ')
    (hQ : ∀ m' w', Wired P Γ w' → w.Grows Γ w' → w'.Has Γ (r.subst m') t → Q m' w') :
    Builds (Synthesis.spliceLocals m ls) w Q := by
  induction ls generalizing w m Γ' with
  | nil =>
    obtain ⟨hr, rfl⟩ := hb.result
    exact builds_pure (hQ m w h .refl (hr.subst hm))
  | cons l ls ih =>
    obtain ⟨x, e⟩ := l
    obtain ⟨he, hb⟩ := hb.local_
    have hhas : w.Has Γ (e.subst m) e.ty := he.subst hm
    have hfills : Fills ((x, e.ty) :: Γ') (scope Γ (w.push x (e.subst m)).locals)
        (m.insert x (.ref (w.names.fresh x).1 (e.subst m).ty)) := by
      intro z u hz
      rw [Subst.lookup_insert]
      split
      case isTrue hzx =>
        obtain rfl : e.ty = u := by simpa [hzx] using hz
        rw [hhas.2]
        exact ⟨_, rfl, has_ref_push hhas⟩
      case isFalse hzx =>
        rw [lookup_cons_of_ne hzx] at hz
        obtain ⟨r, hr, hscoped, hty⟩ := hm z u hz
        exact ⟨r, hr, hscoped.mono h.grows_push, hty⟩
    exact ih (h.push hhas (hp _)) hfills hb fun m' w' hw hgrows =>
      hQ m' w' hw (h.grows_push.trans hgrows)

theorem Wired.splice {f a : Expr} {p r : Ty} {Q : Expr → Wiring → Prop} (h : Wired P Γ w)
    (hp : ∀ e, P e) (hf : f.Scoped []) (hty : f.ty = .func p r) (ha : w.Has Γ a p)
    (hQ : ∀ e w', Wired P Γ w' → w.Grows Γ w' → w'.Has Γ e r → Q e w') :
    Builds (Synthesis.splice slot f a) w Q := by
  unfold Synthesis.splice
  split
  case h_1 param body t =>
    cases param with
    | none => simp [hf.delayed.2] at hty
    | some x =>
      obtain ⟨p', hbody, rfl⟩ := hf.body
      obtain ⟨rfl, rfl⟩ := Ty.func.inj hty
      have hfills : Fills [(x, p')] (scope Γ w.locals) [(x, a)] := by
        intro z u hz
        by_cases hzx : z = x
        · obtain rfl : p' = u := by simpa [hzx] using hz
          exact ⟨a, by simp [hzx], ha⟩
        · simp [lookup_cons_of_ne hzx] at hz
      dsimp only
      split
      case h_1 ls r t =>
        refine builds_bind (h.spliceLocals hp hfills hbody fun m' w' hw hgrows he => ?_)
        exact builds_pure (hQ _ w' hw hgrows he)
      case h_2 => exact builds_pure (hQ _ w h .refl (hbody.subst hfills))
  case h_2 =>
    have hcall : w.Has Γ (.call f a r) r :=
      ⟨scoped_call (hf.mono fun _ _ hz => by simp at hz) ha.1 hty (ha.2 ▸ Ty.standsFor_self p), rfl⟩
    have hok : f.mkCall a = .ok (.call f a r) :=
      mkCall_ok.mpr ⟨p, r, hty, ha.2 ▸ Ty.standsFor_self p, rfl⟩
    exact h.bind hok hcall (hp _) fun y w' hw hgrows _ he => hQ _ w' hw hgrows he

end TwoTier.Synthesis

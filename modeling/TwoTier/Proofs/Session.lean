import TwoTier.Proofs.Signature
import TwoTier.Session

/-! # Sessions and compilation

A run to the validated form does the work of the compiler, pass by pass, but for two checks: it does
not look at the recorded types of the round, and it does not compare the type of the form with that
of the round.
-/

namespace TwoTier

open Source

namespace Session

variable {options : Options} {s : Session} {p : Pass} {ps : List Pass} {f : Form}

/-- The passes run without failure and leave the form `f`. -/
def Makes (options : Options) (s : Session) (ps : List Pass) (f : Form) : Prop :=
  (s.runPasses options ps).failing = none ∧ (s.runPasses options ps).session.form = some f

theorem makes_cons {α : Type} {ε : Type} {x : Except ε α}
    {k : ε → Diagnostic} (store : Option α → Session)
    (hrun : s.runPass options p = (store (x.mapError k).toOption, failure (x.mapError k)))
    (hlevel : ∀ e, (k e).level = .error) :
    s.Makes options (p :: ps) f ↔ ∃ a, x = .ok a ∧ (store (some a)).Makes options ps f := by
  cases x with
  | error e => simp [Makes, runPasses, hrun, Except.mapError, failure, hlevel]
  | ok a => simp [Makes, runPasses, hrun, Except.mapError, Except.toOption, failure]

theorem makes_validate {tree : Tree} : Makes options { program := tree } Pass.validate.required f ↔
    ∃ r, tree.toExpr [] = .ok r ∧ (∃ tiers, r.classify = .ok tiers) ∧
    (∃ calls, r.boundaries = .ok calls) ∧
      ∃ parts, (Round.parts r options.template).result = .ok parts ∧
      (Form.ofParts parts).result = .ok f := by
  have hrequired :
      Pass.validate.required = [.elaborate, .classify, .recognize, .factor, .validate] := by
    decide
  rw [hrequired, makes_cons (fun r => { program := tree, round := r }) rfl fun _ => rfl]
  refine exists_congr fun r => and_congr_right fun _ => ?_
  rw [makes_cons (fun tiers => { program := tree, round := some r, tiers := tiers }) rfl fun _ =>
    rfl]
  rw [← exists_and_right]
  refine exists_congr fun tiers => and_congr_right fun _ => ?_
  rw [makes_cons
    (fun calls => { program := tree, round := some r, tiers := some tiers, boundaries := calls })
    rfl fun _ => rfl, ← exists_and_right]
  refine exists_congr fun calls => and_congr_right fun _ => ?_
  let recognized : Session :=
    { program := tree, round := some r, tiers := some tiers, boundaries := some calls }
  rw [makes_cons (fun parts => { recognized with parts := parts }) rfl fun _ => rfl]
  refine exists_congr fun parts => and_congr_right fun _ => ?_
  rw [makes_cons (fun form => { recognized with parts := some parts, form := form }) rfl fun _ =>
    rfl]
  simp [Makes, runPasses]

end Session

/-- A session makes the form that the compiler returns, and it makes no other one, unless the round
calls an intrinsic at a type that its argument does not imply, or is compiled to the broadcast form
and marks its results as equal for all. -/
theorem compile_iff_makes (tree : Tree) (options : Options) (f : Form) :
    (∃ r, tree.toExpr [] = .ok r ∧ (compile r options.template).result = .ok f) ↔
      ((Session.runTo options { program := tree } .validate).failing = none ∧
        (Session.runTo options { program := tree } .validate).session.form = some f) ∧
      ∀ r, tree.toExpr [] = .ok r →
        r.CallsImplied ∧
        (options.template = .broadcast → r.ty.resultOrEmpty.isAllEqual = false) := by
  change _ ↔ Session.Makes options { program := tree } Pass.validate.required f ∧ _
  rw [Session.makes_validate]
  constructor
  · rintro ⟨r, hr, hf⟩
    obtain ⟨hc, htiers, hcalls, parts, hparts, hform, hty⟩ := compile_eq_ok.mp hf
    refine ⟨⟨r, hr, htiers, hcalls, parts, hparts, hform⟩, fun r' hr' => ?_⟩
    cases hr.symm.trans hr'
    have hreg := regular_toExpr hr (by simp)
    exact ⟨Expr.callsImplied_of_check hc, (signature_eq_iff hc hreg hparts hform).mp hty⟩
  · rintro ⟨⟨r, hr, htiers, hcalls, parts, hparts, hform⟩, h⟩
    obtain ⟨himplied, hequal⟩ := h r hr
    have hc : r.check = .ok () := check_toExpr hr himplied
    have hreg := regular_toExpr hr (by simp)
    have hty := (signature_eq_iff hc hreg hparts hform).mpr hequal
    exact ⟨r, hr, compile_eq_ok.mpr ⟨hc, htiers, hcalls, parts, hparts, hform, hty⟩⟩

/-- The source of a round that only passes on what it broadcasts. -/
def passingOn : String :=
  "(p: <int32@SERVER,\x7bint32\x7d@CLIENTS> -> let c = federated_broadcast(p[0]) in c)"

/-- The source of a round that maps values which are equal for all, by an intrinsic for any
values. -/
def mappingCopies : String :=
  "(p: <int32@SERVER,\x7bint32\x7d@CLIENTS> -> (intrinsic \"federated_map\" : " ++
  "(<(int32 -> int32),\x7bint32\x7d@CLIENTS> -> \x7bint32\x7d@CLIENTS))" ++
  "((x: int32 -> x), federated_broadcast(p[0])))"

/-- Sessions make forms of rounds that do not compile. -/
theorem makes_without_compile :
    (∃ tree r f e, parse passingOn = .ok tree ∧ tree.toExpr [] = .ok r ∧
      Session.Makes { template := .broadcast } { program := tree } Pass.validate.required f ∧
      (compile r .broadcast).result = .error e) ∧
    ∃ tree r f e, parse mappingCopies = .ok tree ∧ tree.toExpr [] = .ok r ∧
      Session.Makes { template := .broadcast } { program := tree } Pass.validate.required f ∧
      (compile r .broadcast).result = .error e := by
  let made (tree : Tree) : Session.Run :=
    Session.runTo { template := .broadcast } { program := tree } .validate
  have makes :
      ∀ source, (parse source).toOption.any (fun tree => (tree.toExpr []).toOption.any fun r =>
      (made tree).failing.isNone && (made tree).session.form.isSome &&
        !(compile r .broadcast).result.isOk) = true →
      ∃ tree r f e, parse source = .ok tree ∧ tree.toExpr [] = .ok r ∧
        Session.Makes { template := .broadcast } { program := tree } Pass.validate.required f ∧
        (compile r .broadcast).result = .error e := by
    intro source h
    obtain ⟨tree, htree, h⟩ := except_any h
    obtain ⟨r, hr, h⟩ := except_any h
    simp only [Bool.and_eq_true, Option.isNone_iff_eq_none, Option.isSome_iff_exists] at h
    obtain ⟨⟨hfailing, f, hf⟩, hcompile⟩ := h
    cases hc : (compile r .broadcast).result with
    | ok f' => simp [hc, Except.isOk, Except.toBool] at hcompile
    | error e => exact ⟨tree, r, f, e, htree, hr, ⟨hfailing, hf⟩, hc⟩
  constructor
  · exact makes _ (by decide +kernel)
  · exact makes _ (by decide +kernel)

end TwoTier

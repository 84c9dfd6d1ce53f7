import TwoTier.Compile
import TwoTier.Evaluation.Form
import TwoTier.Evaluation.Literal
import TwoTier.Form.Synthesis
import TwoTier.Pass

/-! # Sessions

The results of the passes run so far on one syntax tree, and the diagnostics they gave. A run to a
pass does all that the pass needs and stops at the first failure.
-/

namespace TwoTier

structure Options where
  template : Template := .mapReduce
  state : Option String := none
  data : List String := []
  groupSize : Nat := 2

/-- A round and its form agree on `result`. -/
structure Evaluated where
  state : Value
  data : List Value
  result : Value

structure Session where
  program : Source.Tree
  round : Option Expr := none
  tiers : Option TierTree := none
  boundaries : Option (List BoundaryCall) := none
  parts : Option Parts := none
  form : Option Form := none
  synthesized : Option Expr := none
  evaluation : Option Evaluated := none
  diagnostics : List Diagnostic := []
  failed : Bool := false

namespace Session

def evaluated (round : Expr) (form : Form) (options : Options) : Except Diagnostic Evaluated := do
  match options.state with
  | none => .error {
      code := some "E0800", message := "evaluation needs an initial state", hint :=
        some "pass --state <value>" }
  | some state =>
    let literal := fun s => (Value.ofText s).mapError LiteralError.diagnostic
    let state ← literal state
    let data ← options.data.mapM literal
    let run := fun (e : Eval Value) => e.result.mapError Halt.diagnostic
    let expected ← run (Eval.round Eval.budget options.groupSize round state data)
    let actual ← run (Eval.form Eval.budget options.groupSize form state data)
    if actual.same expected then return ⟨state, data, expected⟩
    else .error {
      code := some "E0802"
      message := form.template.name ++ " form produced " ++ actual.text ++
        " but the round produced " ++ expected.text }

def missing (p : Pass) (what : String) : Diagnostic where
  code := some "E0800"
  message := "internal: " ++ p.name ++ " ran without " ++ what

def failure {α : Type} : Except Diagnostic α → List Diagnostic
  | .ok _ => []
  | .error d => [d]

def runPass (options : Options) (s : Session) (p : Pass) : Session × List Diagnostic :=
  match p with
  | .elaborate =>
    let r := (s.program.toExpr []).mapError Source.Meaningless.diagnostic
    ({ s with round := r.toOption }, failure r)
  | .classify => match s.round with
    | none => (s, [missing p "a round"])
    | some round =>
      let r := round.classify.mapError fun m => (CompileError.mixedCall m).diagnostic
      ({ s with tiers := r.toOption }, failure r)
  | .recognize => match s.round with
    | none => (s, [missing p "a round"])
    | some round =>
      let r := round.boundaries.mapError fun u => (CompileError.unknownCrossing u).diagnostic
      ({ s with boundaries := r.toOption }, failure r)
  | .factor => match s.round with
    | none => (s, [missing p "a round"])
    | some round =>
      let r := (Round.parts round options.template).result.mapError CompileError.diagnostic
      ({ s with parts := r.toOption }, failure r)
  | .validate => match s.parts with
    | none => (s, [missing p "form parts"])
    | some parts =>
      let r := (Form.ofParts parts).result.mapError fun i =>
        (CompileError.incompatible i).diagnostic
      ({ s with form := r.toOption }, failure r)
  | .synthesize => match s.form with
    | none => (s, [missing p "a form"])
    | some form =>
      let r := form.synthesize.result.mapError fun e =>
        ({ code := some "E0700", message := e.message } : Diagnostic)
      ({ s with synthesized := r.toOption }, failure r)
  | .evaluate => match s.round, s.form with
    | some round, some form =>
      let r := evaluated round form options
      ({ s with evaluation := r.toOption }, failure r)
    | _, _ => (s, [missing p "a round and its form"])

structure Run where
  session : Session
  passes : List (Pass × List Diagnostic)
  failing : Option Pass

/-- Run passes in order, up to the first that fails. -/
def runPasses (options : Options) (s : Session) : List Pass → Run
  | [] => ⟨s, [], none⟩
  | p :: ps =>
    let (s, ds) := s.runPass options p
    let s := { s with diagnostics := s.diagnostics ++ ds }
    if ds.any fun d => d.level == .error then ⟨{ s with failed := true }, [(p, ds)], some p⟩
    else
      let rest := runPasses options s ps
      { rest with passes := (p, ds) :: rest.passes }

def runTo (options : Options) (s : Session) (p : Pass) : Run :=
  runPasses options s p.required

end Session

end TwoTier

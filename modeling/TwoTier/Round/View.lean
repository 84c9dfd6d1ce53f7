import TwoTier.CompileError
import TwoTier.Expr.Subst

/-! # Rounds as steps

A round takes the coordinator's state and the participants' data. Its view lists the calls with a
placed result as named steps, each referring to the ones before it; all other locals are inlined,
and intrinsic calls nested in an expression become steps of their own.
-/

namespace TwoTier.Round

/-- A step is `late` if it is an aggregation or depends on one. -/
structure Step where
  name : String
  value : Expr
  boundary : Option BoundaryCall
  late : Bool

namespace Step

def op? (s : Step) : Option Crossing :=
  s.boundary.map BoundaryCall.op

def isBroadcast (s : Step) : Bool :=
  s.op?.any Crossing.isBroadcast

def isAggregation (s : Step) : Bool :=
  s.op?.any Crossing.isAggregation

end Step

structure View where
  template : Template
  param : String
  state : Ty
  data : Ty
  steps : List Step
  result : Expr
  names : Names

namespace View

def step? (v : View) (x : String) : Option Step :=
  v.steps.find? fun s => s.name == x

def broadcasts (v : View) : List Step :=
  v.steps.filter Step.isBroadcast

def aggregations (v : View) : List Step :=
  v.steps.filter Step.isAggregation

def readsState (v : View) (e : Expr) : Bool :=
  e.subterms.any fun
    | .select (.ref x _) 0 _ => x == v.param
    | _ => false

end View

/-- A call with a placed result. -/
def isStep : Expr → Bool
  | .call _ _ t | .force _ t => t.isPlaced
  | _ => false

def calledUri? : Expr → Option String
  | .call (.intrinsic uri _) _ _ | .force (.intrinsic uri _) _ => some uri
  | _ => none

structure Flow where
  steps : List Step
  names : Names

abbrev FlowM := StateT Flow (Traced CompileError)

namespace FlowM

def note (e : Event) : FlowM Unit := StateT.lift (Traced.note e)

def push (x : String) (e : Expr) : FlowM Unit := do
  let boundary ← StateT.lift (Traced.ofExcept (e.boundary?.mapError CompileError.unknownCrossing))
  modify fun flow =>
    let isLate := fun y => flow.steps.any fun s => s.name == y && s.late
    let late := boundary.any (fun b => b.op.isAggregation) || e.free.any isLate
    { flow with steps := flow.steps ++ [⟨x, e, boundary, late⟩] }

/-- A name without any leading `federated_`; `fuel` bounds how many are taken off. -/
def bareName : (fuel : Nat) → List Char → List Char
  | 0, cs => cs
  | fuel + 1, cs =>
    let mark := "federated_".toList
    if mark.isPrefixOf cs then bareName fuel (cs.drop mark.length) else cs

def stepName (uri : String) : String :=
  String.ofList (bareName uri.length uri.toList)

/-- A placed intrinsic call inside an expression becomes a step; anything else stays. -/
def settle (top : Bool) (e : Expr) : FlowM Expr := do
  match calledUri? e with
  | some uri =>
    if !top && isStep e then
      let (x, names) := (← get).names.fresh (stepName uri)
      modify fun flow => { flow with names := names }
      note (.lifted x)
      push x e
      return .ref x e.ty
    else return e
  | none => return e

mutual

/-- Turn the intrinsic calls inside an expression into steps; at the `top` the expression itself
stays. -/
def lift (top : Bool) : Expr → FlowM Expr
  | .tuple es t => do return .tuple (← liftList es) t
  | .select e i t => do return .select (← lift false e) i t
  | .call f a t => do
    let a ← lift false a
    settle top (.call f a t)
  | .force f t => settle top (.force f t)
  | .ref x t => return .ref x t
  | .lit a t => return .lit a t
  | .lambda x e t => return .lambda x e t
  | .block ls r t => return .block ls r t
  | .intrinsic uri t => return .intrinsic uri t
  | .builtin b t => return .builtin b t

def liftList : List Expr → FlowM (List Expr)
  | [] => return []
  | e :: es => do
    let e ← lift false e
    return e :: (← liftList es)

end

/-- Make the locals steps, or replacements for what follows. -/
def locals : Subst → List (String × Expr) → FlowM Subst
  | inlined, [] => return inlined
  | inlined, (x, e) :: ls => do
    let e ← lift true (e.subst inlined)
    if isStep e then
      push x e
      locals inlined ls
    else
      note (.inlined x)
      locals (inlined.insert x e) ls

end FlowM

/-- The first name that occurs again behind its first occurrence, or in `seen`. -/
def firstRepeated? (seen : List String) : List String → Option String
  | [] => none
  | x :: xs => if x ∈ seen then some x else firstRepeated? (x :: seen) xs

def inputs? : Ty → Option (Ty × Ty)
  | .tuple [.placed s .coordinator _, .placed d .participants false] => some (s, d)
  | _ => none

def bodyParts : Expr → List (String × Expr) × Expr
  | .block ls r _ => (ls, r)
  | e => ([], e)

def View.ofRound (round : Expr) (template : Template) : Traced CompileError View := do
  let misfit :=
    fun m => (Traced.fail (.shape template .signature "round" m) : Traced CompileError View)
  match round with
  | .lambda (some param) body (.func paramTy _) =>
    match inputs? paramTy with
    | none => misfit (.parameterShape paramTy)
    | some (state, data) =>
      let (ls, result) := bodyParts body
      match firstRepeated? [param] (ls.map Prod.fst) with
      | some x => misfit (.boundTwice x)
      | none =>
        let collect : FlowM Expr := do
          let inlined ← FlowM.locals [] ls
          FlowM.lift true (result.subst inlined)
        let (result, flow) ← collect.run ⟨[], Names.avoiding round⟩
        return ⟨template, param, state, data, flow.steps, result, flow.names⟩
  | _ => misfit (.notALambda round.ty)

end TwoTier.Round

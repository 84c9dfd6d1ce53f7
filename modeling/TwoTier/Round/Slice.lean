import TwoTier.Round.View

/-! # Slices of a round

The part of a round that one slot needs, expressed over the slot's own parameter. The steps it uses
become locals of the slot. A slot keeps placed values as they are, or is lowered to work on the bare
values of one tier.
-/

namespace TwoTier.Round

inductive Mode where
  | placed
  | lowered
deriving DecidableEq, Repr

/-- What a slot can see: the round's state and data where it is given them, and the results of some
steps. -/
structure Slice where
  view : View
  mode : Mode
  stage : Stage
  slot : String
  state : Option Expr := none
  data : Option Expr := none
  inputs : Subst := []

/-- Slicing collects the locals of the slot, in order. -/
abbrev SliceM := StateT (List (String × Expr)) (Traced CompileError)

namespace Slice

def withInput (c : Slice) (x : String) (e : Expr) : Slice :=
  { c with inputs := c.inputs.insert x e }

def fail {α : Type} (e : CompileError) : SliceM α :=
  StateT.lift (Traced.fail e)

def misfit {α : Type} (c : Slice) (m : Misfit) : SliceM α :=
  fail (.shape c.view.template c.stage c.slot m)

def leak {α : Type} (c : Slice) (e : Expr) (reason : Leak) : SliceM α :=
  fail (.extraction (.leak c.slot e reason))

def typed (c : Slice) : Except TypeFault Expr → SliceM Expr
  | .ok e => return e
  | .error fault => c.misfit (.illTyped fault)

def bind (x : String) (e : Expr) : SliceM Expr := do
  modify fun ls => ls ++ [(x, e)]
  return .ref x e.ty

/-- A closed expression that touches no tier is kept as it is. -/
def unlessInert (e : Expr) (otherwise : SliceM Expr) : SliceM Expr :=
  if e.isClosed then
    match e.tier with
    | .error m => fail (.mixedCall m)
    | .ok .unplaced => return e
    | .ok _ => otherwise
  else otherwise

/-- A function, block or intrinsic goes into a slot only as a whole. -/
def whole (c : Slice) (e : Expr) : SliceM Expr :=
  match e.free with
  | x :: _ => c.leak e (.freeReference x)
  | [] => if c.mode = .lowered && e.ty.isPlaced then c.leak e (.placedFunction e.ty) else return e

/-- A name means an input, a local, or a step that `resolve` makes a local. -/
def reference (c : Slice) (resolve : Step → SliceM Expr) (e : Expr) (x : String) : SliceM Expr := do
  match c.inputs.lookup x with
  | some input => return input
  | none => match (← get).lookup x with
    | some e => return .ref x e.ty
    | none =>
      if x = c.view.param then c.misfit .wholeParameter
      else match c.view.step? x with
        | none => c.leak e (.freeReference x)
        | some step => match step.boundary with
          | some b => c.misfit (.unavailable x b.op)
          | none => resolve step

/-- The node `e` selects position `i` of `source`, which is `inside` the slot. -/
def selection (c : Slice) (e source : Expr) (i : Nat) (inside : SliceM Expr) : SliceM Expr :=
  unlessInert e <|
    let other : SliceM Expr := do c.typed ((← inside).mkSelect i)
    match source with
    | .ref x _ =>
      if x = c.view.param then
        match i with
        | 0 => c.state.elim (c.misfit .hiddenState) pure
        | _ => c.data.elim (c.misfit .hiddenData) pure
      else other
    | _ => other

def sequence : List (SliceM Expr) → SliceM (List Expr)
  | [] => return []
  | m :: ms => do
    let e ← m
    return e :: (← sequence ms)

/-- A call of an operation within a tier on bare values, given the parts of its argument or the
whole of it. -/
def loweredCall (c : Slice) (op : LocalOp) (parts : List (SliceM Expr)) (argument : SliceM Expr) :
    SliceM Expr := do
  match op with
  | .map | .apply => match parts with
    | [function, value] =>
      let function ← function
      let value ← value
      c.typed (function.mkCall value)
    | _ => c.misfit (.malformedArgument op.uri)
  | .zipAtClients | .zipAtServer => return Expr.mkTuple (← sequence parts)
  | .valueAtServer => argument

def intrinsicCall (c : Slice) (e : Expr) (uri : String) (parts : List (SliceM Expr))
    (argument : SliceM Expr) :
    SliceM Expr :=
  match Intrinsic.ofUri? uri with
  | some (.crossing _) => c.leak e (.crossing uri)
  | some (.within op) => match c.mode with
    | .placed => do c.typed (Expr.mkIntrinsicCall (.within op) (← argument))
    | .lowered => c.loweredCall op parts argument
  | none => c.misfit (.unknownIntrinsic uri)

def intrinsicForce (c : Slice) (e : Expr) (uri : String) : SliceM Expr :=
  match Intrinsic.ofUri? uri with
  | some (.crossing _) => c.leak e (.crossing uri)
  | _ => c.misfit (.withoutArgument uri)

mutual

/-- An expression of the round, inside the slot. -/
def valueWith (c : Slice) (resolve : Step → SliceM Expr) : Expr → SliceM Expr
  | .ref x t => unlessInert (.ref x t) (c.reference resolve (.ref x t) x)
  | .lit a t => return .lit a t
  | .builtin b t => return .builtin b t
  | .lambda x e t => unlessInert (.lambda x e t) (c.whole (.lambda x e t))
  | .block ls r t => unlessInert (.block ls r t) (c.whole (.block ls r t))
  | .intrinsic uri t => unlessInert (.intrinsic uri t) (c.whole (.intrinsic uri t))
  | .tuple es t => unlessInert (.tuple es t) do
    return Expr.mkTuple (← sequence (valuesWith c resolve es))
  | .select e i t => c.selection (.select e i t) e i (valueWith c resolve e)
  | .force (.intrinsic uri it) t =>
    unlessInert (.force (.intrinsic uri it) t) (c.intrinsicForce (.force (.intrinsic uri it) t) uri)
  | .force f t => unlessInert (.force f t) do
    c.typed (← valueWith c resolve f).mkForce
  | .call (.intrinsic uri it) (.tuple es at') t =>
    let e := .call (.intrinsic uri it) (.tuple es at') t
    let parts := valuesWith c resolve es
    let argument := unlessInert (.tuple es at') do return Expr.mkTuple (← sequence parts)
    unlessInert e (c.intrinsicCall e uri parts argument)
  | .call (.intrinsic uri it) a t =>
    let e := .call (.intrinsic uri it) a t
    let argument := valueWith c resolve a
    let parts := match a.ty with
      | .tuple ts => (List.range ts.length).map fun i => c.selection (a.field i) a i argument
      | _ => [argument]
    unlessInert e (c.intrinsicCall e uri parts argument)
  | .call f a t => unlessInert (.call f a t) do
    let function ← valueWith c resolve f
    let argument ← valueWith c resolve a
    c.typed (function.mkCall argument)

def valuesWith (c : Slice) (resolve : Step → SliceM Expr) : List Expr → List (SliceM Expr)
  | [] => []
  | e :: es => valueWith c resolve e :: valuesWith c resolve es

end

/-- Make a step a local of the slot; `depth` bounds how many steps lead to one another. -/
def resolve (c : Slice) : (depth : Nat) → Step → SliceM Expr
  | 0, step => c.misfit (.circular step.name)
  | depth + 1, step => do
    let e ← c.valueWith (resolve c depth) step.value
    StateT.lift (Traced.note (.emitted c.slot step.name e.ty))
    bind step.name e

/-- An expression of the round, inside the slot. A chain of steps without repetition is no longer
than the list of steps. -/
def value (c : Slice) (e : Expr) : SliceM Expr :=
  c.valueWith (c.resolve c.view.steps.length) e

/-- The value that a boundary step moves. -/
def channelValue (c : Slice) (s : Step) : SliceM Expr :=
  match s.boundary.bind fun b => b.args.head? with
  | some e => c.value e
  | none => c.misfit (.noValueArgument s.name)

def channelValues (c : Slice) (steps : List Step) : SliceM (List Expr) :=
  steps.mapM c.channelValue

/-- An argument of a boundary step that does not depend on the round's inputs. -/
def staticArgument (view : View) (s : Step) (index : Nat) (slot : String) :
    Traced CompileError (Expr × List (String × Expr)) :=
  let c : Slice := { view, mode := .lowered, stage := .aggregation, slot }
  match s.boundary.bind fun b => b.args[index]? with
  | some e => (c.value e).run []
  | none => (c.misfit (.missingArgument s.name index)).run []

end Slice

end TwoTier.Round

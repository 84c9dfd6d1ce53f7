import TwoTier.Trace
import TwoTier.Value.SecureSum

/-! # Evaluating expressions

A reference evaluator. Participants are a list, and aggregation goes over groups of them whose
results are then merged. A budget bounds how deep evaluation nests.
-/

namespace TwoTier

/-- How many participants there are, and how many are accumulated before merging. -/
structure Setting where
  participants : Nat
  groupSize : Nat := 2

inductive Halt where
  | fault (fault : EvalFault)
  | outOfBudget

abbrev Eval := Traced Halt

namespace Eval

def fault {α : Type} (f : EvalFault) : Eval α := Traced.fail (.fault f)

def misshapen {α : Type} (f : ShapeFault) : Eval α := fault (.shape f)

def ofExcept {α : Type} (x : Except EvalFault α) : Eval α :=
  Traced.ofExcept (x.mapError .fault)

instance : MonadLift (Except EvalFault) Eval where
  monadLift := ofExcept

/-- Groups of `size` items, the last one perhaps smaller, after `skipped` items already dealt
with. -/
def groupsFrom {α : Type} (size : Nat) : (skipped : Nat) → List α → List (List α)
  | _, [] => []
  | n + 1, _ :: as => groupsFrom size n as
  | 0, a :: as => (a :: as.take (size - 1)) :: groupsFrom size (size - 1) as

def groups {α : Type} (size : Nat) (as : List α) : List (List α) :=
  groupsFrom size 0 as

def fold (call : Value → Option Value → Eval Value) (f total : Value) : List Value → Eval Value
  | [] => return total
  | v :: vs => do
    let total ← call f (some (.pair total v))
    fold call f total vs

/-- Accumulate each group from `zero`, then merge the results. -/
def aggregate (s : Setting) (call : Value → Option Value → Eval Value) (values : List Value)
    (zero accumulate merge : Value) : Eval Value := do
  match ← Traced.each (fold call accumulate zero) (groups s.groupSize values) with
  | [] => return zero
  | first :: rest => fold call merge first rest

def secureSum (op : Crossing) (ty : Ty) (values : List Value) (parameter : Value) : Eval Value := do
  let parameter := match parameter with
    | .atServer p => p
    | p => p
  match ty.signature?.bind fun (_, r) => r.member? with
  | some member => return .atServer (← Value.secureSum op member values parameter)
  | none => misshapen (.secureResult op ty)

def row (columns : List (List Value)) (i : Nat) : Eval Value := do
  return .tuple (← Traced.each (fun column : List Value => match column[i]? with
    | some v => return v
    | none => misshapen (.missingValue i)) columns)

def within (s : Setting) (call : Value → Option Value → Eval Value) (op : LocalOp)
    (argument : Value) :
    Eval Value := do
  match op with
  | .map =>
    let (f, values) ← argument.two
    match values with
    | .atClients vs => return .atClients (← Traced.each (fun v => call f (some v)) vs)
    | .atServer v => return .atServer (← call f (some v))
    | v => misshapen (.notMappable v)
  | .apply =>
    let (f, value) ← argument.two
    let v ← value.serverContent
    return .atServer (← call f (some v))
  | .zipAtClients => match argument with
    | .tuple vs =>
      let columns ← Traced.each (fun v => ofExcept v.clientContents) vs
      return .atClients (← Traced.each (row columns) (List.range s.participants))
    | v => misshapen (.notZippable v)
  | .zipAtServer => match argument with
    | .tuple vs => return .atServer (.tuple (← Traced.each (fun v => ofExcept v.serverContent) vs))
    | v => misshapen (.notZippable v)
  | .valueAtServer => return .atServer argument

/-- An intrinsic of type `ty`, applied to its argument; `call` applies functions. -/
def intrinsic (s : Setting) (call : Value → Option Value → Eval Value) (op : Intrinsic) (ty : Ty)
    (argument : Value) : Eval Value := do
  match op with
  | .crossing .broadcast =>
    let v ← argument.serverContent
    return .atClients (List.replicate s.participants v)
  | .crossing .aggregate =>
    let (values, zero, accumulate, merge, report) ← argument.five
    let values ← values.clientContents
    let total ← aggregate s call values zero accumulate merge
    return .atServer (← call report (some total))
  | .crossing op =>
    let (values, parameter) ← argument.two
    let values ← values.clientContents
    secureSum op ty values parameter
  | .within op => within s call op argument

def locals (eval : Env → Expr → Eval Value) : Env → List (String × Expr) → Eval Env
  | env, [] => return env
  | env, (x, e) :: ls => do
    let v ← eval env e
    locals eval ((x, v) :: env) ls

mutual

def expr (s : Setting) : (budget : Nat) → Env → Expr → Eval Value
  | 0, _, _ => Traced.fail .outOfBudget
  | n + 1, env, e => do
    match e with
    | .ref x _ => match env.lookup x with
      | some v => return v
      | none => fault (.unbound x)
    | .lit (.int v) _ => return .int v
    | .lit (.float v) _ => return .float v
    | .lit (.bool v) _ => return .bool v
    | .tuple es _ => return .tuple (← Traced.each (expr s n env) es)
    | .select e i _ =>
      let v ← expr s n env e
      v.element i
    | .call f a _ =>
      let f ← expr s n env f
      let a ← expr s n env a
      call s n f (some a)
    | .force f _ =>
      let f ← expr s n env f
      call s n f none
    | .lambda x body _ => return .closure x body env
    | .block ls r _ =>
      let env ← locals (expr s n) env ls
      expr s n env r
    | .intrinsic uri ty => match Intrinsic.ofUri? uri with
      | some op => return .intrinsic op ty
      | none => fault (.unknownIntrinsic uri)
    | .builtin b ty => return .builtin b ty.resultOrEmpty

/-- Apply a function. An argument that it has no parameter for is dropped. -/
def call (s : Setting) : (budget : Nat) → Value → Option Value → Eval Value
  | 0, _, _ => Traced.fail .outOfBudget
  | n + 1, f, argument => do
    match f with
    | .closure param body env =>
      let env := match param, argument with
        | some x, some v => (x, v) :: env
        | _, _ => env
      expr s n env body
    | .builtin b operand => Value.applyBuiltin b operand (argument.getD .empty)
    | .intrinsic op ty =>
      Traced.note (.called op)
      intrinsic s (call s n) op ty (argument.getD .empty)
    | v => misshapen (.notCallable v)

end

/-- A budget that rounds of any reasonable size stay far below. -/
def budget : Nat := 1000000

def closed (budget : Nat) (e : Expr) : Eval Value :=
  expr { participants := 0 } budget [] e

/-- Run a round on a state and one value per participant. -/
def round (budget groupSize : Nat) (r : Expr) (state : Value) (data : List Value) : Eval Value := do
  let s : Setting := { participants := data.length, groupSize }
  let f ← expr s budget [] r
  call s budget f (some (.pair (.atServer state) (.atClients data)))

end Eval

end TwoTier

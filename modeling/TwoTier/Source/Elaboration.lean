import TwoTier.Diagnostic
import TwoTier.Expr.Build
import TwoTier.Source.Parser

/-! # From trees to typed expressions

Names are looked up, innermost binding first, and every node gets its type. Several arguments of a
call are packed into a tuple. A name that is not bound but names an intrinsic may be called.
-/

namespace TwoTier.Source

inductive Reason where
  | unboundName (name : String)
  | unknownType (name : String)
  | unknownPlacement (name : String)
  | illTyped (fault : TypeFault)
  | missingOperand (name : String)
  | unknownBuiltin (name : String)
  | uncalledIntrinsic (name : String)

namespace Reason

def code : Reason → String
  | .unboundName _ => "E0101"
  | .unknownType _ => "E0102"
  | .unknownPlacement _ => "E0103"
  | .illTyped _ => "E0104"
  | .missingOperand _ | .unknownBuiltin _ => "E0105"
  | .uncalledIntrinsic _ => "E0106"

def message : Reason → String
  | .unboundName x => "unbound name `" ++ x ++ "`"
  | .unknownType x => "unknown type `" ++ x ++ "`"
  | .unknownPlacement x => "unknown placement `" ++ x ++ "`"
  | .illTyped fault => fault.message
  | .missingOperand x => "builtin `" ++ x ++ "` needs an operand type"
  | .unknownBuiltin x => "unknown builtin `" ++ x ++ "`"
  | .uncalledIntrinsic x => "intrinsic `" ++ x ++ "` must be called"

def hint : Reason → Option String
  | .unknownType _ => some "types are int32, float32, bool, <...>, T*, (T -> R) and placed types"
  | .unknownPlacement _ => some "placements are SERVER (COORDINATOR) and CLIENTS (PARTICIPANTS)"
  | .missingOperand x => some ("write `" ++ x ++ "<int32>`")
  | .unknownBuiltin _ => some "builtins are add, sub, mul, max, min and sequence_sum"
  | .uncalledIntrinsic _ => some "write `intrinsic \"uri\" : T` to refer to an intrinsic as a value"
  | .unboundName _ | .illTyped _ => none

end Reason

structure Meaningless where
  reason : Reason
  span : Span

def Meaningless.diagnostic (m : Meaningless) : Diagnostic where
  code := some m.reason.code
  span := some m.span
  message := m.reason.message
  hint := m.reason.hint

abbrev Scope := List (String × Ty)

mutual

def TypeTree.toTy : TypeTree → Except Meaningless Ty
  | .named x _ => match Scalar.ofName? x.name with
    | some s => .ok (.scalar s)
    | none => .error ⟨.unknownType x.name, x.span⟩
  | .tuple ts _ => do return .tuple (← TypeTree.toTys ts)
  | .seq t _ => do return .seq (← t.toTy)
  | .func p r _ => do
    let p ← p.toTy
    return .func p (← r.toTy)
  | .thunk r _ => do return .thunk (← r.toTy)
  | .placed m x allEqual _ => match Placement.ofName? x.name with
    | some p => do return .place (← m.toTy) p allEqual
    | none => .error ⟨.unknownPlacement x.name, x.span⟩

def TypeTree.toTys : List TypeTree → Except Meaningless (List Ty)
  | [] => .ok []
  | t :: ts => do
    let t ← t.toTy
    return t :: (← TypeTree.toTys ts)

end

def typed {α : Type} (span : Span) (r : Except TypeFault α) : Except Meaningless α :=
  r.mapError fun fault => ⟨.illTyped fault, span⟩

def nameExpr (scope : Scope) (x : Ident) : Except Meaningless Expr :=
  match scope.lookup x.name with
  | some t => .ok (.ref x.name t)
  | none =>
    if (Intrinsic.ofUri? x.name).isSome then .error ⟨.uncalledIntrinsic x.name, x.span⟩
    else if (Builtin.ofName? x.name).isSome then .error ⟨.missingOperand x.name, x.span⟩
    else .error ⟨.unboundName x.name, x.span⟩

/-- The intrinsic that a function position names, unless the name is bound. -/
def calledIntrinsic? (scope : Scope) : Tree → Option Intrinsic
  | .name x _ => if (scope.lookup x.name).isNone then Intrinsic.ofUri? x.name else none
  | _ => none

/-- The one argument that a list of arguments stands for. -/
def packed : List Expr → Option Expr
  | [] => none
  | [e] => some e
  | es => some (Expr.mkTuple es)

mutual

def Tree.toExpr (scope : Scope) : Tree → Except Meaningless Expr
  | .int v _ => .ok (Expr.int v)
  | .float v _ => .ok (Expr.float v)
  | .bool v _ => .ok (Expr.boolean v)
  | .name x _ => nameExpr scope x
  | .builtin x t span => match Builtin.ofName? x.name with
    | some b => do
      let t ← t.toTy
      typed span (Expr.mkBuiltin b t)
    | none => .error ⟨.unknownBuiltin x.name, x.span⟩
  | .tuple es _ => do return Expr.mkTuple (← Tree.toExprs scope es)
  | .call f as span => do
    let argument := packed (← Tree.toExprs scope as)
    match calledIntrinsic? scope f with
    | some i => typed span (Expr.mkIntrinsicCall i (argument.getD Expr.unit))
    | none =>
      let f ← f.toExpr scope
      typed span (Expr.mkApply f argument)
  | .select e i span => do
    let e ← e.toExpr scope
    typed span (Expr.mkSelect e i)
  | .lambda (some (x, t)) e _ => do
    let t ← t.toTy
    return Expr.mkLambda x.name t (← e.toExpr ((x.name, t) :: scope))
  | .lambda none e _ => do return Expr.mkDelay (← e.toExpr scope)
  | .letIn bs e _ => do
    let (ls, scope) ← Tree.toLocals scope bs
    return Expr.mkBlock ls (← e.toExpr scope)
  | .intrinsic uri t _ => do return .intrinsic uri (← t.toTy)

def Tree.toExprs (scope : Scope) : List Tree → Except Meaningless (List Expr)
  | [] => .ok []
  | e :: es => do
    let e ← e.toExpr scope
    return e :: (← Tree.toExprs scope es)

def Tree.toLocals (scope : Scope) :
    List (Ident × Tree) → Except Meaningless (List (String × Expr) × Scope)
  | [] => .ok ([], scope)
  | (x, e) :: bs => do
    let e ← e.toExpr scope
    let (ls, scope) ← Tree.toLocals ((x.name, e.ty) :: scope) bs
    return ((x.name, e) :: ls, scope)

end

inductive Fault where
  | malformed (faults : List SyntaxFault)
  | meaningless (fault : Meaningless)

def Fault.diagnostics : Fault → List Diagnostic
  | .malformed faults => faults.map fun f =>
    { code := some "E0100", span := some f.span, message := f.message }
  | .meaningless f => [f.diagnostic]

def read (source : String) : Except Fault Expr := do
  let tree ← (parse source).mapError .malformed
  (tree.toExpr []).mapError .meaningless

end TwoTier.Source

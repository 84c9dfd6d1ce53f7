import TwoTier.Expr.Basic
import TwoTier.Ty.Json
import TwoTier.Whole

/-! # Serialized expressions

Every node is a record of its kind and its recorded type. Nothing is checked on reading but the
shape.
-/

namespace TwoTier

namespace Builtin

def tag : Builtin → String
  | .add => "Add"
  | .sub => "Sub"
  | .mul => "Mul"
  | .max => "Max"
  | .min => "Min"
  | .sequenceSum => "SequenceSum"

def ofTag? (s : String) : Option Builtin :=
  all.find? fun b => b.tag == s

end Builtin

namespace Literal

def toJson : Literal → Json
  | .int v => .tagged "Int" (.int v)
  | .float v => .tagged "Float" (.float v)
  | .bool v => .tagged "Bool" (.bool v)

/-- A whole number may stand for a fractional one, but not the other way round. -/
def ofJson? (j : Json) : Option Literal := do
  match ← j.choice? with
  | ("Int", .int v) => if Whole.inRange v then some (.int v) else none
  | ("Float", .float v) => return .float v
  | ("Float", .int v) => return .float (Float.ofInt v)
  | ("Bool", .bool v) => return .bool v
  | _ => none

end Literal

namespace Expr

def nodeJson (kind : String) (content : Json) (ty : Ty) : Json :=
  .obj [("kind", .tagged kind content), ("ty", ty.toJson)]

mutual

def toJson : Expr → Json
  | .ref x t => nodeJson "Reference" (.str x) t
  | .lit a t => nodeJson "Literal" a.toJson t
  | .tuple es t => nodeJson "Struct" (.arr (toJsons es)) t
  | .select e i t => nodeJson "Selection" (.obj [("source", e.toJson), ("index", .int i)]) t
  | .call f a t => nodeJson "Call" (.obj [("function", f.toJson), ("argument", a.toJson)]) t
  | .force f t => nodeJson "Call" (.obj [("function", f.toJson), ("argument", .null)]) t
  | .lambda (some x) e t => nodeJson "Lambda" (.obj [("parameter", .str x), ("body", e.toJson)]) t
  | .lambda none e t => nodeJson "Lambda" (.obj [("parameter", .null), ("body", e.toJson)]) t
  | .block ls r t =>
    nodeJson "Block" (.obj [("locals", .arr (localJsons ls)), ("result", r.toJson)]) t
  | .intrinsic uri t => nodeJson "Intrinsic" (.obj [("uri", .str uri)]) t
  | .builtin b t => nodeJson "Builtin" (.str b.tag) t

def toJsons : List Expr → List Json
  | [] => []
  | e :: es => e.toJson :: toJsons es

def localJsons : List (String × Expr) → List Json
  | [] => []
  | (x, e) :: ls => .arr [.str x, e.toJson] :: localJsons ls

end

def decodeLocal (expr : Json → Option Expr) : Json → Option (String × Expr)
  | .arr [.str x, e] => do return (x, ← expr e)
  | _ => none

/-- The expression that serialized data less than `depth` deep stands for. -/
def decode (style : Json.Style) : (depth : Nat) → Json → Option Expr
  | 0, _ => none
  | n + 1, j => do
    let ty ← Ty.ofJson? style (← j.part? ["kind", "ty"] "ty")
    match ← (← j.part? ["kind", "ty"] "kind").choice? with
    | ("Reference", .str x) => return .ref x ty
    | ("Literal", a) => return .lit (← Literal.ofJson? a) ty
    | ("Struct", .arr es) => return .tuple (← es.mapM (decode style n)) ty
    | ("Selection", f) =>
      let part? := fun name => f.contentPart? style ["source", "index"] name
      let source ← decode style n (← part? "source")
      match ← part? "index" with
      | .int i => if 0 ≤ i then return .select source i.toNat ty else none
      | _ => none
    | ("Call", f) =>
      let part? := fun name => f.contentPart? style ["function", "argument"] name
      let function ← decode style n (← part? "function")
      match (part? "argument").getD .null with
      | .null => return .force function ty
      | a => return .call function (← decode style n a) ty
    | ("Lambda", f) =>
      let part? := fun name => f.contentPart? style ["parameter", "body"] name
      let body ← decode style n (← part? "body")
      match (part? "parameter").getD .null with
      | .null => return .lambda none body ty
      | .str x => return .lambda (some x) body ty
      | _ => none
    | ("Block", f) =>
      let part? := fun name => f.contentPart? style ["locals", "result"] name
      let locals ← (← (← part? "locals").arr?).mapM (decodeLocal (decode style n))
      return .block locals (← decode style n (← part? "result")) ty
    | ("Intrinsic", f) => return .intrinsic (← (← f.contentPart? style ["uri"] "uri").str?) ty
    | ("Builtin", b) => return .builtin (← Builtin.ofTag? (← b.bareChoice? style)) ty
    | _ => none

def ofJson? (style : Json.Style) (j : Json) : Option Expr :=
  decode style j.height j

end Expr

end TwoTier

import TwoTier.Json.Basic
import TwoTier.Ty.Basic

/-! # Serialized types

Types as JSON: every choice is an object of one field named for it.
-/

namespace TwoTier

namespace Scalar

def tag : Scalar → String
  | .int32 => "Int32"
  | .float32 => "Float32"
  | .bool => "Bool"

def ofTag? : String → Option Scalar
  | "Int32" => some .int32
  | "Float32" => some .float32
  | "Bool" => some .bool
  | _ => none

end Scalar

namespace Placement

def tag : Placement → String
  | .coordinator => "Coordinator"
  | .participants => "Participants"

def ofTag? : String → Option Placement
  | "Coordinator" => some .coordinator
  | "Participants" => some .participants
  | _ => none

end Placement

namespace Ty

mutual

def toJson : Ty → Json
  | .scalar s => .tagged "Scalar" (.str s.tag)
  | .tuple ts => .tagged "Struct" (.arr (toJsons ts))
  | .seq t => .tagged "Sequence" t.toJson
  | .func p r => .tagged "Function" (.obj [("parameter", p.toJson), ("result", r.toJson)])
  | .thunk r => .tagged "Function" (.obj [("parameter", .null), ("result", r.toJson)])
  | .placed m p e => .tagged "Federated"
    (.obj [("member", m.toJson), ("placement", .str p.tag), ("all_equal", .bool e)])

def toJsons : List Ty → List Json
  | [] => []
  | t :: ts => t.toJson :: toJsons ts

end

def decode (style : Json.Style) : (depth : Nat) → Json → Option Ty
  | 0, _ => none
  | n + 1, j => do
    match ← j.choice? with
    | ("Scalar", s) => return .scalar (← Scalar.ofTag? (← s.bareChoice? style))
    | ("Struct", ts) => return .tuple (← (← ts.arr?).mapM (decode style n))
    | ("Sequence", t) => return .seq (← decode style n t)
    | ("Function", f) =>
      let part? := fun name => f.contentPart? style ["parameter", "result"] name
      let result ← decode style n (← part? "result")
      match (part? "parameter").getD .null with
      | .null => return .thunk result
      | p => return .func (← decode style n p) result
    | ("Federated", f) =>
      let part? := fun name => f.contentPart? style ["member", "placement", "all_equal"] name
      let member ← decode style n (← part? "member")
      let placement ← Placement.ofTag? (← (← part? "placement").bareChoice? style)
      return .placed member placement (← (← part? "all_equal").bool?)
    | _ => none

def ofJson? (style : Json.Style) (j : Json) : Option Ty :=
  decode style j.height j

end Ty

end TwoTier

/-! # Serialized data

The data model of JSON. Whole numbers and numbers with a fraction or exponent are kept apart, and
the fields of an object keep their order.
-/

namespace TwoTier

inductive Json where
  | null
  | bool (value : Bool)
  | int (value : Int)
  | float (value : Float)
  | str (value : String)
  | arr (items : List Json)
  | obj (fields : List (String × Json))
deriving Inhabited

namespace Json

/-- The value of a field; of several fields with one name the last. -/
def field? (name : String) : Json → Option Json
  | .obj fields => (fields.reverse.find? fun f => f.1 == name).map Prod.snd
  | _ => none

def str? : Json → Option String
  | .str s => some s
  | _ => none

def bool? : Json → Option Bool
  | .bool b => some b
  | _ => none

def int? : Json → Option Int
  | .int n => some n
  | _ => none

def arr? : Json → Option (List Json)
  | .arr items => some items
  | _ => none

def tagged (tag : String) (content : Json) : Json :=
  .obj [(tag, content)]

/-- The tag and content of a choice; a bare tag has no content. -/
def choice? : Json → Option (String × Json)
  | .str tag => some (tag, .null)
  | .obj [field] => some field
  | _ => none

inductive Style where
  /-- Parts have names, and no content is null. -/
  | named
  /-- Parts may also be listed, and no content may also be an empty object. -/
  | listed
deriving DecidableEq, Repr

def bareChoice? (style : Style) (j : Json) : Option String :=
  match j.choice?, style with
  | some (tag, .null), _ => some tag
  | some (tag, .obj []), .listed => some tag
  | _, _ => none

/-- One part of a record, which is an object or a list of all parts in the order of `names`. -/
def part? (names : List String) (name : String) : Json → Option Json
  | .obj fields => (Json.obj fields).field? name
  | .arr items => if items.length = names.length then (names.zip items).lookup name else none
  | _ => none

def contentPart? (style : Style) (names : List String) (name : String) (j : Json) : Option Json :=
  match style, j with
  | .named, .arr _ => none
  | _, j => j.part? names name

mutual

def height : Json → Nat
  | .null | .bool _ | .int _ | .float _ | .str _ => 1
  | .arr items => heightItems items + 1
  | .obj fields => heightFields fields + 1

def heightItems : List Json → Nat
  | [] => 0
  | j :: js => max (height j) (heightItems js)

def heightFields : List (String × Json) → Nat
  | [] => 0
  | (_, j) :: fs => max (height j) (heightFields fs)

end

end Json

end TwoTier

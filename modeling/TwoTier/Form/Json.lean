import TwoTier.Digest
import TwoTier.Expr.Json
import TwoTier.Form.Check
import TwoTier.Json.Reader
import TwoTier.Json.Writer

/-! # Serialized forms

A form is a record of its template and the payload of every slot. What is read is checked to be a
form, and its parts may be listed as well as named.
-/

namespace TwoTier

namespace Template

def tag : Template → String
  | .mapReduce => "map_reduce"
  | .distributeAggregate => "distribute_aggregate"
  | .broadcast => "broadcast"

def ofTag? (s : String) : Option Template :=
  all.find? fun t => t.tag == s

end Template

namespace Form

def toJson (f : Form) : Json :=
  .obj (("form", .str f.template.tag) :: f.named.map fun (slot, b) => (slot, b.payload.toJson))

/-- The one-line text that a form is known by. -/
def canonicalText (f : Form) : String :=
  f.toJson.compact

def fingerprint (f : Form) : String :=
  Digest.sha256 f.canonicalText

inductive LoadError where
  | undecodable
  | incompatible (violation : Incompatible)

/-- The template's tag and the record of the slots; in a list the tag comes first. -/
def tagAndSlots? : Json → Option (Json × Json)
  | .arr (tag :: slots) => some (tag, .arr slots)
  | .obj fields => ((Json.obj fields).field? "form").map fun tag => (tag, .obj fields)
  | _ => none

def partsOfJson? (j : Json) : Option Parts := do
  let (tag, slots) ← tagAndSlots? j
  let template ← Template.ofTag? (← tag.str?)
  template.slots.traverse fun slot => do
    Expr.ofJson? .listed (← slots.part? template.slots.toList slot)

def ofJson (j : Json) : Except LoadError Form :=
  match partsOfJson? j with
  | some parts => (ofParts parts).result.mapError .incompatible
  | none => .error .undecodable

def maxDepth : Nat := 127

def ofText (s : String) : Except LoadError Form :=
  match Json.read? maxDepth s with
  | some j => ofJson j
  | none => .error .undecodable

end Form

end TwoTier

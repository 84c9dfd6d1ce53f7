import TwoTier.Form.Json

/-! # Provenance

Digests of a source text and of the form compiled from it, for reproducible builds.
-/

namespace TwoTier

structure Provenance where
  sourceHash : String
  fingerprint : Option String
  template : Option Template

namespace Provenance

def version : String := "0.3.1"

def ofSource (source : String) (form : Option Form) : Provenance where
  sourceHash := Digest.sha256 source
  fingerprint := form.map Form.fingerprint
  template := form.map Slotted.template

def text (p : Provenance) : String :=
  let orNull := fun (s : Option String) => s.elim Json.null Json.str
  Json.indented 0 (.obj [
    ("source_hash", .str p.sourceHash),
    ("form_fingerprint", orNull p.fingerprint),
    ("template", orNull (p.template.map Template.name)),
    ("compiler_version", .str version)])

end Provenance

end TwoTier

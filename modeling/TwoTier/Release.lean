import TwoTier.Diagnostic
import TwoTier.Trace

/-! # Releasing values

Values that are published, each with a key if there is one. The manager counts them.
-/

namespace TwoTier

inductive ReleaseError where
  | negativeKey (key : Int)
deriving DecidableEq, Repr

namespace ReleaseError

def message : ReleaseError → String
  | .negativeKey k => s!"release key must be non-negative, found {k}"

def code : ReleaseError → String
  | .negativeKey _ => "E0801"

def diagnostic (e : ReleaseError) : Diagnostic where
  code := some e.code
  message := e.message

end ReleaseError

structure ReleaseManager where
  released : Nat := 0

namespace ReleaseManager

def release (m : ReleaseManager) (v : Value) (key : Option Int) :
    Traced ReleaseError ReleaseManager := do
  match key with
  | some k =>
    if k < 0 then .fail (.negativeKey k)
    else
      Traced.note (.released (some k) v)
      return ⟨m.released + 1⟩
  | none =>
    Traced.note (.released none v)
    return ⟨m.released + 1⟩

end ReleaseManager

end TwoTier

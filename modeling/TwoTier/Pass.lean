/-! # Passes

The passes from a syntax tree to forms and values, with what each needs and produces.
-/

namespace TwoTier

inductive Pass where
  | elaborate
  | classify
  | recognize
  | factor
  | validate
  | synthesize
  | evaluate
deriving DecidableEq, Repr

inductive Artifact where
  | round
  | tiers
  | boundaries
  | parts
  | form
  | synthesized
  | evaluation
deriving DecidableEq, Repr

namespace Pass

def all : List Pass :=
  [.elaborate, .classify, .recognize, .factor, .validate, .synthesize, .evaluate]

def name : Pass → String
  | .elaborate => "elaborate"
  | .classify => "classify"
  | .recognize => "recognize"
  | .factor => "match"
  | .validate => "validate"
  | .synthesize => "synthesize"
  | .evaluate => "evaluate"

def ofName? (s : String) : Option Pass :=
  all.find? fun p => p.name == s

def inputs : Pass → List Pass
  | .elaborate => []
  | .classify | .recognize => [.elaborate]
  | .factor => [.classify, .recognize]
  | .validate => [.factor]
  | .synthesize | .evaluate => [.validate]

def outputs : Pass → List Artifact
  | .elaborate => [.round]
  | .classify => [.tiers]
  | .recognize => [.boundaries]
  | .factor => [.parts]
  | .validate => [.form]
  | .synthesize => [.synthesized]
  | .evaluate => [.evaluation]

def invariants : Pass → String
  | .elaborate => "names resolved, every node typed"
  | .classify => "every node has a tier, no call mixes tiers"
  | .recognize => "every tier-crossing call is one of the five primitives"
  | .factor => "every slot bound to an extracted local block"
  | .validate => "slot signatures compose"
  | .synthesize => "rebuilt round has the form's type signature"
  | .evaluate => "form and round agree on the given inputs"

/-- Append a pass behind all that it needs, unless it is there already; `depth` bounds the chain of
needs. -/
def schedule : (depth : Nat) → List Pass → Pass → List Pass
  | 0, order, _ => order
  | depth + 1, order, p => if p ∈ order then order else p.inputs.foldl (schedule depth) order ++ [p]

def required (p : Pass) : List Pass :=
  schedule all.length [] p

end Pass

end TwoTier

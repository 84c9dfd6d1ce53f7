import TwoTier.Boundary
import TwoTier.Tier.Tree
import TwoTier.Trace

/-! # Local blocks

A closed function that stays on one tier and has exactly the signature asked for. Only a block for
both tiers may cross from one to the other.
-/

namespace TwoTier

/-- Why an expression is not local to the tier of its slot. -/
inductive Leak where
  | foreignTier (found required : Tier)
  | crossing (uri : String)
  | freeReference (name : String)
  | mixedCall (call : MixedCall)
  | placedFunction (ty : Ty)

def Leak.message : Leak → String
  | .foreignTier found required =>
    "value placed at " ++ found.text ++ " inside a " ++ required.text ++ " block"
  | .crossing uri => "cross-tier intrinsic `" ++ uri ++ "` inside a local block"
  | .freeReference x => "free reference to `" ++ x ++ "`"
  | .mixedCall m => m.message
  | .placedFunction t => "placed function of type " ++ t.text

inductive ExtractError where
  | signature (slot : String) (expected actual : Ty)
  | leak (slot : String) (expr : Expr) (reason : Leak)

namespace ExtractError

def slot : ExtractError → String
  | .signature slot _ _ | .leak slot _ _ => slot

def message : ExtractError → String
  | .signature slot expected actual =>
    "slot `" ++ slot ++ "`: expected signature " ++ expected.text ++ ", found " ++ actual.text
  | .leak slot e reason =>
    "slot `" ++ slot ++ "`: cross-tier leakage in `" ++ e.text ++ "`: " ++ reason.message

end ExtractError

structure Block where
  signature : Ty
  payload : Expr
  tier : Tier

namespace Block

def paramType? (b : Block) : Option Ty :=
  match b.signature with
  | .func p _ => some p
  | _ => none

def resultType (b : Block) : Ty :=
  match b.signature.signature? with
  | some (_, r) => r
  | none => b.signature

def same (a b : Block) : Bool :=
  a.signature == b.signature && a.payload.same b.payload && a.tier == b.tier

end Block

namespace Expr

/-- The leak of an intrinsic that crosses tiers; an unknown one does if its type does. -/
def crossingLeak? : Expr → Option (Expr × Leak)
  | .intrinsic uri t =>
    let crosses := match Intrinsic.ofUri? uri with
      | some (.crossing _) => true
      | some (.within _) => false
      | none => t.crossesTiers
    if crosses then some (.intrinsic uri t, .crossing uri) else none
  | _ => none

/-- The first part of `e`, with its leak, that keeps `e` from being local to `required`. -/
def leak? (e : Expr) (required : Tier) : Option (Expr × Leak) :=
  match e.classify with
  | .error m => some (e, .mixedCall m)
  | .ok tree =>
    let crossing := if required = .crossTier then none else e.subterms.findSome? crossingLeak?
    let captured := e.free.head?.map fun x => (e, Leak.freeReference x)
    let foreign := ((e.subterms.zip tree.labels).find? fun (_, tier) => !tier.fits required).map
      fun (part, tier) => (part, Leak.foreignTier tier required)
    crossing <|> captured <|> foreign

/-- The block that `e` is for `slot`, local to `tier` and of type `expected`. -/
def extract (e : Expr) (expected : Ty) (tier : Tier) (slot : String) :
    Traced ExtractError Block := do
  match e.leak? tier with
  | some (part, reason) => .fail (.leak slot part reason)
  | none =>
    if e.ty ≠ expected then .fail (.signature slot expected e.ty)
    else
      Traced.note (.extracted slot expected tier)
      return ⟨expected, e, tier⟩

end Expr

end TwoTier

import TwoTier.Ty.Basic

/-! # Tiers

Which of the two tiers something touches: none, one, or both.
-/

namespace TwoTier

inductive Tier where
  | unplaced
  | coordinator
  | participants
  | crossTier
deriving DecidableEq, Repr

namespace Tier

def text : Tier → String
  | .unplaced => "UNPLACED"
  | .coordinator => "COORDINATOR"
  | .participants => "PARTICIPANTS"
  | .crossTier => "CROSS-TIER"

def join : Tier → Tier → Tier
  | .unplaced, t => t
  | t, .unplaced => t
  | a, b => if a = b then a else .crossTier

def ofPlacement : Placement → Tier
  | .coordinator => .coordinator
  | .participants => .participants

def ofMentions : (coordinator participants : Bool) → Tier
  | false, false => .unplaced
  | true, false => .coordinator
  | false, true => .participants
  | true, true => .crossTier

/-- A part of tier `t` may stand in a block restricted to `required`. -/
def fits (t required : Tier) : Bool :=
  t == .unplaced || required == .crossTier || t == required

end Tier

def Ty.tier (t : Ty) : Tier :=
  Tier.ofMentions (t.mentions .coordinator) (t.mentions .participants)

end TwoTier

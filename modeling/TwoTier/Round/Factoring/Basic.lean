import TwoTier.Round.Slice

/-! # Filling slots

What the three templates have in common: extracting the candidate for a slot, and the slot that
computes what the coordinator sends to the participants.
-/

namespace TwoTier.Round

def declare (template : Template) (x : String) (t : Ty) : Traced CompileError Unit :=
  Traced.note (.declared template x t)

def fillSlot (candidate : Expr) (expected : Ty) (tier : Tier) (slot : String) :
    Traced CompileError Expr := do
  let block ← (candidate.extract expected tier slot).mapError CompileError.extraction
  Traced.note (.bound slot expected)
  return block.payload

def closeOver (x : String) (t : Ty) (result : Expr) (locals : List (String × Expr)) : Expr :=
  Expr.mkLambda x t (Expr.mkBlock locals result)

def tupleType (es : List Expr) : Ty :=
  .tuple (es.map Expr.ty)

def resultOf (e : Expr) : Ty :=
  match e.ty.signature? with
  | some (_, r) => r
  | none => e.ty

namespace View

def output? (v : View) : Option Ty :=
  match v.result.ty with
  | .tuple [s, .placed x .coordinator _] => if s = .atCoordinator v.state then some x else none
  | _ => none

/-- No broadcast may depend on an aggregation. -/
def broadcastsFirst (v : View) (slot : String) : Traced CompileError Unit := do
  Traced.note (.reached v.template .broadcast)
  match v.broadcasts.find? Step.late with
  | some s => Traced.fail (.shape v.template .broadcast slot (.lateBroadcast s.name))
  | none => return

/-- The slot that computes the values to be broadcast from the state, a single value or a tuple of
them, and its result type. -/
def serverContext (v : View) (slot stateName : String) : Traced CompileError (Expr × Ty) := do
  let c : Slice := {
    view := v, mode := .lowered, stage := .broadcast, slot, state := some (.ref stateName v.state) }
  let (values, locals) ← (c.channelValues v.broadcasts).run []
  let context := match values with
    | [e] => e
    | es => Expr.mkTuple es
  declare v.template "C" context.ty
  let slotted ← fillSlot (closeOver stateName v.state context locals)
    (.func v.state context.ty) .unplaced slot
  return (slotted, context.ty)

def indexedBroadcasts (v : View) (source : Expr) (c : Slice) : Slice :=
  v.broadcasts.zipIdx.foldl (fun c (s, i) => c.withInput s.name (source.field i)) c

/-- The results of broadcasts found in `source`, which is the one result if there is just one. -/
def broadcastResults (v : View) (source : Expr) (c : Slice) : Slice :=
  match v.broadcasts with
  | [s] => c.withInput s.name source
  | _ => v.indexedBroadcasts source c

end View

end TwoTier.Round

import TwoTier.Expr.Text
import TwoTier.Tier

/-! # Tiers of expressions

Every node of an expression is labelled with the tier that it and its parts touch. Only intrinsics
may take values of both tiers.
-/

namespace TwoTier

inductive TierTree where
  | node (tier : Tier) (parts : List TierTree)

namespace TierTree

def tier : TierTree → Tier
  | .node t _ => t

def parts : TierTree → List TierTree
  | .node _ ts => ts

mutual

def labels : TierTree → List Tier
  | .node t ts => t :: labelsList ts

def labelsList : List TierTree → List Tier
  | [] => []
  | t :: ts => labels t ++ labelsList ts

end

end TierTree

/-- A call that is no intrinsic but takes values of both tiers. -/
structure MixedCall where
  call : Expr

def MixedCall.message (m : MixedCall) : String :=
  "malformed IR: call `" ++ m.call.text ++ "` mixes coordinator and participant values"

namespace Expr

def isIntrinsic : Expr → Bool
  | .intrinsic _ _ => true
  | _ => false

/-- The label of a node of type `t` with parts labelled `ts`. -/
def label (t : Ty) (ts : List TierTree) : TierTree :=
  .node (ts.foldl (fun tier part => tier.join part.tier) t.tier) ts

mutual

def classify : Expr → Except MixedCall TierTree
  | .ref _ t | .lit _ t | .intrinsic _ t | .builtin _ t => .ok (label t [])
  | .tuple es t => do return label t (← classifyList es)
  | .select e _ t => do return label t [← classify e]
  | .call f a t => do
    let function ← classify f
    let argument ← classify a
    if !f.isIntrinsic && a.ty.crossesTiers then .error ⟨.call f a t⟩
    else .ok (label t [function, argument])
  | .force f t => do return label t [← classify f]
  | .lambda _ e t => do return label t [← classify e]
  | .block ls r t => do
    let locals ← classifyLocals ls
    return label t (locals ++ [← classify r])

def classifyList : List Expr → Except MixedCall (List TierTree)
  | [] => .ok []
  | e :: es => do
    let tree ← classify e
    return tree :: (← classifyList es)

def classifyLocals : List (String × Expr) → Except MixedCall (List TierTree)
  | [] => .ok []
  | (_, e) :: ls => do
    let tree ← classify e
    return tree :: (← classifyLocals ls)

end

def tier (e : Expr) : Except MixedCall Tier :=
  e.classify.map TierTree.tier

def heading : Expr → String
  | .ref x _ => "ref " ++ x
  | .lit a _ => "lit " ++ a.text
  | .tuple es _ => "struct/" ++ toString es.length
  | .select _ i _ => "select [" ++ toString i ++ "]"
  | .call _ _ _ | .force _ _ => "call"
  | .lambda x _ _ => "lambda " ++ x.getD "()"
  | .block ls _ _ => "block [" ++ String.intercalate ", " (ls.map Prod.fst) ++ "]"
  | .intrinsic uri _ => "intrinsic " ++ uri
  | .builtin b _ => "builtin " ++ b.name

mutual

def outline (depth : Nat) : Expr → List (Nat × String × Ty)
  | .ref x t => [(depth, heading (.ref x t), t)]
  | .lit a t => [(depth, heading (.lit a t), t)]
  | .tuple es t => (depth, heading (.tuple es t), t) :: outlineList (depth + 1) es
  | .select e i t => (depth, heading (.select e i t), t) :: outline (depth + 1) e
  | .call f a t =>
    (depth, heading (.call f a t), t) :: (outline (depth + 1) f ++ outline (depth + 1) a)
  | .force f t => (depth, heading (.force f t), t) :: outline (depth + 1) f
  | .lambda x e t => (depth, heading (.lambda x e t), t) :: outline (depth + 1) e
  | .block ls r t =>
    (depth, heading (.block ls r t), t) :: (outlineLocals (depth + 1) ls ++ outline (depth + 1) r)
  | .intrinsic uri t => [(depth, heading (.intrinsic uri t), t)]
  | .builtin b t => [(depth, heading (.builtin b t), t)]

def outlineList (depth : Nat) : List Expr → List (Nat × String × Ty)
  | [] => []
  | e :: es => outline depth e ++ outlineList depth es

def outlineLocals (depth : Nat) : List (String × Expr) → List (Nat × String × Ty)
  | [] => []
  | (_, e) :: ls => outline depth e ++ outlineLocals depth ls

end

end Expr

def TierTree.render (tree : TierTree) (e : Expr) : String :=
  String.join (((e.outline 0).zip tree.labels).map fun ((depth, heading, ty), tier) =>
    String.ofList (List.replicate (2 * depth) ' ') ++ heading ++ " : " ++ ty.text ++ " @ " ++
      tier.text ++ "\n")

end TwoTier

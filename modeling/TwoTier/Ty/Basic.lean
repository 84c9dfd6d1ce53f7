/-! # Types

Types of the values that a round computes with: scalars, tuples, sequences, functions, and values
placed at the coordinator or at the participants.
-/

namespace TwoTier

inductive Placement where
  | coordinator
  | participants
deriving DecidableEq, Repr

namespace Placement

def ofName? : String → Option Placement
  | "SERVER" | "COORDINATOR" => some .coordinator
  | "CLIENTS" | "PARTICIPANTS" => some .participants
  | _ => none

def other : Placement → Placement
  | .coordinator => .participants
  | .participants => .coordinator

def text : Placement → String
  | .coordinator => "SERVER"
  | .participants => "CLIENTS"

end Placement

inductive Scalar where
  | int32
  | float32
  | bool
deriving DecidableEq, Repr

namespace Scalar

def ofName? : String → Option Scalar
  | "int32" => some .int32
  | "float32" => some .float32
  | "bool" => some .bool
  | _ => none

def name : Scalar → String
  | .int32 => "int32"
  | .float32 => "float32"
  | .bool => "bool"

end Scalar

/-- A placed type that is not `allEqual` has one member value per participant. -/
inductive Ty where
  | scalar (kind : Scalar)
  | tuple (elements : List Ty)
  | seq (element : Ty)
  | func (param result : Ty)
  | thunk (result : Ty)
  | placed (member : Ty) (placement : Placement) (allEqual : Bool)
deriving Inhabited

namespace Ty

mutual

def beq : Ty → Ty → Bool
  | .scalar a, .scalar b => a == b
  | .tuple as, .tuple bs => beqList as bs
  | .seq a, .seq b => beq a b
  | .func p r, .func q s => beq p q && beq r s
  | .thunk a, .thunk b => beq a b
  | .placed a p x, .placed b q y => p == q && x == y && beq a b
  | _, _ => false

def beqList : List Ty → List Ty → Bool
  | [], [] => true
  | a :: as, b :: bs => beq a b && beqList as bs
  | _, _ => false

end

mutual

theorem eq_of_beq : ∀ {a b : Ty}, beq a b = true → a = b
  | .scalar a, .scalar b, h => by simpa [beq] using h
  | .tuple as, .tuple bs, h => by
    have h : beqList as bs = true := by simpa [beq] using h
    rw [eq_of_beqList h]
  | .seq a, .seq b, h => by
    have h : beq a b = true := by simpa [beq] using h
    rw [eq_of_beq h]
  | .func p r, .func q s, h => by
    simp only [beq, Bool.and_eq_true] at h
    rw [eq_of_beq h.1, eq_of_beq h.2]
  | .thunk a, .thunk b, h => by
    have h : beq a b = true := by simpa [beq] using h
    rw [eq_of_beq h]
  | .placed a p x, .placed b q y, h => by
    simp only [beq, Bool.and_eq_true, beq_iff_eq] at h
    rw [h.1.1, h.1.2, eq_of_beq h.2]

theorem eq_of_beqList : ∀ {as bs : List Ty}, beqList as bs = true → as = bs
  | [], [], _ => rfl
  | a :: as, b :: bs, h => by
    simp only [beqList, Bool.and_eq_true] at h
    rw [eq_of_beq h.1, eq_of_beqList h.2]

end

mutual

theorem beq_self : ∀ a : Ty, beq a a = true
  | .scalar a => by simp [beq]
  | .tuple as => by simp [beq, beqList_self as]
  | .seq a => by simp [beq, beq_self a]
  | .func p r => by simp [beq, beq_self p, beq_self r]
  | .thunk a => by simp [beq, beq_self a]
  | .placed a p x => by simp [beq, beq_self a]

theorem beqList_self : ∀ as : List Ty, beqList as as = true
  | [] => rfl
  | a :: as => by simp [beqList, beq_self a, beqList_self as]

end

instance : DecidableEq Ty := fun a b =>
  if h : beq a b = true then isTrue (eq_of_beq h)
  else isFalse fun e => h (e ▸ beq_self a)

def int32 : Ty := .scalar .int32

def float32 : Ty := .scalar .float32

def boolean : Ty := .scalar .bool

def empty : Ty := .tuple []

def function : Option Ty → Ty → Ty
  | some p, r => .func p r
  | none, r => .thunk r

/-- A placed type. The coordinator holds exactly one value, so there all members are equal. -/
def place (member : Ty) (placement : Placement) (allEqual : Bool) : Ty :=
  .placed member placement (allEqual || placement == .coordinator)

def atCoordinator (member : Ty) : Ty :=
  place member .coordinator true

def atParticipants (member : Ty) : Ty :=
  place member .participants false

def elements? : Ty → Option (List Ty)
  | .tuple ts => some ts
  | _ => none

def signature? : Ty → Option (Option Ty × Ty)
  | .func p r => some (some p, r)
  | .thunk r => some (none, r)
  | _ => none

def resultOrEmpty (t : Ty) : Ty :=
  match t.signature? with
  | some (_, r) => r
  | none => empty

def placement? : Ty → Option Placement
  | .placed _ p _ => some p
  | _ => none

def member? : Ty → Option Ty
  | .placed m _ _ => some m
  | _ => none

def isAllEqual : Ty → Bool
  | .placed _ _ e => e
  | _ => false

def isEmpty : Ty → Bool
  | .tuple [] => true
  | _ => false

def elementOrEmpty (t : Ty) (i : Nat) : Ty :=
  match t.elements? with
  | some ts => ts.getD i empty
  | none => empty

def memberAt? (p : Placement) : Ty → Option Ty
  | .placed m q _ => if p = q then some m else none
  | _ => none

mutual

def mentions (p : Placement) : Ty → Bool
  | .scalar _ => false
  | .tuple ts => anyMentions p ts
  | .seq t => mentions p t
  | .func a b => mentions p a || mentions p b
  | .thunk t => mentions p t
  | .placed t q _ => p == q || mentions p t

def anyMentions (p : Placement) : List Ty → Bool
  | [] => false
  | t :: ts => mentions p t || anyMentions p ts

end

def isPlaced (t : Ty) : Bool :=
  t.mentions .coordinator || t.mentions .participants

def crossesTiers (t : Ty) : Bool :=
  t.mentions .coordinator && t.mentions .participants

mutual

/-- The types that arithmetic works on: numbers and tuples of them. -/
def isNumeric : Ty → Bool
  | .scalar .int32 | .scalar .float32 => true
  | .tuple ts => allNumeric ts
  | _ => false

def allNumeric : List Ty → Bool
  | [] => true
  | t :: ts => isNumeric t && allNumeric ts

end

mutual

/-- The types that secure sums work on: integers and tuples of them. -/
def isInteger : Ty → Bool
  | .scalar .int32 => true
  | .tuple ts => allInteger ts
  | _ => false

def allInteger : List Ty → Bool
  | [] => true
  | t :: ts => isInteger t && allInteger ts

end

mutual

def text : Ty → String
  | .scalar s => s.name
  | .tuple ts => "<" ++ String.intercalate "," (texts ts) ++ ">"
  | .seq t => text t ++ "*"
  | .func p r => "(" ++ text p ++ " -> " ++ text r ++ ")"
  | .thunk r => "( -> " ++ text r ++ ")"
  | .placed m p true => text m ++ "@" ++ p.text
  | .placed m p false => "\x7b" ++ text m ++ "\x7d@" ++ p.text

def texts : List Ty → List String
  | [] => []
  | t :: ts => text t :: texts ts

end

end Ty

end TwoTier

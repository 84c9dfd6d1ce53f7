import TwoTier.Expr.Text

/-! # Values

What expressions evaluate to. A placed value holds one value at the coordinator or a list with one
value per participant.
-/

namespace TwoTier

/-- A closure remembers its variables, innermost first; builtins and intrinsics remember the type
that they are instantiated at. -/
inductive Value where
  | int (value : Int)
  | float (value : Float)
  | bool (value : Bool)
  | tuple (elements : List Value)
  | seq (items : List Value)
  | closure (param : Option String) (body : Expr) (env : List (String × Value))
  | builtin (op : Builtin) (operand : Ty)
  | intrinsic (op : Intrinsic) (ty : Ty)
  | atServer (value : Value)
  | atClients (values : List Value)
deriving Inhabited

abbrev Env := List (String × Value)

namespace Value

def empty : Value := .tuple []

def pair (a b : Value) : Value := .tuple [a, b]

def zero : Ty → Except Ty Value
  | .scalar .int32 => .ok (.int 0)
  | .scalar .float32 => .ok (.float 0.0)
  | .tuple ts => do return .tuple (← zeros ts)
  | t => .error t
where
  zeros : List Ty → Except Ty (List Value)
    | [] => .ok []
    | t :: ts => do
      let v ← zero t
      return v :: (← zeros ts)

mutual

/-- Functions are shown by their class only. -/
def text : Value → String
  | .int v => toString v
  | .float v => Decimal.printed.writeAny v
  | .bool true => "true"
  | .bool false => "false"
  | .tuple vs => "<" ++ String.intercalate "," (texts vs) ++ ">"
  | .seq vs => "[" ++ String.intercalate "," (texts vs) ++ "]"
  | .closure _ _ _ | .builtin _ _ | .intrinsic _ _ => "<function>"
  | .atServer v => text v ++ "@SERVER"
  | .atClients vs => "\x7b" ++ String.intercalate "," (texts vs) ++ "\x7d@CLIENTS"

def texts : List Value → List String
  | [] => []
  | v :: vs => text v :: texts vs

end

mutual

/-- Equality that compares numbers by value and functions by their text and variables. -/
def same : Value → Value → Bool
  | .int a, .int b => a == b
  | .float a, .float b => a == b
  | .bool a, .bool b => a == b
  | .tuple as, .tuple bs => sameList as bs
  | .seq as, .seq bs => sameList as bs
  | .closure x a e, .closure y b f => x == y && a.same b && sameEnv e f
  | .builtin a t, .builtin b u => a == b && t == u
  | .intrinsic a t, .intrinsic b u => a == b && t == u
  | .atServer a, .atServer b => same a b
  | .atClients as, .atClients bs => sameList as bs
  | _, _ => false

def sameList : List Value → List Value → Bool
  | [], [] => true
  | a :: as, b :: bs => same a b && sameList as bs
  | _, _ => false

def sameEnv : List (String × Value) → List (String × Value) → Bool
  | [], [] => true
  | (x, a) :: as, (y, b) :: bs => x == y && same a b && sameEnv as bs
  | _, _ => false

end

end Value

end TwoTier

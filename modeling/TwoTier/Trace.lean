import TwoTier.Intrinsic
import TwoTier.Template
import TwoTier.Tier
import TwoTier.Value.Basic

/-! # Traces

What a computation reports on its way, whether it succeeds or not.
-/

namespace TwoTier

/-- Named types of a template, in the order of their names. -/
abbrev TypeTable := List (String × Ty)

def TypeTable.text (types : TypeTable) : String :=
  "[" ++ String.intercalate ", " (types.map fun (x, t) => x ++ " = " ++ t.text) ++ "]"

inductive Event where
  | inlined (name : String)
  | lifted (name : String)
  | emitted (slot name : String) (ty : Ty)
  | extracted (slot : String) (ty : Ty) (tier : Tier)
  | called (op : Intrinsic)
  | classified (template : Template) (tier : Tier)
  | crossings (template : Template) (count : Nat)
  | normalized (template : Template) (steps broadcasts aggregations : Nat)
  | reached (template : Template) (stage : Stage)
  | noAggregate (template : Template)
  | declared (template : Template) (name : String) (ty : Ty)
  | bound (slot : String) (ty : Ty)
  | typesBound (template : Template) (types : TypeTable)
  | validated (template : Template) (types : TypeTable)
  | synthesized (template : Template) (ty : Ty)
  | compiled (template : Template) (ty : Ty)
  | released (key : Option Int) (value : Value)

inductive Level where
  | trace
  | debug
  | info
deriving DecidableEq, Repr

def Level.name : Level → String
  | .trace => "TRACE"
  | .debug => "DEBUG"
  | .info => "INFO"

namespace Event

def level : Event → Level
  | .inlined _ | .lifted _ | .emitted _ _ _ | .extracted _ _ _ | .called _ => .trace
  | .compiled _ _ | .released _ _ => .info
  | _ => .debug

def message : Event → String
  | .inlined x => "inlining plumbing local `" ++ x ++ "`"
  | .lifted x => "lifting nested intrinsic call into `" ++ x ++ "`"
  | .emitted slot x t => "slot `" ++ slot ++ "`: emitting `" ++ x ++ "` : " ++ t.text
  | .extracted slot t tier => "extracted `" ++ slot ++ "` : " ++ t.text ++ " @ " ++ tier.text
  | .called op => "eval " ++ op.uri
  | .classified template tier => template.name ++ ": round classified as " ++ tier.text
  | .crossings template n => template.name ++ s!": {n} cross-tier call(s)"
  | .normalized template steps broadcasts aggregations =>
    template.name ++ s!": normalized round has {steps} step(s), {broadcasts} broadcast(s), " ++
      s!"{aggregations} aggregation(s)"
  | .reached template stage => template.name ++ ": " ++ stage.name ++ " step"
  | .noAggregate template => template.name ++ ": no plain aggregate, binding empty placeholders"
  | .declared template x t => template.name ++ ": " ++ x ++ " := " ++ t.text
  | .bound slot t => "bound `" ++ slot ++ "` : " ++ t.text
  | .typesBound template types => template.name ++ ": bound types " ++ types.text
  | .validated template types => "validated " ++ template.name ++ " form " ++ types.text
  | .synthesized template t => "synthesized " ++ template.name ++ " round : " ++ t.text
  | .compiled template t => "compiled " ++ template.name ++ " form : " ++ t.text
  | .released (some k) v => s!"released [{k}]: " ++ v.text
  | .released none v => "released: " ++ v.text

def line (e : Event) : String :=
  e.level.name ++ " " ++ e.message

end Event

/-- A result, and what was reported before it was reached. -/
structure Traced (ε α : Type) where
  result : Except ε α
  events : List Event

namespace Traced

variable {ε ε' α β : Type}

def done (a : α) : Traced ε α := ⟨.ok a, []⟩

def fail (e : ε) : Traced ε α := ⟨.error e, []⟩

def andThen (x : Traced ε α) (f : α → Traced ε β) : Traced ε β :=
  match x.result with
  | .error e => ⟨.error e, x.events⟩
  | .ok a =>
    let y := f a
    ⟨y.result, x.events ++ y.events⟩

instance : Monad (Traced ε) where
  pure := done
  bind := andThen

def note (e : Event) : Traced ε Unit := ⟨.ok (), [e]⟩

def ofExcept (x : Except ε α) : Traced ε α := ⟨x, []⟩

instance : MonadLift (Except ε) (Traced ε) where
  monadLift := ofExcept

def each (f : α → Traced ε β) : List α → Traced ε (List β)
  | [] => done []
  | a :: as => do
    let b ← f a
    return b :: (← each f as)

def mapError (f : ε → ε') (x : Traced ε α) : Traced ε' α :=
  ⟨x.result.mapError f, x.events⟩

end Traced

end TwoTier

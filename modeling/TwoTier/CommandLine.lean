import TwoTier.Provenance
import TwoTier.Release
import TwoTier.Session

/-! # The command line

Arguments are read from left to right, and the first faulty one ends it all. A request then tells
what to do with the contents of the source file.
-/

namespace TwoTier.CommandLine

inductive Emit where
  | tiers
  | form
  | json
  | round
  | eval
  | provenance
deriving DecidableEq, Repr

namespace Emit

def all : List Emit := [.tiers, .form, .json, .round, .eval, .provenance]

def name : Emit → String
  | .tiers => "tiers"
  | .form => "form"
  | .json => "json"
  | .round => "round"
  | .eval => "eval"
  | .provenance => "provenance"

def ofName? (s : String) : Option Emit :=
  all.find? fun e => e.name == s

def label : Emit → String
  | .tiers => "Tiers"
  | .form => "Form"
  | .json => "Json"
  | .round => "Round"
  | .eval => "Eval"
  | .provenance => "Provenance"

def pass : Emit → Pass
  | .tiers => .classify
  | .form | .json | .provenance => .validate
  | .round => .synthesize
  | .eval => .evaluate

end Emit

def templateLabel : Template → String
  | .mapReduce => "MapReduce"
  | .distributeAggregate => "DistributeAggregate"
  | .broadcast => "Broadcast"

structure Settings where
  source : String
  template : Template
  emit : Emit
  state : Option String
  data : List String
  groupSize : Nat
  verbose : Bool

inductive Request where
  | help (long : Bool)
  | version
  | run (settings : Settings)

inductive Opt where
  | template
  | emit
  | state
  | data
  | groupSize
deriving DecidableEq, Repr

inductive Word where
  | option (opt : Opt) (value : Option String)
  | verbose
  | help (long : Bool)
  | version
  | operand (text : String)
  | endOfOptions
  | unknown

def longOption? : String → Option Opt
  | "template" => some .template
  | "emit" => some .emit
  | "state" => some .state
  | "data" => some .data
  | "group-size" => some .groupSize
  | _ => none

def splitAtEquals (cs : List Char) : String × Option String :=
  let name := String.ofList (cs.takeWhile (· != '='))
  match cs.dropWhile (· != '=') with
  | [] => (name, none)
  | _ :: value => (name, some (String.ofList value))

def longWord (cs : List Char) : Word :=
  match splitAtEquals cs with
  | (name, value) => match longOption? name, name, value with
    | some opt, _, _ => .option opt value
    | none, "verbose", none => .verbose
    | none, "help", none => .help true
    | none, "version", none => .version
    | none, _, _ => .unknown

/-- A short option may have its value right behind it, also behind an equals sign. -/
def shortWord : List Char → Word
  | ['t'] => .option .template none
  | 't' :: '=' :: value => .option .template (some (String.ofList value))
  | 't' :: value => .option .template (some (String.ofList value))
  | 'h' :: _ => .help false
  | 'V' :: _ => .version
  | _ => .unknown

def word (s : String) : Word :=
  match s.toList with
  | ['-', '-'] => .endOfOptions
  | '-' :: '-' :: cs => longWord cs
  | ['-'] => .operand s
  | '-' :: cs => shortWord cs
  | _ => .operand s

/-- A separate argument may be an option's value if it does not look like an option itself. -/
def isValue (s : String) : Bool :=
  match word s with
  | .operand _ => true
  | _ => false

def count? (s : String) : Option Nat :=
  let digits := match s.toList with
    | '+' :: cs => cs
    | cs => cs
  if digits.isEmpty || !digits.all Decimal.isDigit then none
  else
    let n := Decimal.natOfDigits digits
    if n < Nat.pow 2 64 then some n else none

structure Draft where
  source : Option String := none
  template : Option Template := none
  emit : Option Emit := none
  state : Option String := none
  data : List String := []
  groupSize : Option Nat := none
  verbose : Bool := false

namespace Draft

/-- Only data may be given more than once. -/
def set (d : Draft) (opt : Opt) (value : String) : Option Draft :=
  match opt with
  | .template => if d.template.isSome then none else
    (Template.ofName? value).map fun t => { d with template := some t }
  | .emit => if d.emit.isSome then none else
    (Emit.ofName? value).map fun e => { d with emit := some e }
  | .state => if d.state.isSome then none else some { d with state := some value }
  | .data => some { d with data := d.data ++ [value] }
  | .groupSize => if d.groupSize.isSome then none else
    (count? value).map fun n => { d with groupSize := some n }

def addOperand (d : Draft) (s : String) : Option Draft :=
  if d.source.isSome || s.isEmpty then none else some { d with source := some s }

def finish (d : Draft) : Option Request := do
  return .run {
    source := ← d.source
    template := d.template.getD .mapReduce
    emit := d.emit.getD .form
    state := d.state
    data := d.data
    groupSize := d.groupSize.getD 2
    verbose := d.verbose }

end Draft

/-- The request that arguments make, on top of what is set already. -/
def requestFrom (d : Draft) : List String → Option Request
  | [] => d.finish
  | a :: rest => match word a with
    | .option opt (some value) => do requestFrom (← d.set opt value) rest
    | .option opt none => match rest with
      | value :: rest => if isValue value then do requestFrom (← d.set opt value) rest else none
      | [] => none
    | .verbose => if d.verbose then none else requestFrom { d with verbose := true } rest
    | .help long => some (.help long)
    | .version => some .version
    | .operand s => do requestFrom (← d.addOperand s) rest
    | .endOfOptions => do (← rest.foldlM Draft.addOperand d).finish
    | .unknown => none

def request (args : List String) : Option Request :=
  requestFrom {} args

def about : String := "MapReduce form compiler: splits federated rounds into per-tier local blocks"

def summaryHelp : List String :=
  [ about, "", "Usage: mrfc [OPTIONS] <SOURCE>", "", "Arguments:",
    "  <SOURCE>  Input .rir round source file", "", "Options:",
    "  -t, --template <TEMPLATE>      Form to compile the round into [default: map-reduce] " ++
      "[possible values: map-reduce, distribute-aggregate, broadcast]",
    "      --emit <EMIT>              Output stage [default: form] " ++
      "[possible values: tiers, form, json, round, eval, provenance]",
    "      --state <STATE>            Initial server state literal (for --emit eval)",
    "      --data <DATA>              Client data literal, one per participant (repeatable)",
    "      --group-size <GROUP_SIZE>  Participants accumulated together before merging " ++
      "(for --emit eval) [default: 2]",
    "      --verbose                  Print compiler phases and timing",
    "  -h, --help                     Print help (see more with '--help')",
    "  -V, --version                  Print version"]

def fullHelp : List String := [
  about, "",
  "Usage: mrfc [OPTIONS] <SOURCE>", "",
  "Arguments:",
  "  <SOURCE>",
  "          Input .rir round source file", "",
  "Options:",
  "  -t, --template <TEMPLATE>",
  "          Form to compile the round into",
  "          ",
  "          [default: map-reduce]",
  "          [possible values: map-reduce, distribute-aggregate, broadcast]", "",
  "      --emit <EMIT>",
  "          Output stage",
  "",
  "          Possible values:",
  "          - tiers:      Placement tier of every node",
  "          - form:       The compiled form, slot by slot",
  "          - json:       Canonical JSON of the compiled form",
  "          - round:      The round rebuilt from the form",
  "          - eval:       Run the round and its form on --state/--data",
  "          - provenance: Source hash and form fingerprint",
  "          ",
  "          [default: form]", "",
  "      --state <STATE>",
  "          Initial server state literal (for --emit eval)", "",
  "      --data <DATA>",
  "          Client data literal, one per participant (repeatable)", "",
  "      --group-size <GROUP_SIZE>",
  "          Participants accumulated together before merging (for --emit eval)",
  "          ",
  "          [default: 2]", "",
  "      --verbose",
  "          Print compiler phases and timing", "",
  "  -h, --help",
  "          Print help (see a summary with '-h')", "",
  "  -V, --version",
  "          Print version"]

structure Outcome where
  code : Nat := 0
  out : String := ""
  err : String := ""
deriving DecidableEq, Repr

def lines (ls : List String) : String :=
  String.join (ls.map (· ++ "\n"))

inductive FileError where
  | missing
  | notDirectory
  | directory
  | nameTooLong
  | notText
  | other (text : String)

def FileError.message : FileError → String
  | .missing => "No such file or directory (os error 2)"
  | .notDirectory => "Not a directory (os error 20)"
  | .directory => "Is a directory (os error 21)"
  | .nameTooLong => "File name too long (os error 36)"
  | .notText => "stream did not contain valid UTF-8"
  | .other s => s

def announcement (s : Settings) : List String :=
  ["mrfc: source   = " ++ s.source, "mrfc: template = " ++ templateLabel s.template,
    "mrfc: emit     = " ++ s.emit.label]

/-- The diagnostics of the passes, as far as their places can be told, and, if wanted, a line for
each pass. -/
def passLines (s : Settings) (source : String) (passes : List (Pass × List Diagnostic)) :
    List (Option String) :=
  passes.flatMap fun (p, ds) =>
    ds.map (fun d => d.render? s.source source)
      ++ if s.verbose then [some ("mrfc: " ++ p.name ++ " complete")] else []

/-- Report on the error stream and then go on to `rest`. A line that cannot be written ends the
program there. -/
def reporting (ls : List (Option String)) (rest : Outcome) : Outcome :=
  let err := lines ((ls.takeWhile Option.isSome).filterMap id)
  if ls.all Option.isSome then { rest with err := err ++ rest.err }
  else
    { code := 101,
      err := err ++ lines ["mrfc: a diagnostic lies inside a character of the source"] }

def output (emit : Emit) (source : String) (s : Session) : String :=
  match emit with
  | .tiers => match s.round, s.tiers with
    | some round, some tiers => tiers.render round
    | _, _ => ""
  | .form => s.form.elim "" Form.text
  | .json => s.form.elim "" fun f => f.canonicalText ++ "\n"
  | .round => s.synthesized.elim "" fun e => e.pretty ++ "\n"
  | .eval => s.evaluation.elim "" fun e => e.result.text ++ "\n"
  | .provenance => (Provenance.ofSource source s.form).text ++ "\n"

/-- Release what a round gives out: of a pair, its second component. -/
def release (result : Value) : Except ReleaseError Unit :=
  let output := match result with
    | .tuple [_, output] => output
    | v => v
  (ReleaseManager.release {} output none).result.map fun _ => ()

def compileSource (s : Settings) (source : String) : Outcome :=
  let rendered := fun (d : Diagnostic) => d.render? s.source source
  match Source.parse source with
  | .error faults =>
    reporting ((Source.Fault.malformed faults).diagnostics.map rendered) { code := 1 }
  | .ok program =>
    let options : Options := {
      template := s.template, state := s.state, data := s.data, groupSize := max s.groupSize 1 }
    let run := Session.runTo options { program } s.emit.pass
    reporting (passLines s source run.passes) <|
      if run.failing.isSome then { code := 1 }
      else
        let out := output s.emit source run.session
        match s.emit, run.session.evaluation with
        | .eval, some e => match release e.result with
          | .ok _ => { out }
          | .error r => { reporting [rendered r.diagnostic] { code := 1 } with out }
        | _, _ => { out }

def respond (contents : String → Except FileError String) : Request → Outcome
  | .help long => { out := lines (if long then fullHelp else summaryHelp) }
  | .version => { out := "mrfc " ++ Provenance.version ++ "\n" }
  | .run s =>
    let outcome := match contents s.source with
      | .error e => { code := 2, err := "mrfc: error: " ++ s.source ++ ": " ++ e.message ++ "\n" }
      | .ok source => compileSource s source
    if s.verbose then { outcome with err := lines (announcement s) ++ outcome.err } else outcome

def usageError : Outcome where
  code := 2
  err := lines ["error: invalid arguments", "", "Usage: mrfc [OPTIONS] <SOURCE>", "",
    "For more information, try '--help'."]

def run (contents : String → Except FileError String) (args : List String) : Outcome :=
  match request args with
  | some r => respond contents r
  | none => usageError

end TwoTier.CommandLine

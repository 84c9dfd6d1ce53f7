import TwoTier.CommandLine

/-! # The program

Reads the source file that the arguments name and writes out the outcome.
-/

open TwoTier CommandLine

/-- The number of a system error, which may be reported negated. -/
def systemCode (c : UInt32) : Nat :=
  if c < 0x80000000 then c.toNat else (-c).toNat

def fileError (e : IO.Error) : FileError :=
  let byCode := fun (c : UInt32) => match systemCode c with
    | 20 => FileError.notDirectory
    | 21 => .directory
    | 36 => .nameTooLong
    | _ => .other (toString e)
  match e with
  | .noFileOrDirectory _ _ _ => .missing
  | .inappropriateType _ c _ | .invalidArgument _ c _ | .resourceExhausted _ c _
      | .otherError c _ =>
    byCode c
  | _ => .other (toString e)

def contentsOf (path : String) : IO (Except FileError String) := do
  try
    match String.fromUTF8? (← IO.FS.readBinFile path) with
    | some text => return .ok text
    | none => return .error .notText
  catch e => return .error (fileError e)

def main (args : List String) : IO UInt32 := do
  let contents ← match request args with
    | some (.run s) => contentsOf s.source
    | _ => pure (.error .missing)
  let outcome := CommandLine.run (fun _ => contents) args
  (← IO.getStdout).putStr outcome.out
  (← IO.getStderr).putStr outcome.err
  return outcome.code.toUInt32

import Braced.Command.Run

/-!
# Braced.Main

The command line program. It runs the stages of a run on real files and writes
their lines to the standard error stream.

No process can be started from here, so a run that is to link its program fails
at that stage, and the program stays written.
-/

namespace Braced.Command

def usage : String :=
  "Usage: braced [OPTIONS] <INPUT> <OUTPUT>\n\n"
    ++ "  --cc <CC>      compiler used to build the executable\n"
    ++ "  --emit-c       only write <OUTPUT>.c\n"
    ++ "  --dump-tokens  log every token\n"
    ++ "  -v, --verbose  log at debug level"

/-- The failure of an action on a file. -/
def FileError.ofIO : IO.Error → FileError
  | .noFileOrDirectory .. | .noSuchThing .. => .notFound
  | .inappropriateType _ code _ => if code = 21 then .isDirectory else .notDirectory
  | .permissionDenied .. => .notPermitted
  | .invalidArgument _ code _ => if code = 36 then .nameTooLong else .unsupported
  | _ => .unsupported

/-- Does an action on a file, and tells whether it failed. -/
def attempt (action : IO α) : IO (Except FileError α) := do
  match ← action.toBaseIO with
  | .ok result => return .ok result
  | .error e => return .error (FileError.ofIO e)

/-- The time since `start`, in milliseconds. -/
def elapsedText (start : Nat) : IO String := do
  return toString ((← IO.monoMsNow) - start) ++ "ms"

/-- Writes the lines of a stage and gives its result. -/
def perform (o : Options) (start : Nat) (stage : Stage α) : IO (Option α) := do
  for line in stage.lines do
    if line.isShown o.verbose then IO.eprint (line.text (← elapsedText start))
  return stage.result

/-- A run on real files. -/
def execute (o : Options) (start : Nat) : IO UInt32 := do
  let content ← attempt (IO.FS.readBinFile o.input)
  let some source ← perform o start (readStage o (content.map (·.data.toList))) | return 1
  let some text ← perform o start (compileStage o source) | return 1
  let written ← attempt (IO.FS.writeFile (programPath o) text)
  let some () ← perform o start (writeStage o written) | return 1
  if !o.emitOnly then
    let _ ← perform o start ⟨[linkLine o], some ()⟩
    let linking : Linking Unit := .unavailable .unsupported
    let some () ← perform o start (linkStage o linking) | return 1
  let _ ← perform o start ⟨[lastLine], some ()⟩
  return 0

end Braced.Command

open Braced.Command in
def main (arguments : List String) : IO UInt32 := do
  let start ← IO.monoMsNow
  match Options.ofArguments (← IO.getEnv "CC") arguments with
  | .ok o => execute o start
  | .error stop =>
    if stop = .misuse then IO.eprintln usage else IO.println usage
    return stop.status.toUInt32

import Braced.Command.Arguments
import Braced.Command.Disk
import Braced.Compile
import Braced.Diagnostic.Snippet

/-!
# Braced.Command.Run

A run of the program, from its arguments to its exit status, the lines it logs
and the files it leaves.

A run has stages: the source is read, made into a program, the program is
written, and a compiler links it. Each stage is a function of its own, which
tells what to log and whether to go on, so that whoever has real files can run
the stages too.
-/

namespace Braced.Command

/-! ## Lines -/

/-- What is written to the log. -/
inductive Line
  | info (text : String)
  /-- Of interest only in search of an error. -/
  | debug (text : String)
  /-- Ends with the time that something took. -/
  | timed (text : String)
  /-- Text that is not part of the log proper. -/
  | plain (text : String)
  deriving DecidableEq, Repr

/-- The line as it is written, given the text for its time. The names that a line
    of the log proper mentions come from outside, so it is disarmed. -/
def Line.text (elapsed : String) : Line → String
  | info text => " INFO " ++ Text.disarm text ++ "\n"
  | debug text => "DEBUG " ++ Text.disarm text ++ "\n"
  | timed text => " INFO " ++ Text.disarm text ++ elapsed ++ "\n"
  | plain text => text ++ "\n"

/-- Whether the line is written at all. -/
def Line.isShown (verbose : Bool) : Line → Bool
  | debug _ => verbose
  | info _ | timed _ | plain _ => true

/-- The lines of a failed step. -/
def failureLine (text : String) : Line :=
  .plain ("Error: " ++ text)

/-- What a stage logs, and its result if the run goes on. -/
structure Stage (α : Type) where
  lines : List Line
  result : Option α

/-! ## The stages -/

/-- A token in the log. -/
def tokenLine (t : Token) : Line :=
  .info ("token: '" ++ t.text ++ "', kind: " ++ t.kind.name ++ ", line: " ++ toString t.position.line
    ++ ", column: " ++ toString t.position.column)

/-- All that is wrong with a source, for whoever wrote it. -/
def reportLines (file : String) (source : List UInt8) (diagnostics : List Diagnostic) : List Line :=
  let text := Text.Utf8.decode source
  let count := diagnostics.length
  diagnostics.map (fun d => .plain (d.render file text))
    ++ [.plain ("Aborting: " ++ toString count ++ " error" ++ (if count = 1 then "" else "s")
      ++ " found")]

/-- The source of a run, when its file could be read or not. -/
def readStage (o : Options) : Except FileError (List UInt8) → Stage (List UInt8)
  | .ok source => ⟨[], some source⟩
  | .error e => ⟨[failureLine ("Failed to read " ++ o.input ++ ": " ++ e.message)], none⟩

/-- The text of the program of a source. -/
def compileStage (o : Options) (source : List UInt8) : Stage String :=
  let file := baseName o.input
  match Token.ofSource .standard source with
  | .error d => ⟨reportLines file source [d], none⟩
  | .ok tokens =>
    let (tree, diagnostics) := Tree.ofTokens tokens
    let count := toString diagnostics.length
    let lines :=
      [.timed ("Tokenized " ++ toString tokens.length ++ " tokens in ")]
        ++ (if o.dumpTokens then tokens.map tokenLine else [])
        ++ diagnostics.map (fun d => .debug ("parser: " ++ d.message file))
        ++ [.debug ("parser: " ++ toString tree.nodes.size ++ " nodes, " ++ count ++ " errors"),
          .timed ("Parsed " ++ toString tree.nodes.size ++ " nodes in ")]
    if diagnostics.isEmpty then
      match tree.emit file with
      | .ok text =>
        ⟨lines ++ [.debug ("codegen: emitted " ++ toString text.utf8ByteSize ++ " bytes of C")],
          some text⟩
      | .error e => ⟨lines ++ [failureLine ("Failed to generate C: " ++ e.message)], none⟩
    else
      ⟨lines ++ [.debug ("refusing to continue with " ++ count ++ " errors")]
        ++ reportLines file source diagnostics, none⟩

/-- The path that the program is written to. -/
def programPath (o : Options) : String :=
  o.output ++ ".c"

/-- The program of a run, when its file could be written or not. -/
def writeStage (o : Options) : Except FileError α → Stage α
  | .ok result => ⟨[.info ("Wrote " ++ programPath o)], some result⟩
  | .error e =>
    ⟨[failureLine ("could not write " ++ programPath o ++ ": " ++ e.message ++ ": " ++ e.message)],
      none⟩

/-- What came of calling the compiler. -/
inductive Linking (α : Type)
  | linked (result : α)
  /-- The compiler was run and gave another exit status than zero. -/
  | failed (status : Nat) (messages : String)
  /-- The compiler could not be run. -/
  | unavailable (error : FileError)

/-- How the compiler is called. -/
def linkCommand (o : Options) : String :=
  o.compiler ++ " " ++ programPath o ++ " -o " ++ o.output

/-- The line before the compiler is called. -/
def linkLine (o : Options) : Line :=
  .info ("Running " ++ linkCommand o)

/-- The executable of a run, when it could be linked or not. -/
def linkStage (o : Options) (linking : Linking α) : Stage α :=
  let failure (reason : String) : Stage α :=
    ⟨[failureLine ("`" ++ linkCommand o ++ "` failed: " ++ reason)], none⟩
  match linking with
  | .linked result => ⟨[.info ("Linked " ++ o.output)], some result⟩
  | .failed status messages =>
    failure ("exit status: " ++ toString status ++ "\n"
      ++ String.ofList (Text.trimEnd messages.toList))
  | .unavailable e => failure e.message

/-- The last line of a run that has come to its end. -/
def lastLine : Line :=
  .timed "Total time: "

/-! ## The run -/

/-- A compiler, as what calling it by name on two paths makes of the files. -/
abbrev Compiler : Type :=
  (name program executable : String) → Disk → Linking Disk

/-- A compiler made of programs that touch no file and say nothing, by their names
    and exit statuses. Under any other name there is none. -/
def Compiler.ofStatuses (statuses : List (String × Nat)) : Compiler :=
  fun name _ _ disk =>
    match statuses.lookup name with
    | some 0 => .linked disk
    | some status => .failed status ""
    | none => .unavailable (disk.programError name)

/-- How a run ends. -/
structure Outcome where
  status : Nat
  lines : List Line
  disk : Disk

namespace Outcome

/-- The run goes on if a stage has a result, and fails if it has none. -/
def after (disk : Disk) (stage : Stage α) (next : α → Outcome) : Outcome :=
  match stage.result with
  | some result => let rest := next result; { rest with lines := stage.lines ++ rest.lines }
  | none => ⟨1, stage.lines, disk⟩

/-- What is written to the log, given the text for all times. -/
def log (o : Outcome) (verbose : Bool) (elapsed : String) : String :=
  String.join ((o.lines.filter (Line.isShown verbose)).map (Line.text elapsed))

end Outcome

/-- A run with given options. -/
def runWith (compiler : Compiler) (disk : Disk) (o : Options) : Outcome :=
  .after disk (readStage o (disk.read o.input)) fun source =>
    .after disk (compileStage o source) fun text =>
      .after disk (writeStage o (disk.write (programPath o) (Text.Utf8.encode text))) fun disk =>
        if o.emitOnly then ⟨0, [lastLine], disk⟩
        else
          .after disk ⟨[linkLine o], some ()⟩ fun () =>
            .after disk (linkStage o (compiler o.compiler (programPath o) o.output disk)) fun disk =>
              ⟨0, [lastLine], disk⟩

/-- The exit status of a run that has nothing to do. -/
def Stop.status : Stop → Nat
  | misuse => 2
  | help | version => 0

/-- A run with given arguments. -/
def run (compiler : Compiler) (environment : Option String) (disk : Disk)
    (arguments : List String) : Outcome :=
  match Options.ofArguments environment arguments with
  | .ok o => runWith compiler disk o
  | .error stop => ⟨stop.status, [], disk⟩

end Braced.Command

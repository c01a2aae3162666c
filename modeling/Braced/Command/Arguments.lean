/-!
# Braced.Command.Arguments

The arguments of the command line: two paths, and options in any order around
them. Each option is given at most once. The compiler's name may also come from
the environment, and an argument wins over it.

Arguments are read from left to right, and the first one that settles the matter
does so: a mistake, or a request for help.
-/

namespace Braced.Command

/-! ## Words -/

/-- What an argument looks like. -/
inductive Word
  /-- After this word all others are plain. -/
  | escape
  /-- A name, with the value that is joined to it if there is one. -/
  | long (name : String) (value : Option String)
  /-- Options of one letter each. -/
  | short (letters : List Char)
  | plain
  deriving DecidableEq, Repr

/-- A dash alone is plain: it is a usual name for a file. -/
def Word.ofArgument (argument : String) : Word :=
  match argument.toList with
  | ['-', '-'] => escape
  | '-' :: '-' :: rest =>
    let name := String.ofList (rest.takeWhile (· ≠ '='))
    match rest.dropWhile (· ≠ '=') with
    | [] => long name none
    | _ :: value => long name (some (String.ofList value))
  | '-' :: letter :: letters => short (letter :: letters)
  | _ => plain

/-! ## Options -/

/-- What a run of the program is to do. -/
structure Options where
  /-- The path of the source. -/
  input : String
  /-- The path of the executable. The program is written next to it, under the
      same name and `.c`. -/
  output : String
  /-- The name of the compiler that builds the executable. -/
  compiler : String
  /-- Whether to stop when the program has been written. -/
  emitOnly : Bool
  /-- Whether to log the tokens of the source. -/
  dumpTokens : Bool
  /-- Whether to log what is of interest only in search of an error. -/
  verbose : Bool
  deriving DecidableEq, Repr

/-- Why there is nothing to run. -/
inductive Stop
  | misuse
  | help
  | version
  deriving DecidableEq, Repr

/-- The arguments read so far. -/
structure Given where
  paths : List String
  compiler : Option String
  emitOnly : Bool
  dumpTokens : Bool
  verbose : Bool
  deriving DecidableEq, Repr

namespace Given

def none : Given := ⟨[], .none, false, false, false⟩

/-- Takes a path, of which there are two. -/
def addPath (g : Given) (path : String) : Except Stop Given :=
  if path.isEmpty ∨ 2 ≤ g.paths.length then .error .misuse
  else .ok { g with paths := g.paths ++ [path] }

def setCompiler (g : Given) (name : String) : Except Stop Given :=
  if g.compiler.isSome then .error .misuse else .ok { g with compiler := some name }

def setEmitOnly (g : Given) : Except Stop Given :=
  if g.emitOnly then .error .misuse else .ok { g with emitOnly := true }

def setDumpTokens (g : Given) : Except Stop Given :=
  if g.dumpTokens then .error .misuse else .ok { g with dumpTokens := true }

def setVerbose (g : Given) : Except Stop Given :=
  if g.verbose then .error .misuse else .ok { g with verbose := true }

/-- Takes an option by its letter. -/
def addLetter (g : Given) (letter : Char) : Except Stop Given :=
  match letter with
  | 'v' => g.setVerbose
  | 'h' => .error .help
  | 'V' => .error .version
  | _ => .error .misuse

/-- Takes an option that has no value by its name. -/
def addFlag (g : Given) (name : String) : Except Stop Given :=
  match name with
  | "emit-c" => g.setEmitOnly
  | "dump-tokens" => g.setDumpTokens
  | "verbose" => g.setVerbose
  | "help" => .error .help
  | "version" => .error .version
  | _ => .error .misuse

/-- Takes the arguments one after the other. The compiler's name may be joined
    to its option or be the next argument, which then must not look like an
    option. -/
def read (g : Given) : List String → Except Stop Given
  | [] => .ok g
  | argument :: arguments =>
    match Word.ofArgument argument with
    | .escape => arguments.foldlM addPath g
    | .plain => do (← g.addPath argument).read arguments
    | .short letters => do (← letters.foldlM addLetter g).read arguments
    | .long name (some value) =>
      if name = "cc" then do (← g.setCompiler value).read arguments
      else .error .misuse
    | .long name Option.none =>
      if name = "cc" then
        match arguments with
        | value :: others =>
          if Word.ofArgument value = .plain then do (← g.setCompiler value).read others
          else .error .misuse
        | [] => .error .misuse
      else do (← g.addFlag name).read arguments

/-- The options, given the compiler's name in the environment. -/
def options (g : Given) (environment : Option String) : Except Stop Options :=
  match g.paths with
  | [input, output] =>
    .ok ⟨input, output, (g.compiler.or environment).getD "cc", g.emitOnly, g.dumpTokens, g.verbose⟩
  | _ => .error .misuse

end Given

/-- The options that a command line stands for. -/
def Options.ofArguments (environment : Option String) (arguments : List String) :
    Except Stop Options := do
  (← Given.none.read arguments).options environment

end Braced.Command

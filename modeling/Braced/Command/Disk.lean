/-!
# Braced.Command.Disk

The files that a run can see, by the names on the way to them from the directory
it starts in.

Only files are kept. A directory is there when a file lies in it. The directory
of the run always is, and so are those around it, out to the one that holds all
files. A way out of the directory of the run begins with `..`, once for each
directory that it leaves, and a way from the outermost directory begins with
`/`.
-/

namespace Braced.Command

/-! ## Failures -/

/-- Why something cannot be done with a path. -/
inductive FileError
  | notFound
  | notPermitted
  /-- A file is used as if it were a directory. -/
  | notDirectory
  /-- A directory is used as if it were a file. -/
  | isDirectory
  | nameTooLong
  /-- What is asked for cannot be done here at all. -/
  | unsupported
  deriving DecidableEq, Repr

/-- The failure, with the number that the system has for it. -/
def FileError.message : FileError → String
  | notFound => "No such file or directory (os error 2)"
  | notPermitted => "Permission denied (os error 13)"
  | notDirectory => "Not a directory (os error 20)"
  | isDirectory => "Is a directory (os error 21)"
  | nameTooLong => "File name too long (os error 36)"
  | unsupported => "Function not implemented (os error 38)"

/-! ## Paths -/

/-- The pieces of a path between slashes. -/
def pieces : List Char → List (List Char)
  | [] => [[]]
  | c :: cs =>
    match pieces cs with
    | [] => [[c]]
    | piece :: others => if c = '/' then [] :: piece :: others else (c :: piece) :: others

/-- The names in a path. Pieces that lead nowhere are left out. -/
def names (path : String) : List String :=
  ((pieces path.toList).map String.ofList).filter fun name => name ≠ "" ∧ name ≠ "."

/-- Whether a path starts at the root of all files. -/
def isAbsolute (path : String) : Bool :=
  path.toList.head? = some '/'

/-- The length in bytes of the longest name of a file or directory. -/
def maxNameLength : Nat := 255

/-- The length in bytes of the longest path. -/
def maxPathLength : Nat := 4095

/-- Whether a path says that it leads to a directory. -/
def namesDirectory (path : String) : Bool :=
  match (pieces path.toList).getLast? with
  | some piece => piece = [] || piece = ['.']
  | none => false

/-- The last name of a path, or the path itself where it does not end in the
    name of a file. -/
def baseName (path : String) : String :=
  match (names path).getLast? with
  | some name => if name = ".." then path else name
  | none => path

/-! ## Files -/

/-- Files, by the names on the way to each. -/
structure Disk where
  files : List (List String × List UInt8)
  deriving Repr

namespace Disk

/-- What is found at the end of a way. -/
inductive Found
  | file (content : List UInt8)
  | directory
  deriving DecidableEq, Repr

/-- The content of a file. -/
def file? (d : Disk) (way : List String) : Option (List UInt8) :=
  d.files.lookup way

/-- Whether a way leads to the directory of the run or to one around it. -/
def isAround (way : List String) : Bool :=
  way = ["/"] || way.all (· = "..")

/-- What lies at the end of a way. -/
def find? (d : Disk) (way : List String) : Option Found :=
  match d.file? way with
  | some content => some (.file content)
  | none =>
    if isAround way || d.files.any fun entry => way.isPrefixOf entry.1 then some .directory
    else none

/-- Gives a file its content, whether it is there or not. -/
def put (d : Disk) (way : List String) (content : List UInt8) : Disk :=
  ⟨(way, content) :: d.files.filter (·.1 ≠ way)⟩

/-- The way to the directory around the one at the end of a way. The outermost
    directory counts as its own. -/
def outward (way : List String) : List String :=
  if way = ["/"] then way
  else if isAround way then way ++ [".."]
  else way.dropLast

/-- Follows names from a directory. All but the last have to lead to
    directories. -/
def follow (d : Disk) (way : List String) : List String → Except FileError (List String)
  | [] => .ok way
  | name :: names =>
    if name = ".." then d.follow (outward way) names
    else if maxNameLength < name.utf8ByteSize then .error .nameTooLong
    else
      let way := way ++ [name]
      match names, d.find? way with
      | [], _ => .ok way
      | _, some .directory => d.follow way names
      | _, some (.file _) => .error .notDirectory
      | _, none => .error .notFound

/-- The way that a path stands for. -/
def way (d : Disk) (path : String) : Except FileError (List String) :=
  if maxPathLength < path.utf8ByteSize then .error .nameTooLong
  else d.follow (if isAbsolute path then ["/"] else []) (names path)

/-- The content of the file at a path. -/
def read (d : Disk) (path : String) : Except FileError (List UInt8) := do
  match d.find? (← d.way path) with
  | some (.file content) =>
    if namesDirectory path then throw .notDirectory else return content
  | some .directory => throw .isDirectory
  | none => throw .notFound

/-- Writes the file at a path, which need not be there. All of the content is
    written or none of it: a write that fails half-way is not modelled. -/
def write (d : Disk) (path : String) (content : List UInt8) : Except FileError Disk := do
  let way ← d.way path
  match d.find? way with
  | some .directory => throw .isDirectory
  | _ => return d.put way content

/-- Why there is no program under a name. A name without a slash is not looked for
    on the disk, and no file of the disk can be run. -/
def programError (d : Disk) (name : String) : FileError :=
  if name.toList.contains '/' then
    match d.read name with
    | .ok _ | .error .isDirectory => .notPermitted
    | .error e => e
  else if maxNameLength < name.utf8ByteSize then .nameTooLong
  else .notFound

/-- A file that was put is found with its content. -/
theorem file?_put (d : Disk) (way : List String) (content : List UInt8) :
    (d.put way content).file? way = some content := by
  simp [put, file?]

end Disk

end Braced.Command

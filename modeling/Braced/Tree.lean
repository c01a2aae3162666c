import Braced.Scope

/-!
# Braced.Tree

The tree of a program: its nodes, its scopes and the modules it imports from.

Nodes lie in one arena and scopes in another, and refer to each other by
handle. The first scope is the root, whose statements are the program's
top-level declarations. The arena may hold nodes that nothing refers to.
-/

namespace Braced

/-! ## Types and operators -/

/-- The types of the language. -/
inductive TypeAtom
  | int
  | byte
  | float
  | double
  | boolean
  deriving DecidableEq, Repr

/-- The type that a keyword names. -/
def TypeAtom.ofToken? : TokenKind → Option TypeAtom
  | .kwInt => some int
  | .kwByte => some byte
  | .kwFloat => some float
  | .kwDouble => some double
  | .kwBoolean => some boolean
  | _ => none

inductive BinaryOp
  | add
  | subtract
  | multiply
  | divide
  | modulo
  | equals
  | notEquals
  | less
  | greater
  | lessEquals
  | greaterEquals
  deriving DecidableEq, Repr

namespace BinaryOp

/-- The operator that a token between two operands stands for. -/
def ofToken? : TokenKind → Option BinaryOp
  | .plus => some add
  | .dash => some subtract
  | .star => some multiply
  | .slash => some divide
  | .percent => some modulo
  | .equals => some equals
  | .notEquals => some notEquals
  | .less => some less
  | .greater => some greater
  | .lessEquals => some lessEquals
  | .greaterEquals => some greaterEquals
  | _ => none

def symbol : BinaryOp → String
  | add => "+"
  | subtract => "-"
  | multiply => "*"
  | divide => "/"
  | modulo => "%"
  | equals => "=="
  | notEquals => "!="
  | less => "<"
  | greater => ">"
  | lessEquals => "<="
  | greaterEquals => ">="

end BinaryOp

/-- What stands in front of an operand, or around it. -/
inductive UnaryOp
  | increment
  | decrement
  /-- Parentheses. -/
  | nested
  | deref
  | addressOf
  | negate
  deriving DecidableEq, Repr

/-- What may stand behind an operand. -/
inductive Step
  | increment
  | decrement
  deriving DecidableEq, Repr

/-! ## Nodes -/

/-- An operand without operators. -/
inductive Primary
  | int (value : Int)
  | float (value : Binary64)
  | string (bytes : List UInt8)
  | char (value : UInt8)
  /-- A variable, by the node of its name. -/
  | name (name : NodeId)
  /-- A call, by its node. -/
  | call (call : NodeId)
  deriving DecidableEq, Repr

/-- A parameter, by the nodes of its name and of its type. -/
structure Parameter where
  name : NodeId
  type : NodeId
  deriving DecidableEq, Repr

/-- Where a function's code comes from. -/
inductive Origin
  /-- The function has a body in this program. -/
  | own
  /-- The function is imported from a module and only has a signature. -/
  | imported (module : String)
  deriving DecidableEq, Repr

/-- A statement that leaves a function, leaves a loop, or starts its next
    round. -/
inductive Jump
  | returning
  | breaking
  | continuing
  deriving DecidableEq, Repr

/-- A clause of a conditional, or a loop. -/
inductive Flow
  | ifClause
  | elifClause
  | elseClause
  | whileLoop
  deriving DecidableEq, Repr

/-- What a node is, with the handles of its parts. -/
inductive NodeKind
  | ident (name : String)
  | type (atom : TypeAtom) (isConst : Bool)
  /-- With a type, a declaration; without one, an assignment to a name that is
      known already. There is one value for each `=`, in order. -/
  | declaration (type : Option NodeId) (name : NodeId) (values : List NodeId)
  | binary (op : BinaryOp) (left right : NodeId)
  | unary (op : UnaryOp) (operand : NodeId)
  | primary (value : Primary) (step : Option Step)
  /-- A directive is a call that is a top-level statement; it runs at startup. -/
  | call (callee : NodeId) (arguments : List NodeId) (isDirective : Bool)
  | function (name : NodeId) (result : Option NodeId) (parameters : List Parameter)
      (body : ScopeId) (origin : Origin)
  | jump (jump : Jump) (value : Option NodeId)
  /-- `next` is the clause that follows a clause of a conditional. -/
  | flow (flow : Flow) (condition : Option NodeId) (body : ScopeId) (next : Option NodeId)
  deriving DecidableEq, Repr

structure Node where
  position : Position
  kind : NodeKind
  deriving DecidableEq, Repr

/-! ## Trees -/

structure Tree where
  nodes : Arena NodeId Node
  scopes : ScopeForest
  /-- The modules that functions are imported from, each once. -/
  modules : SymbolTable
  deriving Repr

/-- The outermost scope of a program. -/
def ScopeId.root : ScopeId := ⟨0⟩

namespace Tree

def node? (t : Tree) (id : NodeId) : Option Node :=
  t.nodes.get? id

/-- The statements of a scope in order, and none for a scope that is not
    there. -/
def statements (t : Tree) (id : ScopeId) : List NodeId :=
  ((t.scopes.get? id).map fun s => s.statements.toList).getD []

/-- The top-level statements in order. -/
def rootStatements (t : Tree) : List NodeId :=
  t.statements .root

/-- The place where the program begins. -/
def position (t : Tree) : Position :=
  ((t.scopes.get? .root).map Scope.position).getD .start

/-- The name that an identifier node carries. -/
def ident? (t : Tree) (id : NodeId) : Option String :=
  match t.node? id with
  | some ⟨_, .ident name⟩ => some name
  | _ => none

end Tree

end Braced

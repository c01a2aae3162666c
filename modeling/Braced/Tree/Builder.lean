import Braced.Tree

/-!
# Braced.Tree.Builder

A tree under construction, together with the tokens that are still to be read.

A builder reads tokens from the front, allocates nodes and scopes, binds names
in the current scope, and notes what is wrong without ever stopping. Its last
token marks the end, and is never passed.
-/

namespace Braced

/-- How deep expressions may nest. -/
def maxExpressionDepth : Nat := 256

structure Builder where
  /-- The next token to be read. -/
  current : Token
  /-- The tokens after the next one. -/
  ahead : List Token
  nodes : Arena NodeId Node
  scopes : ScopeForest
  /-- The innermost scope that is open. -/
  scope : ScopeId
  modules : SymbolTable
  /-- What was found wrong, in the order in which it was found. -/
  diagnostics : Array Diagnostic
  /-- How many loops of the current function are open. -/
  loopDepth : Nat
  /-- How deep the current expression nests, counting operands and
      operators. -/
  expressionDepth : Nat

namespace Builder

/-! ## Tokens -/

/-- A list of tokens that ends with an end token, which is added where it is
    missing, at the place of the last token. -/
def terminated (tokens : List Token) : List Token :=
  match tokens.getLast? with
  | some last => if last.kind = .eof then tokens else tokens ++ [⟨.eof, .none, last.position⟩]
  | none => [⟨.eof, .none, .start⟩]

/-- A builder with an empty root scope in front of a list of tokens. -/
def ofTokens (tokens : List Token) : Builder :=
  let tokens := terminated tokens
  let current := tokens.headD ⟨.eof, .none, .start⟩
  let (root, scopes) := ScopeForest.empty.push none current.position
  { current
    ahead := tokens.tail
    nodes := .empty
    scopes
    scope := root
    modules := .empty
    diagnostics := #[]
    loopDepth := 0
    expressionDepth := 0 }

/-- The kind of the token that many places ahead, the end when there is none. -/
def peekKind (s : Builder) (offset : Nat) : TokenKind :=
  match offset with
  | 0 => s.current.kind
  | n + 1 => (s.ahead[n]?.map Token.kind).getD .eof

/-- Whether there is a token before the end. -/
def hasTokens (s : Builder) : Bool :=
  s.current.kind ≠ .eof

/-- Passes the next token, unless it is the end, and gives it. -/
def advance (s : Builder) : Token × Builder :=
  match s.ahead with
  | next :: ahead =>
    if s.current.kind = .eof then (s.current, s)
    else (s.current, { s with current := next, ahead })
  | [] => (s.current, s)

/-- Notes that something is wrong. -/
def report (s : Builder) (fault : Fault) (position : Position) : Builder :=
  { s with diagnostics := s.diagnostics.push ⟨fault, position⟩ }

/-- Notes that the next token is of the wrong kind. -/
def reportUnexpected (s : Builder) (expected : TokenKind) : Builder :=
  s.report (.unexpectedToken expected s.current.kind) s.current.position

/-- Passes a token of the given kind. A token of another kind is reported, and
    passed too, so that reading goes on behind it. -/
def expect (s : Builder) (kind : TokenKind) : Option Token × Builder :=
  if s.current.kind = kind then
    let (token, s) := s.advance
    (some token, s)
  else (none, (s.reportUnexpected kind).advance.2)

/-- Passes the next token if it is of the given kind, and says whether it
    is. -/
def accept (s : Builder) (kind : TokenKind) : Bool × Builder :=
  if s.current.kind = kind then (true, s.advance.2) else (false, s)

/-- Whether a token of the kind ends a statement or a block. -/
def endsStatement (kind : TokenKind) : Bool :=
  kind = .semicolon || kind = .closeCurly

/-- Like `expect`, except that the end of a statement or block is not passed
    when it comes too early: it belongs to what is around. -/
def expectClosing (s : Builder) (kind : TokenKind) : Option Token × Builder :=
  if s.current.kind ≠ kind ∧ endsStatement s.current.kind then (none, s.reportUnexpected kind)
  else s.expect kind

/-- The tokens from the first one that ends a statement or block, or is the
    end. -/
def dropStatement (current : Token) : List Token → Token × List Token
  | [] => (current, [])
  | next :: ahead =>
    if endsStatement current.kind ∨ current.kind = .eof then (current, next :: ahead)
    else dropStatement next ahead

/-- Passes tokens up to the end of the statement or block. -/
def skipToStatementEnd (s : Builder) : Builder :=
  let (current, ahead) := dropStatement s.current s.ahead
  { s with current, ahead }

/-! ## Nodes -/

/-- Adds a node. -/
def alloc (s : Builder) (position : Position) (kind : NodeKind) : NodeId × Builder :=
  let (id, nodes) := s.nodes.alloc ⟨position, kind⟩
  (id, { s with nodes })

/-! ## Scopes -/

def atRoot (s : Builder) : Bool :=
  s.scope = .root

/-- Opens a scope inside the current one. -/
def enterScope (s : Builder) (position : Position) : ScopeId × Builder :=
  let (id, scopes) := s.scopes.push (some s.scope) position
  (id, { s with scopes, scope := id })

/-- Goes back to the scope around the current one, and stays in the root. -/
def exitScope (s : Builder) : Builder :=
  { s with scope := (s.scopes.parent? s.scope).getD s.scope }

/-- Appends a statement to the current scope. -/
def addStatement (s : Builder) (statement : NodeId) : Builder :=
  { s with scopes := s.scopes.addStatement s.scope statement }

/-! ## Names -/

/-- Adds a name to the current scope, and reports a second binding. -/
def declare (s : Builder) (name : String) (kind : EntryKind) (position : Position) : Builder :=
  match s.scopes.insert s.scope name kind with
  | .ok (_, scopes) => { s with scopes }
  | .error fault => s.report fault position

/-- Looks for a variable, from the current scope outwards. One that is found
    further out is noted in the current scope, so that a scope's table lists
    the outer names it uses. -/
def resolveIdentifier (s : Builder) (name : String) (position : Position) : Builder :=
  if (s.scopes.lookupLocal s.scope name).isSome then s
  else if (s.scopes.lookup s.scope name).isNone then
    s.report (.undeclaredIdentifier name) position
  else s.declare name .reference position

/-- Looks for the target of a call, which has to be a function of the root
    scope whatever the scopes in between bind the name to. -/
def resolveFunction (s : Builder) (name : String) (position : Position) : Builder :=
  match s.scopes.lookupLocal .root name with
  | none => s.report (.undeclaredFunction name) position
  | some entry =>
    if entry.kind = .function then s else s.report (.notCallable name) position

/-- Notes a module that a function is imported from, unless it is noted. -/
def addModule (s : Builder) (name : String) : Builder :=
  match s.modules.insert name .module with
  | .ok (_, modules) => { s with modules }
  | .error _ => s

/-! ## Depths -/

def setLoopDepth (s : Builder) (depth : Nat) : Builder :=
  { s with loopDepth := depth }

/-- Goes one level deeper into an expression, if that is allowed. If not, this
    is reported, and the rest of the statement is given up. -/
def enterExpression (s : Builder) : Bool × Builder :=
  if s.expressionDepth < maxExpressionDepth then
    (true, { s with expressionDepth := s.expressionDepth + 1 })
  else
    (false, (s.report (.expressionTooDeep maxExpressionDepth) s.current.position).skipToStatementEnd)

/-- Leaves some levels of an expression. -/
def exitExpression (s : Builder) (levels : Nat) : Builder :=
  { s with expressionDepth := s.expressionDepth - levels }

/-! ## The result -/

/-- The tree as it stands. -/
def tree (s : Builder) : Tree :=
  ⟨s.nodes, s.scopes, s.modules⟩

end Builder

end Braced

import Braced.Tree.Expression

/-!
# Braced.Tree.Statement

Reading types, declarations, statements and blocks.

A name is bound as soon as it has been read: a function before its body, so that
it can call itself, and a variable before its values. What is declared twice or
not at all is reported and kept in the tree all the same.
-/

namespace Braced.Tree.Statement

open Parse

/-! ## Types -/

/-- The keyword of a type that begins at the given place, behind a `const` or
    not. -/
def typeName (position : Position) (isConst : Bool) : Parse (Option NodeId) := do
  let kind ← currentKind
  match TypeAtom.ofToken? kind with
  | none =>
    report (.expectedType kind) (← currentPosition)
    let _ ← advance
    return none
  | some atom =>
    let _ ← advance
    return some (← alloc position (.type atom isConst))

/-- A type, with `const` in front of it or not. -/
def type : Parse (Option NodeId) := do
  let position ← currentPosition
  let isConst ← accept .kwConst
  typeName position isConst

/-! ## Choosing by the first token -/

/-- A top-level declaration. -/
def declaration (book : RuleBook) (reach : Reach) : Parse (Option NodeId) := do
  let kind ← currentKind
  match book.declaration? kind with
  | some production => reach (.production production)
  | none =>
    report (.expectedDeclaration kind) (← currentPosition)
    let _ ← advance
    return none

/-- A statement in a block. -/
def statement (book : RuleBook) (reach : Reach) : Parse (Option NodeId) := do
  let kind ← currentKind
  match book.statement? kind with
  | some production => reach (.production production)
  | none =>
    report (.expectedStatement kind) (← currentPosition)
    let _ ← advance
    return none

/-- What begins with a name: the two tokens after it tell a call, a function and
    a variable apart. -/
def identifierStatement (reach : Reach) : Parse (Option NodeId) := do
  let second ← look (·.peekKind 1)
  let third ← look (·.peekKind 2)
  if second = .openParen then
    let result ← reach (.call true)
    let _ ← expect .semicolon
    return result
  else if second = .colon ∧ third = .openParen then reach (.production .function)
  else
    let result ← reach (.production .variableStatement)
    let _ ← expect .semicolon
    return result

/-! ## Variables -/

/-- The values of a declaration or an assignment. -/
def values (reach : Reach) : Parse (List NodeId) := do
  if ← accept .assignment then
    let first ← reach (.expression .lowest)
    let others ← reach .values
    return first.toList ++ others
  else return []

/-- The type behind a variable's name, which declares the name. A name without
    one has to be known already. -/
def declaredType (reach : Reach) (token : Token) : Parse (Option NodeId) := do
  if ← accept .colon then
    let atom ← reach (.production .type)
    declare token.identifierName .declaration token.position
    return atom
  else
    resolveIdentifier token.identifierName token.position
    return none

/-- A declaration of a variable with its type, or an assignment to a variable
    that is known already. -/
def variableStatement (reach : Reach) : Parse (Option NodeId) := do
  match ← expect .identifier with
  | none => return none
  | some token =>
    let atom ← declaredType reach token
    let id ← alloc token.position (.ident token.identifierName)
    let found ← reach .values
    return some (← alloc token.position (.declaration atom id found))

/-! ## Functions -/

/-- A parameter, declared in the current scope. -/
def parameter (reach : Reach) : Parse (Option Parameter) := do
  let token ← expect .identifier
  let _ ← expect .colon
  let atom ← reach (.production .type)
  match token, atom with
  | some token, some atom =>
    declare token.identifierName .declaration token.position
    let name ← alloc token.position (.ident token.identifierName)
    return some ⟨name, atom⟩
  | _, _ => return none

/-- Parameters between commas. -/
def parameters (reach : Reach) : Parse (List Parameter) := do
  let first ← parameter reach
  if ← accept .comma then
    let others ← reach .parameters
    return first.toList ++ others
  else return first.toList

/-- The parameters of a function, in their parentheses. -/
def parameterList (reach : Reach) : Parse (List Parameter) := do
  let _ ← expect .openParen
  if (← currentKind) = .closeParen then
    let _ ← expect .closeParen
    return []
  else
    let found ← reach .parameters
    let _ ← expect .closeParen
    return found

/-- The type behind an arrow, if there is one. -/
def resultType (reach : Reach) : Parse (Option NodeId) := do
  if ← accept .arrow then reach (.production .type) else return none

/-- What a function is known by. -/
structure Signature where
  name : NodeId
  parameters : List Parameter
  result : Option NodeId
  /-- The scope that holds the parameters. -/
  scope : ScopeId

/-- The signature of the function that a token names. The function's scope is
    left open. -/
def signatureOf (reach : Reach) (token : Token) : Parse Signature := do
  declare token.identifierName .function token.position
  let name ← alloc token.position (.ident token.identifierName)
  let _ ← expect .colon
  let scope ← enterScope token.position
  let found ← parameterList reach
  let result ← resultType reach
  return ⟨name, found, result, scope⟩

/-- A function's name, parameters and result type. -/
def signature (reach : Reach) : Parse (Option Signature) := do
  match ← expect .identifier with
  | none => return none
  | some token => return some (← signatureOf reach token)

/-- Statements between braces, in the scope that is open. -/
def blockBody (reach : Reach) : Parse Unit := do
  let _ ← expect .openCurly
  reach .statements
  let _ ← expect .closeCurly

/-- Reports a function that begins here and is not at the top level. -/
def refuseNested : Parse Unit := do
  if !(← look Builder.atRoot) then
    let token ← look Builder.current
    report (.nestedFunction token.identifierName) token.position

/-- A function with its body. Inside of it no loop is open, and behind it the
    same ones as before. -/
def function (reach : Reach) : Parse (Option NodeId) := do
  let position ← currentPosition
  refuseNested
  match ← signature reach with
  | none => return none
  | some found =>
    let depth ← look Builder.loopDepth
    change (·.setLoopDepth 0)
    blockBody reach
    change (·.setLoopDepth depth)
    exitScope
    return some (← alloc position
      (.function found.name found.result found.parameters found.scope .own))

/-- A signature without a body, behind which no scope is open. -/
def closedSignature (reach : Reach) : Parse (Option Signature) := do
  match ← signature reach with
  | none => return none
  | some found =>
    exitScope
    return some found

/-- A function imported from a module, with a signature and no body. -/
def foreignImport (reach : Reach) : Parse (Option NodeId) := do
  let mark ← advance
  let _ ← expect .kwForeign
  let _ ← expect .kwFrom
  let _ ← expect .openParen
  let token ← expect .identifier
  let module := (token.map Token.identifierName).getD ""
  addModule module
  let _ ← expect .comma
  let found ← closedSignature reach
  let _ ← expect .closeParen
  let _ ← expect .semicolon
  match found with
  | none => return none
  | some found =>
    return some (← alloc mark.position
      (.function found.name found.result found.parameters found.scope (.imported module)))

/-! ## Blocks -/

/-- A block in a scope of its own. -/
def block (reach : Reach) : Parse ScopeId := do
  let scope ← enterScope (← currentPosition)
  blockBody reach
  exitScope
  return scope

/-- Adds a statement that was found to the current scope. -/
def addFound : Option NodeId → Parse Unit
  | some id => addStatement id
  | none => return ()

/-- Statements up to the end of a block, or of the tokens. -/
def statements (reach : Reach) : Parse Unit := do
  if (← currentKind) ≠ .closeCurly ∧ (← look Builder.hasTokens) then
    addFound (← reach (.production .statement))
    reach .statements

/-- Top-level declarations up to the end of the tokens. -/
def declarations (reach : Reach) : Parse Unit := do
  if ← look Builder.hasTokens then
    addFound (← reach (.production .declaration))
    reach .declarations

/-! ## Leaving functions and loops -/

/-- The value that a function returns, unless its statement ends here. -/
def returnValue (reach : Reach) : Parse (Option NodeId) := do
  if (← currentKind) = .semicolon then return none else reach (.expression .lowest)

def returnStatement (reach : Reach) : Parse (Option NodeId) := do
  let token ← advance
  let value ← returnValue reach
  let _ ← expect .semicolon
  return some (← alloc token.position (.jump .returning value))

/-- Reports a keyword that needs a loop around it and has none. -/
def refuseOutsideLoop (token : Token) : Parse Unit := do
  if (← look Builder.loopDepth) = 0 then
    report (.misplacedLoopControl token.kind) token.position

/-- A statement that ends a loop or its round, and has to be inside of one. -/
def loopControl : Parse (Option NodeId) := do
  let token ← advance
  refuseOutsideLoop token
  let _ ← expect .semicolon
  let jump := if token.kind = .kwBreak then Jump.breaking else .continuing
  return some (← alloc token.position (.jump jump none))

/-! ## Conditionals and loops -/

def ifStatement (reach : Reach) : Parse (Option NodeId) := do
  let token ← advance
  let condition ← reach (.expression .lowest)
  let body ← reach .block
  let next ← reach .elseClause
  return some (← alloc token.position (.flow .ifClause condition body next))

/-- The clause after a clause of a conditional, with all that follow it. -/
def elseClause (reach : Reach) : Parse (Option NodeId) := do
  match ← currentKind with
  | .kwElif =>
    let token ← advance
    let condition ← reach (.expression .lowest)
    let body ← reach .block
    let next ← reach .elseClause
    return some (← alloc token.position (.flow .elifClause condition body next))
  | .kwElse =>
    let token ← advance
    let body ← reach .block
    return some (← alloc token.position (.flow .elseClause none body none))
  | _ => return none

def whileStatement (reach : Reach) : Parse (Option NodeId) := do
  let token ← advance
  let condition ← reach (.expression .lowest)
  change fun s => s.setLoopDepth (s.loopDepth + 1)
  let body ← reach .block
  change fun s => s.setLoopDepth (s.loopDepth - 1)
  return some (← alloc token.position (.flow .whileLoop condition body none))

end Braced.Tree.Statement

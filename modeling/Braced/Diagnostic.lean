import Braced.Token

/-!
# Braced.Diagnostic

What can be wrong with a source. A `Fault` is the cause alone, with what is
needed to explain it; a `Diagnostic` is a fault and its place. All wording is in
`Fault.message`, which is for a line in a log, and in `Fault.tip`, which is for
the reader of the source.
-/

namespace Braced

/-- The stage of reading a source at which a fault shows. -/
inductive FaultClass
  | lexical
  | syntactic
  | semantic
  deriving DecidableEq, Repr

/-- A cause for refusing a source. -/
inductive Fault
  | unterminatedChar
  | unterminatedString
  | unterminatedComment
  /-- A numeral that does not fit the type of its constant. -/
  | unreadableNumber (text : String)
  | identifierTooLong (length limit : Nat)
  | unexpectedToken (expected found : TokenKind)
  | expectedExpression (found : TokenKind)
  | expectedType (found : TokenKind)
  | expectedDeclaration (found : TokenKind)
  | expectedStatement (found : TokenKind)
  | expressionTooDeep (limit : Nat)
  /-- A name that its scope binds already. -/
  | redeclaration (name : String)
  | undeclaredIdentifier (name : String)
  | undeclaredFunction (name : String)
  /-- A call of a name that is bound to something other than a function. -/
  | notCallable (name : String)
  /-- A `break` or a `continue` that no loop of its function encloses. -/
  | misplacedLoopControl (keyword : TokenKind)
  /-- A function defined inside a block. -/
  | nestedFunction (name : String)
  deriving DecidableEq, Repr

namespace Fault

def faultClass : Fault → FaultClass
  | unterminatedChar | unterminatedString | unterminatedComment | unreadableNumber _
  | identifierTooLong _ _ => .lexical
  | unexpectedToken _ _ | expectedExpression _ | expectedType _ | expectedDeclaration _
  | expectedStatement _ | expressionTooDeep _ => .syntactic
  | redeclaration _ | undeclaredIdentifier _ | undeclaredFunction _ | notCallable _
  | misplacedLoopControl _ | nestedFunction _ => .semantic

/-- The name by which a fault is announced. -/
def name : Fault → String
  | unterminatedChar => "UnterminatedCharLiteral"
  | unterminatedString => "UnterminatedStringLiteral"
  | unterminatedComment => "UnterminatedComment"
  | unreadableNumber _ => "NumberParseError"
  | identifierTooLong _ _ => "IdentifierTooLong"
  | unexpectedToken _ _ => "UnexpectedToken"
  | expectedExpression _ => "ExpectedExpression"
  | expectedType _ => "ExpectedType"
  | expectedDeclaration _ => "ExpectedDeclaration"
  | expectedStatement _ => "ExpectedStatement"
  | expressionTooDeep _ => "ExpressionTooDeep"
  | redeclaration _ => "Redeclaration"
  | undeclaredIdentifier _ => "UndeclaredIdentifier"
  | undeclaredFunction _ => "UndeclaredFunction"
  | notCallable _ => "NotCallable"
  | misplacedLoopControl _ => "MisplacedLoopControl"
  | nestedFunction _ => "NestedFunction"

/-- A piece of source text inside a sentence. -/
def code (s : String) : String :=
  "`" ++ s ++ "`"

/-- The fault in one line, with names quoted. -/
def message : Fault → String
  | unterminatedChar => "unterminated character literal"
  | unterminatedString => "unterminated string literal"
  | unterminatedComment => "unterminated multi-line comment"
  | unreadableNumber text => "error parsing number: " ++ Text.quote text
  | identifierTooLong length limit =>
    "identifier too long: " ++ toString length ++ " characters, limit " ++ toString limit
  | unexpectedToken expected found =>
    "expected " ++ code expected.display ++ ", found " ++ code found.display
  | expectedExpression found => "expected an expression, found " ++ code found.display
  | expectedType found => "expected a type, found " ++ code found.display
  | expectedDeclaration found => "expected a declaration, found " ++ code found.display
  | expectedStatement found => "expected a statement, found " ++ code found.display
  | expressionTooDeep limit => "expression nested deeper than " ++ toString limit ++ " levels"
  | redeclaration name => "redeclaration of " ++ Text.quote name
  | undeclaredIdentifier name => "undeclared identifier " ++ Text.quote name
  | undeclaredFunction name => "undeclared function " ++ Text.quote name
  | notCallable name => Text.quote name ++ " is not callable"
  | misplacedLoopControl keyword => code keyword.display ++ " outside of a loop"
  | nestedFunction name => "function " ++ Text.quote name ++ " defined inside a block"

/-- The fault explained to whoever wrote the source. -/
def tip : Fault → String
  | unterminatedChar => "Character literals take exactly one character between single quotes"
  | unterminatedString => "String literal is missing its closing " ++ code "\""
  | unterminatedComment =>
    "Every " ++ code "\x7b-" ++ " needs a matching " ++ code "-\x7d"
      ++ " before the end of the file"
  | unreadableNumber text =>
    "Invalid number: " ++ code text ++ ", is it above the integer limit?"
  | identifierTooLong length limit =>
    "Identifier is " ++ toString length ++ " characters long, the limit is " ++ toString limit
  | unexpectedToken expected found =>
    "Expected " ++ code expected.display ++ ", found " ++ code found.display
  | expectedExpression found => "Expected an expression, found " ++ code found.display
  | expectedType found =>
    "Expected one of " ++ code "int" ++ ", " ++ code "byte" ++ ", " ++ code "float" ++ ", "
      ++ code "double" ++ ", " ++ code "boolean" ++ ", found " ++ code found.display
  | expectedDeclaration found =>
    "Expected a declaration, function or call at top level, found " ++ code found.display
  | expectedStatement found => "Expected a statement, found " ++ code found.display
  | expressionTooDeep limit =>
    "Expressions may nest at most " ++ toString limit ++ " levels, split this one into variables"
  | redeclaration name => code name ++ " is already declared in this scope"
  | undeclaredIdentifier name => code name ++ " is not declared"
  | undeclaredFunction name => "Function " ++ code name ++ " is not declared at top level"
  | notCallable name => code name ++ " is not a function"
  | misplacedLoopControl keyword => code keyword.display ++ " can only be used inside " ++ code "while"
  | nestedFunction name => "Function " ++ code name ++ " must be defined at top level"

end Fault

/-- A fault at a place. -/
structure Diagnostic where
  fault : Fault
  position : Position
  deriving DecidableEq, Repr

/-- The diagnostic in one line, for the source with the given name. -/
def Diagnostic.message (file : String) (d : Diagnostic) : String :=
  d.position.display file ++ ": " ++ d.fault.message

end Braced

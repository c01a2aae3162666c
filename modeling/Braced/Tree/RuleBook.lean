import Braced.Tree.Builder

/-!
# Braced.Tree.RuleBook

Which part of the grammar a token leads into.

A `Production` is a part of the grammar that can be chosen by the token it
starts with. A rule book says which one is chosen for an operand, for a
statement and for a top-level declaration, and which tokens are binary
operators, with what power they bind. The productions themselves are elsewhere:
a rule book can be changed without touching them.
-/

namespace Braced

/-- How strongly a binary operator binds. -/
inductive Power
  /-- Weaker than every operator. -/
  | lowest
  | relational
  | additive
  | multiplicative
  deriving DecidableEq, Repr

/-- The place of a power among the others. -/
def Power.rank : Power → Nat
  | lowest => 0
  | relational => 1
  | additive => 2
  | multiplicative => 3

/-- The parts of the grammar that a token can lead into. -/
inductive Production
  | unary
  | primary
  | prefixed
  | grouping
  | declaration
  | statement
  | identifierStatement
  | variableStatement
  | function
  | foreignImport
  | returnStatement
  | loopControl
  | ifStatement
  | whileStatement
  | type
  deriving DecidableEq, Repr

structure RuleBook where
  power? : TokenKind → Option Power
  operand? : TokenKind → Option Production
  statement? : TokenKind → Option Production
  declaration? : TokenKind → Option Production

namespace RuleBook

/-! ## The rules of the language -/

/-- The binary operators. -/
def standardPower? : TokenKind → Option Power
  | .less | .lessEquals | .greater | .greaterEquals | .equals | .notEquals => some .relational
  | .plus | .dash => some .additive
  | .star | .slash | .percent => some .multiplicative
  | _ => none

/-- What an operand starts with. -/
def standardOperand? : TokenKind → Option Production
  | .intConst | .floatConst | .charConst | .stringConst | .identifier => some .primary
  | .plusPlus | .minusMinus | .star | .ampersand | .dash => some .prefixed
  | .openParen => some .grouping
  | _ => none

/-- What a statement in a block starts with. -/
def standardStatement? : TokenKind → Option Production
  | .identifier => some .identifierStatement
  | .kwReturn => some .returnStatement
  | .kwBreak | .kwContinue => some .loopControl
  | .kwIf => some .ifStatement
  | .kwWhile => some .whileStatement
  | _ => none

/-- What a top-level declaration starts with. -/
def standardDeclaration? : TokenKind → Option Production
  | .identifier => some .identifierStatement
  | .pound => some .foreignImport
  | _ => none

/-- The rules of the language. -/
def standard : RuleBook :=
  ⟨standardPower?, standardOperand?, standardStatement?, standardDeclaration?⟩

/-! ## Changing rules -/

/-- No rules at all. -/
def empty : RuleBook :=
  ⟨fun _ => none, fun _ => none, fun _ => none, fun _ => none⟩

/-- The rules of `book`, and those of `default` where `book` has none. -/
def orElse (book default : RuleBook) : RuleBook where
  power? kind := (book.power? kind).or (default.power? kind)
  operand? kind := (book.operand? kind).or (default.operand? kind)
  statement? kind := (book.statement? kind).or (default.statement? kind)
  declaration? kind := (book.declaration? kind).or (default.declaration? kind)

/-- A table of rules with one rule replaced. -/
def replace (rules : TokenKind → Option α) (kind : TokenKind) (rule : α) :
    TokenKind → Option α :=
  fun k => if k = kind then some rule else rules k

def withPower (book : RuleBook) (kind : TokenKind) (power : Power) : RuleBook :=
  { book with power? := replace book.power? kind power }

def withOperand (book : RuleBook) (kind : TokenKind) (production : Production) : RuleBook :=
  { book with operand? := replace book.operand? kind production }

def withStatement (book : RuleBook) (kind : TokenKind) (production : Production) : RuleBook :=
  { book with statement? := replace book.statement? kind production }

def withDeclaration (book : RuleBook) (kind : TokenKind) (production : Production) : RuleBook :=
  { book with declaration? := replace book.declaration? kind production }

end RuleBook

end Braced

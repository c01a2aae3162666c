import Braced.Tree.RuleBook

/-!
# Braced.Tree.Goal

The grammar's parts that refer to each other, as data, and the actions that
read them.

Reading a part needs other parts, which may need the first one again. So each
part is written as an action that is given a way to reach every `Goal`, and
refers to the others only through it (`Braced.Tree.Expression`,
`Braced.Tree.Statement`). What the actions do together is settled once, in
`Braced.Tree.OfTokens`.
-/

namespace Braced

/-! ## Actions -/

/-- What a builder may do. There is no result when the number of steps allowed
    was too small; what is wrong with the tokens is noted in the builder and is
    no failure of the action. -/
abbrev Parse (α : Type) : Type := StateT Builder Option α

namespace Parse

/-- An action that always has a result. -/
def act (f : Builder → α × Builder) : Parse α :=
  fun s => some (f s)

/-- An action without a result of interest. -/
def change (f : Builder → Builder) : Parse Unit :=
  fun s => some ((), f s)

/-- Looks at the builder. -/
def look (f : Builder → α) : Parse α :=
  fun s => some (f s, s)

/-- The kind of the next token. -/
def currentKind : Parse TokenKind := look fun s => s.current.kind

/-- The place of the next token. -/
def currentPosition : Parse Position := look fun s => s.current.position

def advance : Parse Token := act Builder.advance

def expect (kind : TokenKind) : Parse (Option Token) := act (·.expect kind)

def accept (kind : TokenKind) : Parse Bool := act (·.accept kind)

def expectClosing (kind : TokenKind) : Parse (Option Token) := act (·.expectClosing kind)

def report (fault : Fault) (position : Position) : Parse Unit :=
  change (·.report fault position)

def alloc (position : Position) (kind : NodeKind) : Parse NodeId := act (·.alloc position kind)

def enterScope (position : Position) : Parse ScopeId := act (·.enterScope position)

def exitScope : Parse Unit := change Builder.exitScope

def addStatement (statement : NodeId) : Parse Unit := change (·.addStatement statement)

def declare (name : String) (kind : EntryKind) (position : Position) : Parse Unit :=
  change (·.declare name kind position)

def resolveIdentifier (name : String) (position : Position) : Parse Unit :=
  change (·.resolveIdentifier name position)

def resolveFunction (name : String) (position : Position) : Parse Unit :=
  change (·.resolveFunction name position)

def addModule (name : String) : Parse Unit := change (·.addModule name)

def enterExpression : Parse Bool := act Builder.enterExpression

def exitExpression (levels : Nat) : Parse Unit := change (·.exitExpression levels)

end Parse

/-! ## Goals -/

/-- A part of the grammar, indexed by what reading it gives. Where that is an
    optional node there is none when a part that the node needs is missing,
    which has then been reported. -/
inductive Goal : Type → Type
  /-- A part that a token can lead into. -/
  | production (production : Production) : Goal (Option NodeId)
  /-- An expression whose outermost operators bind more strongly than `power`. -/
  | expression (power : Power) : Goal (Option NodeId)
  /-- The operators that follow `left` and bind more strongly than `power`, with
      their right operands. -/
  | operators (left : NodeId) (power : Power) : Goal (Option NodeId)
  /-- One operator of the given power that follows `left`, with its right
      operand. -/
  | binary (left : NodeId) (power : Power) : Goal (Option NodeId)
  /-- A function's name and arguments. -/
  | call (isStatement : Bool) : Goal (Option NodeId)
  /-- Arguments between commas; nothing if one of them is missing. -/
  | arguments : Goal (Option (List NodeId))
  /-- Values, each behind an `=`. Those that are missing are left out. -/
  | values : Goal (List NodeId)
  /-- Parameters between commas. Those that are incomplete are left out. -/
  | parameters : Goal (List Parameter)
  /-- The clauses that follow a clause of a conditional. -/
  | elseClause : Goal (Option NodeId)
  /-- A block with a scope of its own. -/
  | block : Goal ScopeId
  /-- Statements up to the end of a block. -/
  | statements : Goal Unit
  /-- Top-level declarations up to the end of the tokens. -/
  | declarations : Goal Unit

/-- A way to read every part of the grammar. -/
abbrev Reach : Type 1 := ∀ {α : Type}, Goal α → Parse α

end Braced

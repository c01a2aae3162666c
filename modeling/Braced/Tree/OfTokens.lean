import Braced.Tree.Statement

/-!
# Braced.Tree.OfTokens

The tree of a list of tokens (`Tree.ofTokens`).

Here the parts of the grammar are tied together: `Goal.step` says how each is
read in terms of the others, and `Goal.reach` follows these references as often
as a given number of steps allows. Every reference comes after a token has been
passed or leads to a later stage of the same part, so a number of steps in
proportion to the tokens is enough.
-/

namespace Braced

namespace Production

/-- How a production is read in terms of other parts. -/
def read (book : RuleBook) (reach : Reach) : Production → Parse (Option NodeId)
  | unary => Tree.Expression.unary book reach
  | primary => Tree.Expression.primary reach
  | prefixed => Tree.Expression.prefixed reach
  | grouping => Tree.Expression.grouping reach
  | declaration => Tree.Statement.declaration book reach
  | statement => Tree.Statement.statement book reach
  | identifierStatement => Tree.Statement.identifierStatement reach
  | variableStatement => Tree.Statement.variableStatement reach
  | function => Tree.Statement.function reach
  | foreignImport => Tree.Statement.foreignImport reach
  | returnStatement => Tree.Statement.returnStatement reach
  | loopControl => Tree.Statement.loopControl
  | ifStatement => Tree.Statement.ifStatement reach
  | whileStatement => Tree.Statement.whileStatement reach
  | type => Tree.Statement.type

end Production

namespace Goal

/-- How a part of the grammar is read in terms of other parts. -/
def step (book : RuleBook) (reach : Reach) : {α : Type} → Goal α → Parse α
  | _, production p => p.read book reach
  | _, expression power => Tree.Expression.expression reach power
  | _, operators left power => Tree.Expression.operators book reach left power
  | _, binary left power => Tree.Expression.binary reach left power
  | _, call isStatement => Tree.Expression.call reach isStatement
  | _, arguments => Tree.Expression.arguments reach
  | _, values => Tree.Statement.values reach
  | _, parameters => Tree.Statement.parameters reach
  | _, elseClause => Tree.Statement.elseClause reach
  | _, block => Tree.Statement.block reach
  | _, statements => Tree.Statement.statements reach
  | _, declarations => Tree.Statement.declarations reach

/-- Reads a part of the grammar, with at most `fuel` references inside one
    another. -/
def reach (book : RuleBook) : (fuel : Nat) → {α : Type} → Goal α → Parse α
  | 0, _, _ => fun _ => none
  | fuel + 1, _, goal => step book (reach book fuel) goal

/-- More references inside one another than reading `n` tokens needs. Between
    two tokens that are passed there are a few for each level of an expression,
    even under rules that lead an operand into itself. -/
def enoughFuel (n : Nat) : Nat :=
  16 * (maxExpressionDepth + 1) * (n + 2)

/-- Reads a part of the grammar from the tokens of a builder. -/
def run (book : RuleBook) (goal : Goal α) (s : Builder) : Option (α × Builder) :=
  reach book (enoughFuel s.ahead.length) goal s

end Goal

namespace Tree

/-- The builder after all tokens have been read by the rules of the language. -/
def build (tokens : List Token) : Builder :=
  let start := Builder.ofTokens tokens
  match Goal.declarations.run .standard start with
  | some ((), s) => s
  | none => start

/-- The tree of a list of tokens, and what is wrong with them in the order in
    which it was found. There is a tree in any case. -/
def ofTokens (tokens : List Token) : Tree × List Diagnostic :=
  let s := build tokens
  (s.tree, s.diagnostics.toList)

end Tree

end Braced

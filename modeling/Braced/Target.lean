import Braced.Target.Literal
import Braced.Tree

/-!
# Braced.Target

Programs of the target language, as far as they are written here: prototypes,
variables of the file, functions, and a startup function that sets the variables
and makes the calls of the top level.

Unlike a tree, a program of the target is a plain term. Every operand of an
operator is in parentheses when it is written (`Braced.Target.Text`), so a term
needs no precedences.
-/

namespace Braced.Target

/-- A name. Those that the program itself gives are kept apart from those that
    come from outside, so that neither can hide the other. -/
inductive Name
  | own (name : String)
  | imported (name : String)
  deriving DecidableEq, Repr

/-! ## Expressions -/

inductive Expr
  | int (value : Int)
  | float (value : Binary64)
  | char (value : UInt8)
  | string (bytes : List UInt8)
  | name (name : Name)
  | call (function : Name) (arguments : List Expr)
  | binary (op : BinaryOp) (left right : Expr)
  | unary (op : UnaryOp) (operand : Expr)
  /-- An operand with an operator behind it. -/
  | stepped (operand : Expr) (step : Step)
  deriving Repr

/-! ## Statements -/

mutual

inductive Stmt
  /-- A variable of the block, with the values that it and what is assigned
      along with it get. -/
  | declare (isConst : Bool) (type : TypeAtom) (name : Name) (values : List Expr)
  | assign (name : Name) (values : List Expr)
  | call (call : Expr)
  | returning (value : Option Expr)
  | breaking
  | continuing
  /-- A conditional with all its clauses, or a loop. -/
  | flow (clauses : List Clause)
  deriving Repr

inductive Clause
  | mk (flow : Flow) (condition : Option Expr) (body : List Stmt)
  deriving Repr

end

/-! ## Programs -/

/-- What a function looks like to its callers. One that gives no result has no
    result type. -/
structure Signature where
  name : Name
  result : Option TypeAtom
  parameters : List (TypeAtom × Name)
  deriving DecidableEq, Repr

structure Function where
  signature : Signature
  body : List Stmt
  deriving Repr

structure Program where
  /-- The modules that functions are imported from. -/
  modules : List String
  prototypes : List Signature
  /-- The variables of the file. They get their values at startup. -/
  globals : List (TypeAtom × Name)
  functions : List Function
  startup : List Stmt
  deriving Repr

end Braced.Target

import Braced.Target.Text

/-!
# Braced.Proofs.Target.Shape

What can be told from the text of statements.

A `Shape` is an expression as far as its text can tell: a name is what is written for
it, and a fraction is its digits.  Only an operand can have a step behind it.  A
`StmtShape` is the same for statements; a conditional begins with its first clause, and
only what can follow it does.

`Shape.write` and `StmtShape.write` put the text of a shape in front of other text.
-/

namespace Braced.Target

/-! ## Words and numerals -/

def isWordChar (c : Char) : Bool :=
  c.isAlphanum || c == '_'

/-- What can stand behind the mark of a name that the program gives. -/
structure Word where
  chars : List Char
  isWord : chars.all isWordChar = true

/-- Letters, digits and underscores, of which a digit is not the first. -/
def isLabel : List Char → Bool
  | [] => false
  | c :: cs => isWordChar c && !c.isDigit && cs.all isWordChar

/-- What is written for the name of a function. -/
structure Label where
  chars : List Char
  isLabel : isLabel chars = true

/-- Whether a numeral goes on with a character, behind another one. -/
def numeralGoesOn (before c : Char) : Bool :=
  c.isAlphanum || c == '.' || (c == '-' && before == 'e')

/-- Whether a numeral can go on with these characters to its end.  At its beginning it
may have a sign, like behind the `e` of an exponent. -/
def isNumeral (before : Char) : List Char → Bool
  | [] => before.isAlphanum && before != 'e'
  | c :: cs => numeralGoesOn before c && isNumeral c cs

/-- A sign or a digit. -/
def isIntChar (c : Char) : Bool :=
  c.isDigit || c == '-'

/-- Whether a numeral begins like this. -/
def startsNumeral : List Char → Bool
  | [] => false
  | c :: _ => isIntChar c

/-- Whether this is written for a number that is no integer, or is not written like
one. -/
def isFraction (cs : List Char) : Bool :=
  cs == ['i', 'n', 'f'] || cs == ['N', 'a', 'N']
    || (startsNumeral cs && isNumeral 'e' cs && !cs.all isIntChar)

/-- What is written for a floating-point number. -/
structure Fraction where
  chars : List Char
  isFraction : isFraction chars = true

/-! ## Expressions -/

mutual

/-- An operand without operators. -/
inductive Operand
  | int (value : Int)
  | float (text : Fraction)
  | char (value : UInt8)
  | string (bytes : List UInt8)
  | name (name : Word)
  | call (function : Label) (arguments : List Shape)

/-- An expression, as far as its text can tell. -/
inductive Shape
  | operand (value : Operand) (step : Option Step)
  | unary (op : UnaryOp) (operand : Shape)
  | binary (op : BinaryOp) (left right : Shape)

end

/-- What is written for an operator behind an operand. -/
def stepChars : Option Step → List Char
  | none => []
  | some step => (stepText step).toList

/-- A name that the program gives, in front of other text. -/
def Word.write (name : Word) (rest : List Char) : List Char :=
  's' :: 'c' :: '_' :: (name.chars ++ rest)

mutual

/-- The text of an operand in front of other text. -/
def Operand.write : Operand → List Char → List Char
  | .int value, rest => (toString value).toList ++ rest
  | .float text, rest => text.chars ++ rest
  | .char value, rest => '\'' :: (Literal.escapeByte Ascii.singleQuote value ++ '\'' :: rest)
  | .string bytes, rest => '"' :: (Literal.escape Ascii.doubleQuote bytes ++ '"' :: rest)
  | .name name, rest => name.write rest
  | .call function arguments, rest =>
    function.chars ++ '(' :: Shape.writeArguments arguments (')' :: rest)

/-- The text of an expression in front of other text. -/
def Shape.write : Shape → List Char → List Char
  | .operand value step, rest => value.write (stepChars step ++ rest)
  | .unary op operand, rest => (unaryText op).toList ++ '(' :: operand.write (')' :: rest)
  | .binary op left right, rest =>
    '(' :: left.write (' ' :: (op.symbol.toList ++ ' ' :: right.write (')' :: rest)))

/-- Expressions with commas between them. -/
def Shape.writeArguments : List Shape → List Char → List Char
  | [], rest => rest
  | e :: es, rest => e.write (Shape.writeEach [',', ' '] es rest)

/-- Expressions with the same text in front of each. -/
def Shape.writeEach (mark : List Char) : List Shape → List Char → List Char
  | [], rest => rest
  | e :: es, rest => mark ++ e.write (Shape.writeEach mark es rest)

end

/-! ## Statements -/

mutual

/-- A statement, as far as its text can tell. -/
inductive StmtShape
  | declare (isConst : Bool) (type : TypeAtom) (name : Word) (values : List Shape)
  | assign (name : Word) (values : List Shape)
  | call (function : Label) (arguments : List Shape)
  | returning (value : Option Shape)
  | breaking
  | continuing
  | conditional (condition : Option Shape) (body : List StmtShape) (others : List ClauseShape)
  | loop (condition : Option Shape) (body : List StmtShape)

/-- A clause that follows the first one of a conditional. -/
inductive ClauseShape
  | elif (condition : Option Shape) (body : List StmtShape)
  | otherwise (body : List StmtShape)

end

/-- The words that have a meaning at the beginning of a statement. -/
inductive Keyword
  | const
  | type (atom : TypeAtom)
  | returning
  | breaking
  | continuing
  | conditional
  | loop

def Keyword.chars : Keyword → List Char
  | const => ['c', 'o', 'n', 's', 't']
  | type atom => atom.targetName.toList
  | returning => ['r', 'e', 't', 'u', 'r', 'n']
  | breaking => ['b', 'r', 'e', 'a', 'k']
  | continuing => ['c', 'o', 'n', 't', 'i', 'n', 'u', 'e']
  | conditional => ['i', 'f']
  | loop => ['w', 'h', 'i', 'l', 'e']

/-- What is between a block and the clause behind it. -/
def elseChars : List Char :=
  [' ', 'e', 'l', 's', 'e']

/-- The spaces in front of a line, in front of other text. -/
def indented (depth : Nat) (rest : List Char) : List Char :=
  List.replicate (4 * depth) ' ' ++ rest

/-- A condition in front of other text. -/
def writeCondition : Option Shape → List Char → List Char
  | none, rest => rest
  | some condition, rest => ' ' :: '(' :: condition.write (')' :: rest)

/-- A value behind a space, in front of other text. -/
def writeValue : Option Shape → List Char → List Char
  | none, rest => rest
  | some value, rest => ' ' :: value.write rest

/-- A name with its values, and the end of the line. -/
def writeAssignment (name : Word) (values : List Shape) (rest : List Char) : List Char :=
  name.write (Shape.writeEach [' ', '=', ' '] values (';' :: '\n' :: rest))

/-- The beginning of a block in front of other text. -/
def openBlock (rest : List Char) : List Char :=
  [' ', '\x7b', '\n'] ++ rest

/-- The end of a block in front of other text. -/
def closeBlock (depth : Nat) (rest : List Char) : List Char :=
  indented depth ('\x7d' :: rest)

mutual

/-- The text of a statement from behind the spaces of its first line on. -/
def StmtShape.write (depth : Nat) : StmtShape → List Char → List Char
  | .declare isConst type name values, rest =>
    (if isConst then Keyword.const.chars ++ [' '] else [])
      ++ ((Keyword.type type).chars ++ ' ' :: writeAssignment name values rest)
  | .assign name values, rest => writeAssignment name values rest
  | .call function arguments, rest =>
    (Operand.call function arguments).write (';' :: '\n' :: rest)
  | .returning value, rest => Keyword.returning.chars ++ writeValue value (';' :: '\n' :: rest)
  | .breaking, rest => Keyword.breaking.chars ++ ';' :: '\n' :: rest
  | .continuing, rest => Keyword.continuing.chars ++ ';' :: '\n' :: rest
  | .conditional condition body others, rest =>
    Keyword.conditional.chars ++ writeCondition condition
      (openBlock (StmtShape.writeAll (depth + 1) body (closeBlock depth
        (ClauseShape.writeAll depth others ('\n' :: rest)))))
  | .loop condition body, rest =>
    Keyword.loop.chars ++ writeCondition condition
      (openBlock (StmtShape.writeAll (depth + 1) body (closeBlock depth ('\n' :: rest))))

/-- Statements one after the other. -/
def StmtShape.writeAll (depth : Nat) : List StmtShape → List Char → List Char
  | [], rest => rest
  | s :: ss, rest => indented depth (s.write depth (StmtShape.writeAll depth ss rest))

/-- A clause that follows the first one. -/
def ClauseShape.write (depth : Nat) : ClauseShape → List Char → List Char
  | .elif condition body, rest =>
    elseChars ++ ' ' :: (Keyword.conditional.chars ++ writeCondition condition
      (openBlock (StmtShape.writeAll (depth + 1) body (closeBlock depth rest))))
  | .otherwise body, rest =>
    elseChars ++ openBlock (StmtShape.writeAll (depth + 1) body (closeBlock depth rest))

/-- Clauses one behind the other. -/
def ClauseShape.writeAll (depth : Nat) : List ClauseShape → List Char → List Char
  | [], rest => rest
  | c :: cs, rest => c.write depth (ClauseShape.writeAll depth cs rest)

end

end Braced.Target

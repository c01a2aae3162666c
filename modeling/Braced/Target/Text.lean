import Braced.Target

/-!
# Braced.Target.Text

The text of a program of the target language.

Each binary operator and each operator in front of an operand comes with its
own parentheses. A block is indented by four spaces more than what is around it.
-/

namespace Braced

/-- The target language's type for a type. -/
def TypeAtom.targetName : TypeAtom → String
  | int => "int32_t"
  | byte => "uint8_t"
  | float => "float"
  | double => "double"
  | boolean => "bool"

namespace Target

/-! ## Names -/

/-- The name of the function that runs at startup. -/
def startupName : String := "__scopec_startup"

/-- What a name given by the program starts with, so that it differs from the
    target's keywords and from every name of its libraries. -/
def ownMark : String := "sc_"

def Name.text : Name → String
  | own name => ownMark ++ name
  | imported name => name

/-! ## Expressions -/

/-- What is written in front of the parentheses around an operand. -/
def unaryText : UnaryOp → String
  | .increment => "++"
  | .decrement => "--"
  | .nested => ""
  | .deref => "*"
  | .addressOf => "&"
  | .negate => "-"

def stepText : Step → String
  | .increment => "++"
  | .decrement => "--"

/-- Texts with commas between them. -/
def commaSeparated (texts : List String) : String :=
  String.intercalate ", " texts

mutual

def Expr.text : Expr → String
  | .int value => toString value
  | .float value => value.literalText
  | .char value => Literal.char value
  | .string bytes => Literal.string bytes
  | .name n => n.text
  | .call function arguments =>
    function.text ++ "(" ++ commaSeparated (Expr.texts arguments) ++ ")"
  | .binary op left right => "(" ++ left.text ++ " " ++ op.symbol ++ " " ++ right.text ++ ")"
  | .unary op operand => unaryText op ++ "(" ++ operand.text ++ ")"
  | .stepped operand step => operand.text ++ stepText step

def Expr.texts : List Expr → List String
  | [] => []
  | e :: es => e.text :: Expr.texts es

end

/-! ## Statements -/

/-- The spaces in front of a line. -/
def indentation (depth : Nat) : String :=
  String.ofList (List.replicate (4 * depth) ' ')

/-- A name with the values that are assigned to it. -/
def assignmentText (name : Name) (values : List Expr) : String :=
  name.text ++ String.join ((Expr.texts values).map fun value => " = " ++ value)

/-- How a clause begins. -/
def flowText : Flow → String
  | .ifClause => "if"
  | .elifClause => " else if"
  | .elseClause => " else"
  | .whileLoop => "while"

/-- What a clause is subject to. -/
def conditionText : Option Expr → String
  | none => ""
  | some condition => " (" ++ condition.text ++ ")"

mutual

/-- The lines of a statement at a given depth of blocks. -/
def Stmt.text (depth : Nat) : Stmt → String
  | .declare isConst type name values =>
    indentation depth ++ (if isConst then "const " else "") ++ type.targetName ++ " "
      ++ assignmentText name values ++ ";\n"
  | .assign name values => indentation depth ++ assignmentText name values ++ ";\n"
  | .call call => indentation depth ++ call.text ++ ";\n"
  | .returning none => indentation depth ++ "return;\n"
  | .returning (some value) => indentation depth ++ "return " ++ value.text ++ ";\n"
  | .breaking => indentation depth ++ "break;\n"
  | .continuing => indentation depth ++ "continue;\n"
  | .flow clauses => indentation depth ++ Clause.texts depth clauses ++ "\n"

/-- The lines of statements one after the other. -/
def Stmt.texts (depth : Nat) : List Stmt → String
  | [] => ""
  | s :: ss => s.text depth ++ Stmt.texts depth ss

/-- A clause, from its keyword to the end of its block. -/
def Clause.text (depth : Nat) : Clause → String
  | .mk flow condition body =>
    flowText flow ++ conditionText condition ++ " \x7b\n" ++ Stmt.texts (depth + 1) body
      ++ indentation depth ++ "\x7d"

/-- Clauses one behind the other. -/
def Clause.texts (depth : Nat) : List Clause → String
  | [] => ""
  | c :: cs => c.text depth ++ Clause.texts depth cs

end

/-! ## Programs -/

/-- The type of a function's result. -/
def resultText : Option TypeAtom → String
  | some type => type.targetName
  | none => "void"

def parametersText : List (TypeAtom × Name) → String
  | [] => "void"
  | parameters =>
    commaSeparated (parameters.map fun (type, name) => type.targetName ++ " " ++ name.text)

def Signature.text (s : Signature) : String :=
  resultText s.result ++ " " ++ s.name.text ++ "(" ++ parametersText s.parameters ++ ")"

def Function.text (f : Function) : String :=
  "\n" ++ f.signature.text ++ " \x7b\n" ++ Stmt.texts 1 f.body ++ "\x7d\n"

/-- Lines that are set off by an empty line, if there are any. -/
def paragraph : List String → String
  | [] => ""
  | lines => "\n" ++ String.join lines

/-- The text of a program that was read from the source with the given name. -/
def Program.text (file : String) (p : Program) : String :=
  "/* generated by scopec from " ++ file ++ " */\n"
    ++ "#include <stdio.h>\n#include <stdint.h>\n#include <stdbool.h>\n"
    ++ (if p.modules.isEmpty then ""
        else "\n/* foreign modules: " ++ commaSeparated p.modules ++ " */\n")
    ++ paragraph (p.prototypes.map fun s => s.text ++ ";\n")
    ++ paragraph (p.globals.map fun (type, name) => type.targetName ++ " " ++ name.text ++ ";\n")
    ++ String.join (p.functions.map Function.text)
    ++ "\nstatic void " ++ startupName ++ "(void) \x7b\n" ++ Stmt.texts 1 p.startup ++ "\x7d\n"
    ++ "\nint main(void) \x7b\n    " ++ startupName ++ "();\n    return 0;\n\x7d\n"

end Target

end Braced

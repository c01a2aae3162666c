import Braced.Binary64.Shortest
import Braced.Position
import Braced.Text.Escape

/-!
# Braced.Token

Tokens: what kind of thing was read, the value it carries, and where its first
byte stands.

Kind and value are independent here. The scanner pairs them sensibly, and
whoever reads a token list must not rely on it.
-/

namespace Braced

/-! ## Kinds -/

/-- What a token is. A single byte with no meaning of its own is a token too
    (`other`), so that reading bytes never fails on it. -/
inductive TokenKind
  | eof
  | intConst
  | floatConst
  | charConst
  | stringConst
  | identifier
  | openBracket
  | closeBracket
  | openCurly
  | closeCurly
  | openParen
  | closeParen
  | assignment
  | not
  | less
  | greater
  | colon
  | semicolon
  | comma
  | dot
  | pound
  | caret
  | ampersand
  | plus
  | dash
  | slash
  | star
  | percent
  | other (c : Char)
  | colonAssign
  | lessEquals
  | greaterEquals
  | notEquals
  | equals
  | plusPlus
  | minusMinus
  | arrow
  | kwIf
  | kwElif
  | kwElse
  | kwWhile
  | kwBreak
  | kwContinue
  | kwReturn
  | kwConst
  | kwInt
  | kwFloat
  | kwDouble
  | kwByte
  | kwBoolean
  | kwForeign
  | kwFrom
  deriving DecidableEq, Repr, Inhabited

namespace TokenKind

/-- The kind of a single byte that is not part of a longer token. -/
def ofByte (b : UInt8) : TokenKind :=
  match Ascii.toChar b with
  | '[' => openBracket
  | ']' => closeBracket
  | '{' => openCurly
  | '}' => closeCurly
  | '(' => openParen
  | ')' => closeParen
  | '=' => assignment
  | '!' => not
  | '<' => less
  | '>' => greater
  | ':' => colon
  | ';' => semicolon
  | ',' => comma
  | '.' => dot
  | '#' => pound
  | '^' => caret
  | '&' => ampersand
  | '+' => plus
  | '-' => dash
  | '/' => slash
  | '*' => star
  | '%' => percent
  | c => other c

/-- How the kind is spelled in a source, or a description where it has many
    spellings. -/
def describe : TokenKind → String
  | eof => "end of stream"
  | intConst => "integer constant"
  | floatConst => "float constant"
  | charConst => "character constant"
  | stringConst => "string constant"
  | identifier => "identifier"
  | openBracket => "["
  | closeBracket => "]"
  | openCurly => "\x7b"
  | closeCurly => "\x7d"
  | openParen => "("
  | closeParen => ")"
  | assignment => "="
  | not => "!"
  | less => "<"
  | greater => ">"
  | colon => ":"
  | semicolon => ";"
  | comma => ","
  | dot => "."
  | pound => "#"
  | caret => "^"
  | ampersand => "&"
  | plus => "+"
  | dash => "-"
  | slash => "/"
  | star => "*"
  | percent => "%"
  | other _ => "character"
  | colonAssign => ":="
  | lessEquals => "<="
  | greaterEquals => ">="
  | notEquals => "!="
  | equals => "=="
  | plusPlus => "++"
  | minusMinus => "--"
  | arrow => "->"
  | kwIf => "if"
  | kwElif => "elif"
  | kwElse => "else"
  | kwWhile => "while"
  | kwBreak => "break"
  | kwContinue => "continue"
  | kwReturn => "return"
  | kwConst => "const"
  | kwInt => "int"
  | kwFloat => "float"
  | kwDouble => "double"
  | kwByte => "byte"
  | kwBoolean => "boolean"
  | kwForeign => "foreign"
  | kwFrom => "from"

/-- The kind in a message: a byte with no meaning is shown itself. -/
def display : TokenKind → String
  | other c => Text.escapeChar c
  | kind => kind.describe

/-- The kind's name in a list of tokens. -/
def name : TokenKind → String
  | eof => "EOF"
  | intConst => "IntConst"
  | floatConst => "FloatConst"
  | charConst => "CharConst"
  | stringConst => "StringConst"
  | identifier => "Identifier"
  | openBracket => "OpenBracket"
  | closeBracket => "CloseBracket"
  | openCurly => "OpenCurly"
  | closeCurly => "CloseCurly"
  | openParen => "OpenParen"
  | closeParen => "CloseParen"
  | assignment => "Assignment"
  | not => "Not"
  | less => "Less"
  | greater => "Greater"
  | colon => "Colon"
  | semicolon => "Semicolon"
  | comma => "Comma"
  | dot => "Dot"
  | pound => "Pound"
  | caret => "Caret"
  | ampersand => "Ampersand"
  | plus => "Plus"
  | dash => "Dash"
  | slash => "Slash"
  | star => "Star"
  | percent => "Percent"
  | other c => "Other(" ++ Text.quoteChar c ++ ")"
  | colonAssign => "ColonAssign"
  | lessEquals => "LessEquals"
  | greaterEquals => "GreaterEquals"
  | notEquals => "NotEquals"
  | equals => "Equals"
  | plusPlus => "PlusPlus"
  | minusMinus => "MinusMinus"
  | arrow => "Arrow"
  | kwIf => "If"
  | kwElif => "Elif"
  | kwElse => "Else"
  | kwWhile => "While"
  | kwBreak => "Break"
  | kwContinue => "Continue"
  | kwReturn => "Return"
  | kwConst => "Const"
  | kwInt => "Int"
  | kwFloat => "Float"
  | kwDouble => "Double"
  | kwByte => "Byte"
  | kwBoolean => "Boolean"
  | kwForeign => "Foreign"
  | kwFrom => "From"

/-- Every kind but `other`, each once. -/
def constants : List TokenKind :=
  [eof, intConst, floatConst, charConst, stringConst, identifier, openBracket, closeBracket,
    openCurly, closeCurly, openParen, closeParen, assignment, not, less, greater, colon, semicolon,
    comma, dot, pound, caret, ampersand, plus, dash, slash, star, percent, colonAssign, lessEquals,
    greaterEquals, notEquals, equals, plusPlus, minusMinus, arrow, kwIf, kwElif, kwElse, kwWhile,
    kwBreak, kwContinue, kwReturn, kwConst, kwInt, kwFloat, kwDouble, kwByte, kwBoolean, kwForeign,
    kwFrom]

/-- The kind with a given name, apart from `other`. -/
def ofName? (s : String) : Option TokenKind :=
  constants.find? fun kind => kind.name == s

end TokenKind

/-! ## Values -/

/-- What a token carries. A string is kept as bytes with its escapes decoded,
    and need not be text. -/
inductive TokenValue
  | none
  | int (value : Int)
  | float (value : Binary64)
  | char (value : UInt8)
  | identifier (name : String)
  | string (bytes : List UInt8)
  deriving DecidableEq, Repr, Inhabited

structure Token where
  kind : TokenKind
  value : TokenValue
  position : Position
  deriving DecidableEq, Repr, Inhabited

namespace Token

/-- The name that an identifier token carries, and no characters at all for a
    token that carries none. -/
def identifierName (t : Token) : String :=
  match t.value with
  | .identifier name => name
  | _ => ""

/-- The token as it could be written in a source. -/
def text (t : Token) : String :=
  match t.value with
  | .none => t.kind.display
  | .int value => toString value
  | .float value => value.plainText
  | .char value => "'" ++ Text.escapeChar (Ascii.toChar value) ++ "'"
  | .identifier name => name
  | .string bytes => "\"" ++ Text.escapeBytes bytes ++ "\""

end Token

end Braced

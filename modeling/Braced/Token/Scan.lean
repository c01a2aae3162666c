import Braced.Diagnostic
import Braced.Lexicon

/-!
# Braced.Token.Scan

The tokens of a source (`Token.ofSource`).

A reader takes the source one byte at a time and sees one byte ahead
(`Reader.step`). Bytes of one class are gathered into a run, and a run is made
into tokens when a byte arrives that cannot go on with it: a run of letters into
a word, a run of digits into a number, a run of symbols into as many operators
as it holds. What a byte means depends on the reader's mode, which says what
comment or literal is open.

Reading stops at the first fault. A byte that no rule knows is no fault but a
token of its own.
-/

namespace Braced

/-! ## Runs -/

/-- The class of the bytes of a run. -/
inductive RunKind
  | word
  | number
  | symbol
  deriving DecidableEq, Repr

namespace RunKind

/-- The kind of run that a byte starts, if it is not blank. -/
def ofByte? (b : UInt8) : Option RunKind :=
  if Ascii.isDigit b then some number
  else if Ascii.isWordStart b then some word
  else if Ascii.isBlank b then none
  else some symbol

end RunKind

/-- A run in progress. -/
structure Run where
  kind : RunKind
  start : Position
  /-- The bytes gathered so far, the latest first. -/
  gathered : List UInt8
  deriving DecidableEq, Repr

namespace Run

/-- Whether the run goes on with byte `b`, when `next` follows it. A number
    takes one point, and only in front of a digit. -/
def accepts (r : Run) (b : UInt8) (next : Option UInt8) : Bool :=
  match r.kind with
  | .word => Ascii.isWordPart b
  | .number =>
    Ascii.isDigit b ||
      (b == Ascii.dot && !r.gathered.contains Ascii.dot && next.any Ascii.isDigit)
  | .symbol => RunKind.ofByte? b = some .symbol

/-- The largest integer constant. -/
def maxInt : Nat := 9223372036854775807

/-- The token of a word. Its length is checked before the keywords are looked
    up. -/
def wordToken (lx : Lexicon) (start : Position) (bytes : List UInt8) :
    Except Diagnostic Token :=
  let word := Ascii.text bytes
  if lx.identifierLimit < bytes.length then
    .error ⟨.identifierTooLong bytes.length lx.identifierLimit, start⟩
  else
    match lx.keyword? word with
    | some kind => .ok ⟨kind, .none, start⟩
    | none => .ok ⟨.identifier, .identifier word, start⟩

/-- The token of a number. One with a point is rounded to the nearest floating
    point number; one without has to be an integer constant exactly. -/
def numberToken (start : Position) (bytes : List UInt8) : Except Diagnostic Token :=
  let whole := bytes.takeWhile (· ≠ Ascii.dot)
  match bytes.dropWhile (· ≠ Ascii.dot) with
  | [] =>
    let value := Ascii.decimal whole
    if value ≤ maxInt then .ok ⟨.intConst, .int value, start⟩
    else .error ⟨.unreadableNumber (Ascii.text bytes), start⟩
  | _ :: fraction =>
    let value := Binary64.ofDecimal (Ascii.decimal (whole ++ fraction)) fraction.length
    .ok ⟨.floatConst, .float value, start⟩

/-- The tokens of a run of symbols: at each place the longest operator, or else
    the single byte. -/
def symbolTokens (lx : Lexicon) (start : Position) : List UInt8 → List Token
  | [] => []
  | b :: bytes =>
    match lx.longestOperator (b :: bytes) with
    | some (kind, n) =>
      ⟨kind, .none, start⟩ :: symbolTokens lx (start.right n) (bytes.drop (n - 1))
    | none => ⟨.ofByte b, .none, start⟩ :: symbolTokens lx (start.right 1) bytes
termination_by bytes => bytes.length
decreasing_by all_goals simp; try omega

/-- The tokens of a finished run. -/
def tokens (lx : Lexicon) (r : Run) : Except Diagnostic (List Token) :=
  let bytes := r.gathered.reverse
  match r.kind with
  | .word => (wordToken lx r.start bytes).map ([·])
  | .number => (numberToken r.start bytes).map ([·])
  | .symbol => .ok (symbolTokens lx r.start bytes)

end Run

/-- The tokens of the run in progress, if there is one. -/
def Run.close (lx : Lexicon) : Option Run → Except Diagnostic (List Token)
  | none => .ok []
  | some r => r.tokens lx

/-! ## Literals -/

/-- The byte that a letter after a backslash stands for. -/
def unescape (b : UInt8) : UInt8 :=
  match Ascii.toChar b with
  | 'n' => 10
  | 't' => 9
  | 'r' => 13
  | '0' => 0
  | _ => b

/-- How far a character literal has been read. -/
inductive CharStage
  /-- Its byte comes next. -/
  | value
  /-- The letter of its escape comes next. -/
  | escape
  /-- Its closing quote comes next. -/
  | close (value : UInt8)
  deriving DecidableEq, Repr

/-- What a string literal expects. -/
inductive StringStage
  /-- A byte of its content, or the closing quote. -/
  | plain
  /-- The letter of an escape. -/
  | escape
  /-- The first digit of a byte's hexadecimal value. -/
  | hex
  /-- The second digit, after one with the given value. -/
  | hexSecond (first : UInt8)
  deriving DecidableEq, Repr

/-- The content of a string literal, the latest byte first, and its stage, once
    the byte `b` has been read as content; nothing if `b` is the closing
    quote. -/
def StringStage.plainByte (content : List UInt8) (b : UInt8) : Option (List UInt8 × StringStage) :=
  if b = Ascii.doubleQuote then none
  else if b = Ascii.backslash then some (content, escape)
  else some (b :: content, plain)

/-- The content read before an escape's next byte turns out not to belong to it:
    one hexadecimal digit is a value, and with none the escape stands for its
    own two bytes. -/
def StringStage.settled (content : List UInt8) : StringStage → List UInt8
  | hex => Ascii.lowerX :: Ascii.backslash :: content
  | hexSecond first => first :: content
  | plain | escape => content

/-- One more byte of a string literal; nothing if it closes the literal. -/
def StringStage.step (content : List UInt8) (stage : StringStage) (b : UInt8) :
    Option (List UInt8 × StringStage) :=
  match stage, Ascii.hexValue? b with
  | escape, _ =>
    if b = Ascii.lowerX then some (content, hex) else some (unescape b :: content, plain)
  | hex, some value => some (content, hexSecond value)
  | hexSecond first, some value => some ((16 * first + value) :: content, plain)
  | stage, _ => plainByte (stage.settled content) b

/-! ## The reader -/

/-- What is open, which decides what a byte means. -/
inductive Mode
  /-- Neither a comment nor a literal, with the run in progress if there is
      one. -/
  | code (run : Option Run)
  /-- A comment that ends with its line. -/
  | lineComment
  /-- A bracketed comment, by the place where the outermost one opens, and how
      many are open. -/
  | blockComment (start : Position) (depth : UInt32)
  /-- A character literal, by the place of its quote. -/
  | char (start : Position) (stage : CharStage)
  /-- A string literal, by the place of its quote and its content so far, the
      latest byte first. -/
  | string (start : Position) (content : List UInt8) (stage : StringStage)
  deriving DecidableEq, Repr

namespace Mode

/-- Nothing is open. -/
def idle : Mode := code none

/-- That many comments are open. The count is of 32 bits, so a comment in which
    `2 ^ 32` are open counts as none. -/
def comments (start : Position) (depth : UInt32) : Mode :=
  if depth = 0 then idle else blockComment start depth

end Mode

/-- A reader between two bytes of a source. -/
structure Reader where
  mode : Mode
  /-- The place of the next byte. -/
  here : Position
  /-- The next byte is the second one of a comment bracket, and has had its
      effect with the first. -/
  passing : Bool
  /-- The tokens read so far, the latest first. -/
  read : List Token
  deriving DecidableEq, Repr

namespace Reader

/-- A reader in front of a source. -/
def start : Reader := ⟨.idle, .start, false, []⟩

/-- The reader after byte `b`, in a given mode, with the tokens that `b` has
    completed. -/
def next (r : Reader) (b : UInt8) (mode : Mode) (tokens : List Token) : Reader :=
  { r with mode, here := r.here.after b, read := tokens.reverse ++ r.read }

/-- Like `next`, when `b` and the byte after it form a comment bracket. -/
def nextBracket (r : Reader) (b : UInt8) (mode : Mode) (tokens : List Token) : Reader :=
  { r.next b mode tokens with passing := true }

/-- A byte outside of comments and literals. Where it has more than one possible
    meaning the earlier test wins: comments before literals, literals before
    runs. What opens a comment or a literal closes the run in progress first, so
    a fault in the run is the one reported. -/
def codeStep (lx : Lexicon) (r : Reader) (run : Option Run) (b : UInt8) (ahead : Option UInt8) :
    Except Diagnostic Reader :=
  if b = Ascii.openBrace ∧ ahead = some Ascii.dash then
    (Run.close lx run).map (r.nextBracket b (.blockComment r.here 1))
  else if b = Ascii.slash ∧ ahead = some Ascii.slash then
    (Run.close lx run).map (r.next b .lineComment)
  else if b = Ascii.singleQuote then
    (Run.close lx run).map (r.next b (.char r.here .value))
  else if b = Ascii.doubleQuote then
    (Run.close lx run).map (r.next b (.string r.here [] .plain))
  else
    match RunKind.ofByte? b, run with
    | none, _ => (Run.close lx run).map (r.next b .idle)
    | some kind, none => .ok (r.next b (.code (some ⟨kind, r.here, [b]⟩)) [])
    | some kind, some current =>
      if current.accepts b ahead then
        .ok (r.next b (.code (some { current with gathered := b :: current.gathered })) [])
      else (current.tokens lx).map (r.next b (.code (some ⟨kind, r.here, [b]⟩)))

/-- A byte inside a bracketed comment, where brackets nest. -/
def commentStep (r : Reader) (start : Position) (depth : UInt32) (b : UInt8)
    (ahead : Option UInt8) : Reader :=
  if b = Ascii.openBrace ∧ ahead = some Ascii.dash then
    r.nextBracket b (.comments start (depth + 1)) []
  else if b = Ascii.dash ∧ ahead = some Ascii.closeBrace then
    r.nextBracket b (.comments start (depth - 1)) []
  else r.next b (.blockComment start depth) []

/-- A byte inside a character literal, which has to be closed on its line. -/
def charStep (r : Reader) (start : Position) (stage : CharStage) (b : UInt8) :
    Except Diagnostic Reader :=
  match stage with
  | .close value =>
    if b = Ascii.singleQuote then
      .ok (r.next b .idle [⟨.charConst, .char value, start⟩])
    else .error ⟨.unterminatedChar, start⟩
  | .value =>
    if b = Ascii.newline then .error ⟨.unterminatedChar, start⟩
    else if b = Ascii.backslash then .ok (r.next b (.char start .escape) [])
    else .ok (r.next b (.char start (.close b)) [])
  | .escape =>
    if b = Ascii.newline then .error ⟨.unterminatedChar, start⟩
    else .ok (r.next b (.char start (.close (unescape b))) [])

/-- A byte inside a string literal, which may go over several lines. -/
def stringStep (r : Reader) (start : Position) (content : List UInt8) (stage : StringStage)
    (b : UInt8) : Reader :=
  match stage.step content b with
  | some (content', stage') => r.next b (.string start content' stage') []
  | none => r.next b .idle [⟨.stringConst, .string (stage.settled content).reverse, start⟩]

/-- The effect of a byte, when `ahead` follows it. -/
def step (lx : Lexicon) (r : Reader) (b : UInt8) (ahead : Option UInt8) :
    Except Diagnostic Reader :=
  if r.passing then .ok { r with here := r.here.after b, passing := false }
  else
    match r.mode with
    | .code run => r.codeStep lx run b ahead
    | .lineComment => .ok (r.next b (if b = Ascii.newline then .idle else .lineComment) [])
    | .blockComment start depth => .ok (r.commentStep start depth b ahead)
    | .char start stage => r.charStep start stage b
    | .string start content stage => .ok (r.stringStep start content stage b)

/-- Reads all of `bs`. -/
def readAll (lx : Lexicon) (r : Reader) : List UInt8 → Except Diagnostic Reader
  | [] => .ok r
  | b :: bs =>
    match r.step lx b bs.head? with
    | .ok r' => r'.readAll lx bs
    | .error d => .error d

/-- The tokens read, and one more for the end of the source. What is open then,
    a comment or a literal, is a fault at the place where it opens. -/
def finish (lx : Lexicon) (r : Reader) : Except Diagnostic (List Token) :=
  match r.mode with
  | .code run =>
    (Run.close lx run).map fun tokens => r.read.reverse ++ tokens ++ [⟨.eof, .none, r.here⟩]
  | .lineComment => .ok (r.read.reverse ++ [⟨.eof, .none, r.here⟩])
  | .blockComment start _ => .error ⟨.unterminatedComment, start⟩
  | .char start _ => .error ⟨.unterminatedChar, start⟩
  | .string start _ _ => .error ⟨.unterminatedString, start⟩

end Reader

/-- The tokens of a source, the last of which marks its end, or the first fault
    in it. -/
def Token.ofSource (lx : Lexicon) (source : List UInt8) : Except Diagnostic (List Token) :=
  match Reader.start.readAll lx source with
  | .ok r => r.finish lx
  | .error d => .error d

end Braced

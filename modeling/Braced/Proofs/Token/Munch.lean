import Braced.Token.Scan
import Mathlib.Algebra.Group.Nat.Defs

/-!
# Braced.Proofs.Token.Munch

Reading tokens directly, at each place as many bytes as belong together.

`Munch.itemAt` says what begins at a byte and how many of the bytes behind it
belong to it, and `Munch.scan` reads one such item after the other.  There is no
state between two items but the number of bytes that have been passed, so places
are numbers of bytes here; `Munch.located` turns them into lines and columns.

Comments nest without a limit here, while a reader counts the open ones in 32 bits.
`Munch.nesting` is the largest number of them that are open at once.
-/

namespace Braced.Munch

/-- What begins at a byte. The number says how many more bytes belong to it. -/
inductive Item
  /-- Something that is no token: a blank or a comment. -/
  | gap (more : Nat)
  | token (kind : TokenKind) (value : TokenValue) (more : Nat)
  | fault (fault : Fault)
  deriving DecidableEq, Repr

/-! ## Comments and literals -/

/-- How many bytes are left of a comment, with the bracket that closes it, when
`inner` more comments are open inside of it. -/
def commentLength (inner : Nat) : List UInt8 → Option Nat
  | [] => none
  | b :: bs =>
    if b = Ascii.openBrace ∧ bs.head? = some Ascii.dash then
      (commentLength (inner + 1) bs.tail).map (2 + ·)
    else if b = Ascii.dash ∧ bs.head? = some Ascii.closeBrace then
      match inner with
      | 0 => some 2
      | inner + 1 => (commentLength inner bs.tail).map (2 + ·)
    else (commentLength inner bs).map (1 + ·)
termination_by bs => bs.length
decreasing_by all_goals simp; try omega

/-- How many comments are open at once, at most, up to the bracket that closes the
first of them, when `inner` more are open inside of it. -/
def commentDepth (inner : Nat) : List UInt8 → Nat
  | [] => inner + 1
  | b :: bs =>
    if b = Ascii.openBrace ∧ bs.head? = some Ascii.dash then
      commentDepth (inner + 1) bs.tail
    else if b = Ascii.dash ∧ bs.head? = some Ascii.closeBrace then
      match inner with
      | 0 => 1
      | inner + 1 => max (inner + 2) (commentDepth inner bs.tail)
    else commentDepth inner bs
termination_by bs => bs.length
decreasing_by all_goals simp; try omega

theorem commentDepth_open {inner : Nat} {b : UInt8} {bs : List UInt8}
    (h : b = Ascii.openBrace ∧ bs.head? = some Ascii.dash) :
    commentDepth inner (b :: bs) = commentDepth (inner + 1) bs.tail := by
  cases inner <;> rw [commentDepth, if_pos h]

theorem commentDepth_inside {inner : Nat} {b : UInt8} {bs : List UInt8}
    (hopen : ¬ (b = Ascii.openBrace ∧ bs.head? = some Ascii.dash))
    (hclose : ¬ (b = Ascii.dash ∧ bs.head? = some Ascii.closeBrace)) :
    commentDepth inner (b :: bs) = commentDepth inner bs := by
  cases inner <;> rw [commentDepth, if_neg hopen, if_neg hclose]

theorem lt_commentDepth (inner : Nat) (bs : List UInt8) : inner < commentDepth inner bs := by
  fun_induction commentDepth inner bs <;> omega

/-- A comment takes two bytes for each of those that are open at once. -/
theorem commentDepth_le (inner : Nat) (bs : List UInt8) :
    2 * commentDepth inner bs ≤ 2 * (inner + 1) + bs.length := by
  fun_induction commentDepth inner bs with
  | case1 inner => exact Nat.le_add_right ..
  | case2 inner b bs hopen ih =>
    obtain ⟨bs, rfl⟩ := List.head?_eq_some_iff.mp hopen.2
    simp only [List.tail_cons, List.length_cons] at ih ⊢
    omega
  | case3 b bs hopen hclose => simp
  | case4 b bs hopen hclose inner ih =>
    simp only [List.length_tail, List.length_cons] at ih ⊢
    omega
  | case5 inner b bs hopen hclose ih =>
    rw [List.length_cons]
    omega

/-- The byte that a character literal stands for, by the bytes behind its quote,
and how many of these belong to it. -/
def charLiteral : List UInt8 → Option (UInt8 × Nat)
  | [] => none
  | b :: bs =>
    if b = Ascii.newline then none
    else if b = Ascii.backslash then
      match bs with
      | c :: close :: _ =>
        if c ≠ Ascii.newline ∧ close = Ascii.singleQuote then some (unescape c, 3) else none
      | _ => none
    else if bs.head? = some Ascii.singleQuote then some (b, 2)
    else none

/-- The number that some hexadecimal digits denote. -/
def hexadecimal (digits : List UInt8) : UInt8 :=
  digits.foldl (fun value digit => 16 * value + (hexValue digit)) 0
where
  /-- The value of a digit, and zero for a byte that is none. -/
  hexValue (digit : UInt8) : UInt8 := (Ascii.hexValue? digit).getD 0

/-- The hexadecimal digits at the front, two of them at most. -/
def hexDigits (bs : List UInt8) : List UInt8 :=
  (bs.take 2).takeWhile fun digit => (Ascii.hexValue? digit).isSome

/-- What an escape stands for, by the bytes behind its backslash, and how many of
these belong to it.  An `x` takes up to two hexadecimal digits, and without any it
stands for itself with the backslash. -/
def escape : List UInt8 → List UInt8 × Nat
  | [] => ([], 0)
  | b :: bs =>
    if b = Ascii.lowerX then
      match hexDigits bs with
      | [] => ([Ascii.backslash, Ascii.lowerX], 1)
      | digits => ([hexadecimal digits], 1 + digits.length)
    else ([unescape b], 1)

/-- The content of a string literal, by the bytes behind its quote, and how many
of these belong to it. -/
def stringLiteral : List UInt8 → Option (List UInt8 × Nat)
  | [] => none
  | b :: bs =>
    if b = Ascii.doubleQuote then some ([], 1)
    else if b = Ascii.backslash then
      (stringLiteral (bs.drop (escape bs).2)).map fun (content, n) =>
        ((escape bs).1 ++ content, 1 + (escape bs).2 + n)
    else (stringLiteral bs).map fun (content, n) => (b :: content, 1 + n)
termination_by bs => bs.length
decreasing_by all_goals simp; try omega

/-! ## Words and numbers -/

/-- A word, which is too long, a keyword or an identifier. -/
def wordItem (lx : Lexicon) (bytes : List UInt8) : Item :=
  if lx.identifierLimit < bytes.length then
    .fault (.identifierTooLong bytes.length lx.identifierLimit)
  else
    match lx.keyword? (Ascii.text bytes) with
    | some kind => .token kind .none (bytes.length - 1)
    | none => .token .identifier (.identifier (Ascii.text bytes)) (bytes.length - 1)

/-- The digits behind a point, if a digit follows the point. -/
def fractionOf : List UInt8 → Option (List UInt8)
  | point :: bs =>
    if point = Ascii.dot ∧ bs.head?.any Ascii.isDigit then some (bs.takeWhile Ascii.isDigit)
    else none
  | [] => none

/-- The digits at the front, with a point and the digits behind it if there are any. -/
def numeral (bs : List UInt8) : List UInt8 :=
  bs.takeWhile Ascii.isDigit ++ (fractionOf (bs.dropWhile Ascii.isDigit)).elim [] (Ascii.dot :: ·)

/-- A number that begins with some digits, in front of the given bytes. -/
def numberItem (digits bs : List UInt8) : Item :=
  match fractionOf bs with
  | none =>
    if Ascii.decimal digits ≤ Run.maxInt then
      .token .intConst (.int (Ascii.decimal digits)) (digits.length - 1)
    else .fault (.unreadableNumber (Ascii.text digits))
  | some fraction =>
    .token .floatConst
      (.float (Binary64.ofDecimal (Ascii.decimal (digits ++ fraction)) fraction.length))
      (digits.length + fraction.length)

/-! ## Operators -/

/-- The longest entry of a table that is not empty and that `text` starts with, as its
kind and its length. Of two entries for the same text the first one counts. -/
def longestIn (text : List UInt8) : List (List UInt8 × TokenKind) → Option (TokenKind × Nat)
  | [] => none
  | (key, kind) :: table =>
    let later := longestIn text table
    if key ≠ [] ∧ key.isPrefixOf text ∧ later.all (·.2 ≤ key.length) then
      some (kind, key.length)
    else later

/-- Whether a literal or a comment opens with byte `b`, when `ahead` follows it. -/
def opens (b : UInt8) (ahead : Option UInt8) : Bool :=
  b = Ascii.singleQuote || b = Ascii.doubleQuote || (b = Ascii.slash && ahead = some Ascii.slash) ||
    (b = Ascii.openBrace && ahead = some Ascii.dash)

/-- Whether an operator ends in front of these bytes at the latest: in front of a
blank, a letter, a digit, an underscore, a quote or a comment. -/
def stops : List UInt8 → Bool
  | [] => true
  | b :: bs => Ascii.isBlank b || Ascii.isWordPart b || opens b bs.head?

/-- The bytes up to the next place where an operator has to end. -/
def symbols : List UInt8 → List UInt8
  | [] => []
  | b :: bs => if stops (b :: bs) then [] else b :: symbols bs

/-- The longest operator, or else the single byte. -/
def operatorItem (lx : Lexicon) (b : UInt8) (bs : List UInt8) : Item :=
  match longestIn (symbols (b :: bs)) lx.operators with
  | some (kind, n) => .token kind .none (n - 1)
  | none => .token (.ofByte b) .none 0

/-! ## The scanner -/

/-- What begins at byte `b` in front of `bs`. -/
def itemAt (lx : Lexicon) (b : UInt8) (bs : List UInt8) : Item :=
  if Ascii.isBlank b then .gap 0
  else if b = Ascii.slash ∧ bs.head? = some Ascii.slash then
    .gap (bs.takeWhile (· ≠ Ascii.newline)).length
  else if b = Ascii.openBrace ∧ bs.head? = some Ascii.dash then
    match commentLength 0 bs.tail with
    | some n => .gap (1 + n)
    | none => .fault .unterminatedComment
  else if b = Ascii.singleQuote then
    match charLiteral bs with
    | some (value, n) => .token .charConst (.char value) n
    | none => .fault .unterminatedChar
  else if b = Ascii.doubleQuote then
    match stringLiteral bs with
    | some (content, n) => .token .stringConst (.string content) n
    | none => .fault .unterminatedString
  else if Ascii.isDigit b then
    numberItem (b :: bs.takeWhile Ascii.isDigit) (bs.dropWhile Ascii.isDigit)
  else if Ascii.isWordStart b then wordItem lx (b :: bs.takeWhile Ascii.isWordPart)
  else operatorItem lx b bs

/-- A token with the number of bytes in front of it. -/
structure Lexeme where
  kind : TokenKind
  value : TokenValue
  offset : Nat
  deriving DecidableEq, Repr

/-- The tokens of the last bytes of a source of `length` bytes, or the first fault in
them with the number of bytes in front of it. -/
def scan (lx : Lexicon) (length : Nat) : List UInt8 → Except (Fault × Nat) (List Lexeme)
  | [] => .ok [⟨.eof, .none, length⟩]
  | b :: bs =>
    let offset := length - (b :: bs).length
    match itemAt lx b bs with
    | .gap more => scan lx length (bs.drop more)
    | .token kind value more =>
      (scan lx length (bs.drop more)).map (⟨kind, value, offset⟩ :: ·)
    | .fault fault => .error (fault, offset)
termination_by bs => bs.length
decreasing_by all_goals simp; try omega

section

variable {lx : Lexicon} {b : UInt8} {bs : List UInt8}

theorem scan_of_gap {more : Nat} (h : itemAt lx b bs = .gap more) (length : Nat) :
    scan lx length (b :: bs) = scan lx length (bs.drop more) := by
  rw [scan, h]

/-- What begins at a blank is passed over. -/
theorem itemAt_of_isBlank (h : Ascii.isBlank b) : itemAt lx b bs = .gap 0 :=
  if_pos h

theorem scan_of_isBlank (h : Ascii.isBlank b) (length : Nat) :
    scan lx length (b :: bs) = scan lx length bs :=
  scan_of_gap (itemAt_of_isBlank h) length

theorem scan_of_token {kind : TokenKind} {value : TokenValue} {more : Nat}
    (h : itemAt lx b bs = .token kind value more) (length : Nat) :
    scan lx length (b :: bs) = (scan lx length (bs.drop more)).map
      (⟨kind, value, length - (b :: bs).length⟩ :: ·) := by
  rw [scan, h]

theorem scan_of_fault {fault : Fault} (h : itemAt lx b bs = .fault fault) (length : Nat) :
    scan lx length (b :: bs) = .error (fault, length - (b :: bs).length) := by
  rw [scan, h]

end

/-- How many comments are open at once, at most, in one that opens at byte `b`. -/
def depthAt (b : UInt8) (bs : List UInt8) : Nat :=
  if b = Ascii.openBrace ∧ bs.head? = some Ascii.dash then commentDepth 0 bs.tail else 0

/-- How many comments are open at once, at most, in what is scanned. -/
def nesting (lx : Lexicon) : List UInt8 → Nat
  | [] => 0
  | b :: bs =>
    match itemAt lx b bs with
    | .gap more => max (depthAt b bs) (nesting lx (bs.drop more))
    | .token _ _ more => nesting lx (bs.drop more)
    | .fault _ => depthAt b bs
termination_by bs => bs.length
decreasing_by all_goals simp; try omega

section

variable {lx : Lexicon} {b : UInt8} {bs : List UInt8}

theorem nesting_of_gap {more : Nat} (h : itemAt lx b bs = .gap more) :
    nesting lx (b :: bs) = max (depthAt b bs) (nesting lx (bs.drop more)) := by
  rw [nesting, h]

theorem nesting_of_isBlank (h : Ascii.isBlank b) : nesting lx (b :: bs) = nesting lx bs := by
  have hdepth : depthAt b bs = 0 := by
    refine if_neg fun hopen => ?_
    rw [hopen.1] at h
    cases h
  rw [nesting_of_gap (itemAt_of_isBlank h), hdepth, Nat.zero_max, List.drop_zero]

theorem nesting_of_token {kind : TokenKind} {value : TokenValue} {more : Nat}
    (h : itemAt lx b bs = .token kind value more) :
    nesting lx (b :: bs) = nesting lx (bs.drop more) := by
  rw [nesting, h]

theorem nesting_of_fault {fault : Fault} (h : itemAt lx b bs = .fault fault) :
    nesting lx (b :: bs) = depthAt b bs := by
  rw [nesting, h]

theorem depthAt_of_token {kind : TokenKind} {value : TokenValue} {more : Nat}
    (h : itemAt lx b bs = .token kind value more) : depthAt b bs = 0 := by
  refine if_neg fun hopen => ?_
  obtain ⟨rfl, hahead⟩ := hopen
  rw [itemAt, if_neg (by decide), if_neg (by simp [Ascii.openBrace, Ascii.slash]),
    if_pos ⟨rfl, hahead⟩] at h
  split at h <;> cases h

theorem depthAt_le (b : UInt8) (bs : List UInt8) : 2 * depthAt b bs ≤ (b :: bs).length := by
  unfold depthAt
  split
  · next hopen =>
    obtain ⟨bs, rfl⟩ := List.head?_eq_some_iff.mp hopen.2
    have hdepth := commentDepth_le 0 bs
    simp only [List.tail_cons, List.length_cons]
    omega
  · exact Nat.zero_le _

/-- A source has two bytes for each comment that is open at once. -/
theorem nesting_le (lx : Lexicon) (bs : List UInt8) : 2 * nesting lx bs ≤ bs.length := by
  induction bs using nesting.induct lx with
  | case1 => simp [nesting]
  | case2 b bs more hitem ih =>
    have hdepth := depthAt_le b bs
    rw [nesting_of_gap hitem]
    rw [List.length_drop] at ih
    rw [List.length_cons] at hdepth ⊢
    omega
  | case3 b bs kind value more hitem ih =>
    rw [nesting_of_token hitem]
    rw [List.length_drop] at ih
    rw [List.length_cons]
    omega
  | case4 b bs fault hitem =>
    rw [nesting_of_fault hitem]
    exact depthAt_le b bs

theorem nesting_lt (lx : Lexicon) (h : bs.length < 2 ^ 33) : nesting lx bs < 2 ^ 32 := by
  have hle := nesting_le lx bs
  omega

end

/-- The numbers of bytes that tokens have in front of them, or a fault has. -/
def offsets : Except (Fault × Nat) (List Lexeme) → List Nat
  | .ok lexemes => lexemes.map (·.offset)
  | .error (_, offset) => [offset]

/-! ## Places -/

/-- The place in a source that has `offset` bytes in front of it. -/
def placeOf (source : List UInt8) (offset : Nat) : Position :=
  Position.start.afterAll (source.take offset)

/-- What was read of a source, with lines and columns. -/
def located (source : List UInt8) :
    Except (Fault × Nat) (List Lexeme) → Except Diagnostic (List Token)
  | .ok lexemes => .ok (lexemes.map fun l => ⟨l.kind, l.value, placeOf source l.offset⟩)
  | .error (fault, offset) => .error ⟨fault, placeOf source offset⟩

end Braced.Munch

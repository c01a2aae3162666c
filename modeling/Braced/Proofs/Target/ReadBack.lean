import Braced.Proofs.Target.Literal
import Braced.Proofs.Target.Shape

/-!
# Braced.Proofs.Target.ReadBack

Statements can be read back from their text.

`readShape` and `readStmts` read what `Shape.write` and `StmtShape.writeAll` write.  They
look at what stands at the front of a text only: an operator in front of an operand ends
with a parenthesis, an operator between operands has spaces around it, and an operand is
told by its first character.  What is written reads back as what it was written for, with
the text behind it (`readShape_write`, `readStmts_write`), so no two lists of statements
have the same text (`StmtShape.writeAll_inj`).
-/

namespace Braced.Target

/-! ## What stands at the front of a text -/

/-- What is behind some characters. -/
def after? : List Char → List Char → Option (List Char)
  | [], cs => some cs
  | _ :: _, [] => none
  | m :: ms, c :: cs => if m = c then after? ms cs else none

@[simp] theorem after?_append (mark rest : List Char) : after? mark (mark ++ rest) = some rest := by
  induction mark with
  | nil => rfl
  | cons m ms ih => simpa [after?] using ih

/-- The word at the front of a text, and what is behind it. -/
def wordRun (cs : List Char) : List Char × List Char :=
  (cs.takeWhile isWordChar, cs.dropWhile isWordChar)

/-- The numeral at the front of a text that follows a character, and what is behind it. -/
def numeralRun (before : Char) : List Char → List Char × List Char
  | [] => ([], [])
  | c :: cs =>
    if numeralGoesOn before c then (c :: (numeralRun c cs).1, (numeralRun c cs).2)
    else ([], c :: cs)

/-- The text does not go on with the word or the numeral in front of it, nor with
arguments. -/
def EndsOperand (rest : List Char) : Prop :=
  ∀ c ∈ rest.head?, isWordChar c = false ∧ c ≠ '.' ∧ c ≠ '('

theorem wordRun_append {word rest : List Char} (hword : word.all isWordChar = true)
    (hrest : ∀ c ∈ rest.head?, isWordChar c = false) : wordRun (word ++ rest) = (word, rest) := by
  have hall : ∀ c ∈ word, isWordChar c = true := List.all_eq_true.mp hword
  rw [wordRun, List.takeWhile_append_of_pos hall, List.dropWhile_append_of_pos hall]
  cases rest with
  | nil => simp
  | cons c rest => simp [hrest c rfl]

theorem numeralRun_append {rest : List Char} (hrest : EndsOperand rest) :
    ∀ {before : Char} {cs : List Char}, isNumeral before cs = true →
      numeralRun before (cs ++ rest) = (cs, rest)
  | before, [], h => by
    cases rest with
    | nil => rfl
    | cons c rest =>
      obtain ⟨hword, hpoint, -⟩ := hrest c rfl
      have halpha : c.isAlphanum = false := (Bool.or_eq_false_iff.mp hword).1
      have hbefore : before ≠ 'e' := by simpa using (Bool.and_eq_true_iff.mp h).2
      simp [numeralRun, numeralGoesOn, halpha, hpoint, hbefore]
  | before, c :: cs, h => by
    obtain ⟨hc, hcs⟩ := Bool.and_eq_true_iff.mp h
    rw [List.cons_append, numeralRun, if_pos hc, numeralRun_append hrest hcs]

/-! ## Operators -/

/-- The operator in front of an operand, with its parenthesis. -/
def unaryOp? : List Char → Option (UnaryOp × List Char)
  | '(' :: cs => some (.nested, cs)
  | '+' :: '+' :: '(' :: cs => some (.increment, cs)
  | '-' :: '-' :: '(' :: cs => some (.decrement, cs)
  | '*' :: '(' :: cs => some (.deref, cs)
  | '&' :: '(' :: cs => some (.addressOf, cs)
  | '-' :: '(' :: cs => some (.negate, cs)
  | _ => none

/-- The operator between two operands, with the space behind it. -/
def binaryOp? : List Char → Option (BinaryOp × List Char)
  | '+' :: ' ' :: cs => some (.add, cs)
  | '-' :: ' ' :: cs => some (.subtract, cs)
  | '*' :: ' ' :: cs => some (.multiply, cs)
  | '/' :: ' ' :: cs => some (.divide, cs)
  | '%' :: ' ' :: cs => some (.modulo, cs)
  | '=' :: '=' :: ' ' :: cs => some (.equals, cs)
  | '!' :: '=' :: ' ' :: cs => some (.notEquals, cs)
  | '<' :: ' ' :: cs => some (.less, cs)
  | '>' :: ' ' :: cs => some (.greater, cs)
  | '<' :: '=' :: ' ' :: cs => some (.lessEquals, cs)
  | '>' :: '=' :: ' ' :: cs => some (.greaterEquals, cs)
  | _ => none

/-- The operator behind an operand, if there is one. -/
def readStep : List Char → Option Step × List Char
  | '+' :: '+' :: cs => (some .increment, cs)
  | '-' :: '-' :: cs => (some .decrement, cs)
  | cs => (none, cs)

theorem unaryOp?_text (op : UnaryOp) (rest : List Char) :
    unaryOp? ((unaryText op).toList ++ '(' :: rest) = some (op, rest) := by
  cases op <;> rfl

theorem binaryOp?_symbol (op : BinaryOp) (rest : List Char) :
    binaryOp? (op.symbol.toList ++ ' ' :: rest) = some (op, rest) := by
  cases op <;> rfl

/-- The text goes on with what can stand behind an expression. -/
def EndsShape (rest : List Char) : Prop :=
  ∃ c cs, rest = c :: cs ∧ c ∈ [')', ' ', ',', ';']

theorem readStep_stepChars (step : Option Step) {rest : List Char} (h : EndsShape rest) :
    readStep (stepChars step ++ rest) = (step, rest) := by
  cases step with
  | none =>
    obtain ⟨c, cs, rfl, hc⟩ := h
    simp only [List.mem_cons, List.not_mem_nil, or_false] at hc
    rcases hc with rfl | rfl | rfl | rfl <;> rfl
  | some step => cases step <;> rfl

theorem endsOperand_stepChars (step : Option Step) {rest : List Char} (h : EndsShape rest) :
    EndsOperand (stepChars step ++ rest) := by
  cases step with
  | none =>
    obtain ⟨c, cs, rfl, hc⟩ := h
    simp only [List.mem_cons, List.not_mem_nil, or_false] at hc
    rcases hc with rfl | rfl | rfl | rfl <;> simp [EndsOperand, stepChars] <;> decide
  | some step =>
    cases step <;> simp [EndsOperand, stepChars, stepText] <;> decide

/-! ## Reading expressions -/

/-- The integer that a sign and digits denote. -/
def intOfChars : List Char → Int
  | '-' :: digits => -(Nat.ofDigitChars 10 digits 0)
  | digits => Nat.ofDigitChars 10 digits 0

/-- Reads a number. -/
def readNumber (cs : List Char) : Option (Operand × List Char) :=
  let (text, rest) := numeralRun 'e' cs
  if text.all isIntChar then some (.int (intOfChars text), rest)
  else if h : isFraction text then some (.float ⟨text, h⟩, rest)
  else none

/-- Reads a name that the program gives. -/
def readName (cs : List Char) : Option (Word × List Char) := do
  let (text, rest) := wordRun (← after? ['s', 'c', '_'] cs)
  if h : text.all isWordChar then some (⟨text, h⟩, rest) else none

/-- What a word is that no arguments follow. -/
def wordOperand? (word : List Char) : Option Operand :=
  match after? ['s', 'c', '_'] word with
  | some name => if h : name.all isWordChar then some (.name ⟨name, h⟩) else none
  | none => if h : isFraction word then some (.float ⟨word, h⟩) else none

mutual

/-- Reads an expression; `fuel` bounds how large it is. -/
def readShape : (fuel : Nat) → List Char → Option (Shape × List Char)
  | 0, _ => none
  | fuel + 1, cs =>
    match unaryOp? cs with
    | some (op, cs) => do
      let (operand, cs) ← readShape fuel cs
      match op, cs with
      | op, ')' :: cs => some (.unary op operand, cs)
      | .nested, ' ' :: cs =>
        let (op, cs) ← binaryOp? cs
        let (right, cs) ← readShape fuel cs
        let cs ← after? [')'] cs
        some (.binary op operand right, cs)
      | _, _ => none
    | none => do
      let (value, cs) ← readOperand fuel cs
      let (step, cs) := readStep cs
      some (.operand value step, cs)

/-- Reads an operand. -/
def readOperand : (fuel : Nat) → List Char → Option (Operand × List Char)
  | 0, _ => none
  | fuel + 1, cs =>
    match cs with
    | '\'' :: cs => do
      let (value, cs) ← Literal.readByte '\'' cs
      let cs ← after? ['\''] cs
      some (.char value, cs)
    | '"' :: cs => do
      let (bytes, cs) ← Literal.readBytes '"' cs.length cs
      some (.string bytes, cs)
    | cs =>
      if startsNumeral cs then readNumber cs
      else
        match wordRun cs with
        | (word, '(' :: cs) => do
          let (arguments, cs) ← readArguments fuel cs
          let cs ← after? [')'] cs
          if h : isLabel word then some (.call ⟨word, h⟩ arguments, cs) else none
        | (word, cs) => (wordOperand? word).map fun value => (value, cs)

/-- Reads expressions with commas between them, up to a parenthesis. -/
def readArguments : (fuel : Nat) → List Char → Option (List Shape × List Char)
  | 0, _ => none
  | fuel + 1, cs =>
    if cs.head? = some ')' then some ([], cs)
    else do
      let (e, cs) ← readShape fuel cs
      let (es, cs) ← readEach [',', ' '] fuel cs
      some (e :: es, cs)

/-- Reads expressions as long as the same text is in front of each. -/
def readEach (mark : List Char) : (fuel : Nat) → List Char → Option (List Shape × List Char)
  | 0, _ => none
  | fuel + 1, cs =>
    match after? mark cs with
    | none => some ([], cs)
    | some cs => do
      let (e, cs) ← readShape fuel cs
      let (es, cs) ← readEach mark fuel cs
      some (e :: es, cs)

end

/-! ### What is written is read -/

/-- Digits are a numeral. -/
theorem isNumeral_digits : ∀ {before : Char} {cs : List Char}, (∀ c ∈ cs, c.isDigit = true) →
    before.isDigit = true ∨ cs ≠ [] → isNumeral before cs = true
  | before, [], _, h => by
    have hdigit : before.isDigit = true := by simpa using h
    have hne : before ≠ 'e' := by
      rintro rfl
      cases hdigit
    simp [isNumeral, Char.isAlphanum, hdigit, hne]
  | before, c :: cs, hall, _ => by
    have hc := hall c (List.mem_cons_self ..)
    have hcs : isNumeral c cs = true :=
      isNumeral_digits (fun d hd => hall d (List.mem_cons_of_mem _ hd)) (.inl hc)
    simp [isNumeral, numeralGoesOn, Char.isAlphanum, hc, hcs]

/-- What is written for an integer is read as the integer. -/
theorem toList_toString_int (value : Int) : ∃ c cs, (toString value).toList = c :: cs ∧
    isNumeral 'e' (c :: cs) = true ∧ (c :: cs).all isIntChar = true ∧
    intOfChars (c :: cs) = value := by
  have hdigits : ∀ n : Nat, ∀ c ∈ Nat.toDigits 10 n, c.isDigit = true :=
    fun n c hc => Nat.isDigit_of_mem_toDigits (by omega) (by omega) hc
  have hints : ∀ n : Nat, (Nat.toDigits 10 n).all isIntChar = true := fun n =>
    List.all_eq_true.mpr fun c hc => by simp [isIntChar, hdigits n c hc]
  have hnumeral : ∀ {before : Char} (n : Nat), isNumeral before (Nat.toDigits 10 n) = true :=
    fun n => isNumeral_digits (hdigits n) (.inr Nat.toDigits_ne_nil)
  cases value with
  | ofNat n =>
    obtain ⟨c, cs, hcs⟩ := List.exists_cons_of_ne_nil (Nat.toDigits_ne_nil (n := n) (b := 10))
    refine ⟨c, cs, ?_, hcs ▸ hnumeral n, hcs ▸ hints n, ?_⟩
    · rw [← hcs]
      exact String.toList_ofList
    · have hdash : c ≠ '-' := by
        rintro rfl
        have := hdigits n '-' (hcs ▸ List.mem_cons_self ..)
        cases this
      rw [intOfChars, ← hcs, Nat.ofDigitChars_ten_toDigits]
      · rfl
      · rintro digits hdigits
        exact hdash (List.cons.inj hdigits).1
  | negSucc n =>
    refine ⟨'-', Nat.toDigits 10 (n + 1), ?_, ?_, ?_, ?_⟩
    · change ("-" ++ Nat.repr (n + 1)).toList = _
      simp [Nat.repr_eq_ofList_toDigits]
    · simp [isNumeral, numeralGoesOn, hnumeral]
    · rw [List.all_cons, hints]
      rfl
    · rw [intOfChars, Nat.ofDigitChars_ten_toDigits]
      rfl

variable {rest : List Char}

theorem readNumber_int (value : Int) (hrest : EndsOperand rest) :
    readNumber ((toString value).toList ++ rest) = some (.int value, rest) := by
  obtain ⟨c, cs, htext, hnumeral, hints, hvalue⟩ := toList_toString_int value
  rw [htext, readNumber, numeralRun_append hrest hnumeral]
  simp only [hints, if_true, hvalue]

/-- A fraction is a word, or a numeral. -/
theorem Fraction.cases (x : Fraction) : x.chars = ['i', 'n', 'f'] ∨ x.chars = ['N', 'a', 'N'] ∨
    startsNumeral x.chars = true ∧ isNumeral 'e' x.chars = true ∧
      x.chars.all isIntChar = false := by
  have h := x.isFraction
  simpa [Target.isFraction, or_assoc, and_assoc] using h

theorem readNumber_fraction (x : Fraction) (hnumeral : isNumeral 'e' x.chars = true)
    (hints : x.chars.all isIntChar = false) (hrest : EndsOperand rest) :
    readNumber (x.chars ++ rest) = some (.float x, rest) := by
  rw [readNumber, numeralRun_append hrest hnumeral]
  simp [hints, x.isFraction]

theorem ne_of_isWordChar {c d : Char} (hc : isWordChar c = true) (hd : isWordChar d = false) :
    c ≠ d := by
  rintro rfl
  rw [hc] at hd
  cases hd

/-- A word begins none of the other operands. -/
theorem readOperand_word {c : Char} {cs : List Char} (hc : isWordChar c = true)
    (hdigit : c.isDigit = false) (fuel : Nat) :
    readOperand (fuel + 1) (c :: cs) =
      match wordRun (c :: cs) with
      | (word, '(' :: cs) => do
        let (arguments, cs) ← readArguments fuel cs
        let cs ← after? [')'] cs
        if h : isLabel word then some (.call ⟨word, h⟩ arguments, cs) else none
      | (word, cs) => (wordOperand? word).map fun value => (value, cs) := by
  have hint : isIntChar c = false := by
    simp [isIntChar, hdigit, ne_of_isWordChar hc (d := '-') rfl]
  rw [readOperand]
  · simp [startsNumeral, hint]
  · exact fun cs h => ne_of_isWordChar hc (d := '\'') rfl (List.cons.inj h).1
  · exact fun cs h => ne_of_isWordChar hc (d := '"') rfl (List.cons.inj h).1

/-- A number is told by its first character. -/
theorem readOperand_numeral {cs : List Char} (h : startsNumeral cs = true) (fuel : Nat) :
    readOperand (fuel + 1) cs = readNumber cs := by
  rw [readOperand]
  · rw [if_pos h]
  · rintro cs rfl
    cases h
  · rintro cs rfl
    cases h

/-! ### No operand begins like an operator -/

theorem unaryOp?_of_isWordChar {c : Char} {cs : List Char} (hc : isWordChar c = true) :
    unaryOp? (c :: cs) = none := by
  unfold unaryOp?
  split <;> first | rfl | exact absurd (List.cons.inj ‹_›).1 (ne_of_isWordChar hc rfl)

/-- A sign has a digit or a letter behind it. -/
theorem unaryOp?_of_isNumeral {c : Char} {cs : List Char} (hc : isIntChar c = true)
    (h : isNumeral c cs = true) : unaryOp? (c :: (cs ++ rest)) = none := by
  obtain hdigit | hdash := Bool.or_eq_true_iff.mp hc
  · exact unaryOp?_of_isWordChar (by simp [isWordChar, Char.isAlphanum, hdigit])
  obtain rfl : c = '-' := by simpa using hdash
  cases cs with
  | nil => cases h
  | cons d cs =>
    obtain ⟨hd, -⟩ := Bool.and_eq_true_iff.mp h
    rw [List.cons_append]
    unfold unaryOp?
    split <;> first
      | rfl
      | (obtain ⟨-, h⟩ := List.cons.inj ‹_›; obtain ⟨rfl, -⟩ := List.cons.inj h; cases hd)
      | (obtain ⟨h, -⟩ := List.cons.inj ‹_›; cases h)

theorem Label.exists_cons (f : Label) :
    ∃ c cs, f.chars = c :: cs ∧ isWordChar c = true ∧ c.isDigit = false := by
  have h := f.isLabel
  cases hchars : f.chars with
  | nil => simp [hchars, Target.isLabel] at h
  | cons c cs =>
    simp only [hchars, Target.isLabel, Bool.and_eq_true, Bool.not_eq_true'] at h
    exact ⟨c, cs, rfl, h.1⟩

theorem Label.all_isWordChar (f : Label) : f.chars.all isWordChar = true := by
  obtain ⟨c, cs, hchars, -⟩ := f.exists_cons
  have h := f.isLabel
  simp only [hchars, Target.isLabel, Bool.and_eq_true] at h
  rw [hchars, List.all_cons, h.1.1, h.2]
  rfl

theorem unaryOp?_write (v : Operand) (rest : List Char) : unaryOp? (v.write rest) = none := by
  cases v with
  | int value =>
    obtain ⟨c, cs, htext, hnumeral, hints, -⟩ := toList_toString_int value
    rw [Operand.write, htext]
    exact unaryOp?_of_isNumeral (Bool.and_eq_true_iff.mp hints).1
      (Bool.and_eq_true_iff.mp hnumeral).2
  | float text =>
    rw [Operand.write]
    obtain h | h | ⟨hstarts, hnumeral, -⟩ := text.cases
    · rw [h]
      exact unaryOp?_of_isWordChar rfl
    · rw [h]
      exact unaryOp?_of_isWordChar rfl
    · cases hchars : text.chars with
      | nil =>
        rw [hchars] at hstarts
        cases hstarts
      | cons c cs =>
        rw [hchars] at hstarts hnumeral
        exact unaryOp?_of_isNumeral hstarts (Bool.and_eq_true_iff.mp hnumeral).2
  | char | string => rfl
  | name name => exact unaryOp?_of_isWordChar rfl
  | call f arguments =>
    obtain ⟨c, cs, hchars, hc, -⟩ := f.exists_cons
    rw [Operand.write, hchars]
    exact unaryOp?_of_isWordChar hc

/-! ### The whole expression -/

/-- The text goes on with what can stand behind an expression, whatever follows a mark. -/
theorem endsShape_writeEach {mark : List Char} (hmark : ∀ cs, EndsShape (mark ++ cs))
    (es : List Shape) (hrest : EndsShape rest) : EndsShape (Shape.writeEach mark es rest) := by
  cases es with
  | nil => exact hrest
  | cons e es => exact hmark _

theorem endsShape_cons (c : Char) (hc : c ∈ [')', ' ', ',', ';']) (cs : List Char) :
    EndsShape (c :: cs) :=
  ⟨c, cs, rfl, hc⟩

theorem endsShape_close (cs : List Char) : EndsShape (')' :: cs) :=
  endsShape_cons ')' (by simp) cs

theorem endsShape_comma (cs : List Char) : EndsShape ([',', ' '] ++ cs) :=
  endsShape_cons ',' (by simp) _

/-- A word that no arguments follow. -/
theorem readOperand_wordOperand {word : List Char} {v : Operand}
    (hword : word.all isWordChar = true)
    (hfirst : ∀ c ∈ word.head?, c.isDigit = false) (hv : wordOperand? word = some v)
    (hrest : EndsOperand rest) (fuel : Nat) :
    readOperand (fuel + 1) (word ++ rest) = some (v, rest) := by
  cases word with
  | nil => cases hv
  | cons c cs =>
    have hrun := wordRun_append hword fun d hd => (hrest d hd).1
    rw [List.cons_append] at hrun ⊢
    rw [readOperand_word (Bool.and_eq_true_iff.mp hword).1 (hfirst c rfl), hrun]
    split
    · rename_i h
      cases h
      exact absurd rfl (hrest '(' rfl).2.2
    · rename_i h
      cases h
      rw [hv]
      rfl

/-- No expression begins with a parenthesis that closes. -/
theorem readShape_close (fuel : Nat) (cs : List Char) : readShape fuel (')' :: cs) = none := by
  cases fuel with
  | zero => rfl
  | succ n => cases n <;> rfl

mutual

/-- **Operands can be read back**, with the text behind them. -/
theorem readOperand_write : ∀ (v : Operand) {rest : List Char}, EndsOperand rest →
    ∀ fuel, sizeOf v ≤ fuel → readOperand fuel (v.write rest) = some (v, rest)
  | .int value, rest, hrest, fuel + 1, hfuel => by
    obtain ⟨c, cs, htext, -, hints, -⟩ := toList_toString_int value
    have hstarts : startsNumeral ((toString value).toList ++ rest) = true := by
      rw [htext]
      exact (Bool.and_eq_true_iff.mp hints).1
    rw [Operand.write, readOperand_numeral hstarts, readNumber_int value hrest]
  | .float x, rest, hrest, fuel + 1, hfuel => by
    have hword : after? ['s', 'c', '_'] x.chars = none → wordOperand? x.chars = some (.float x) :=
      fun hafter => by simp [wordOperand?, hafter, x.isFraction]
    rw [Operand.write]
    obtain h | h | ⟨hstarts, hnumeral, hints⟩ := x.cases
    · refine readOperand_wordOperand ?_ ?_ (hword ?_) hrest fuel <;> rw [h]
      · rfl
      · simp
      · rfl
    · refine readOperand_wordOperand ?_ ?_ (hword ?_) hrest fuel <;> rw [h]
      · rfl
      · simp
      · rfl
    · have hstarts' : startsNumeral (x.chars ++ rest) = true := by
        cases hchars : x.chars with
        | nil =>
          rw [hchars] at hstarts
          cases hstarts
        | cons c cs =>
          rw [hchars] at hstarts
          exact hstarts
      rw [readOperand_numeral hstarts', readNumber_fraction x hnumeral hints hrest]
  | .char value, rest, hrest, fuel + 1, hfuel => by
    have hread := Literal.readByte_escapeByte (.inl rfl) value ('\'' :: rest)
    rw [show Ascii.toChar Ascii.singleQuote = '\'' from rfl] at hread
    simp [Operand.write, readOperand, hread, after?]
  | .string bytes, rest, hrest, fuel + 1, hfuel => by
    have hlength := Literal.length_le_length_escape (.inr rfl) bytes
    have hread := Literal.readBytes_escape (.inr rfl) bytes rest
      (Literal.escape Ascii.doubleQuote bytes ++ '"' :: rest).length (by simp; omega)
    rw [show Ascii.toChar Ascii.doubleQuote = '"' from rfl] at hread
    simp only [Operand.write, readOperand, hread, Option.bind_eq_bind, Option.bind_some]
  | .name name, rest, hrest, fuel + 1, hfuel => by
    refine @readOperand_wordOperand _ ('s' :: 'c' :: '_' :: name.chars) _ ?_ ?_ ?_ hrest fuel
    · exact name.isWord
    · simp
    · simp [wordOperand?, after?, name.isWord]
  | .call f arguments, rest, hrest, fuel + 1, hfuel => by
    obtain ⟨c, cs, hchars, hc, hdigit⟩ := f.exists_cons
    have hrun := @wordRun_append _ ('(' :: Shape.writeArguments arguments (')' :: rest))
      f.all_isWordChar (by simp; rfl)
    have harguments := readArguments_write arguments rest fuel (by simp at hfuel; omega)
    have hf := f.isLabel
    rw [Operand.write, hchars, List.cons_append, readOperand_word hc hdigit, ← List.cons_append,
      ← hchars, hrun]
    simp [harguments, after?, hf]
  | v, rest, hrest, 0, hfuel => by
    cases v <;> simp at hfuel

/-- **Expressions can be read back**, with the text behind them. -/
theorem readShape_write : ∀ (e : Shape) {rest : List Char}, EndsShape rest →
    ∀ fuel, sizeOf e ≤ fuel → readShape fuel (e.write rest) = some (e, rest)
  | .operand value step, rest, hrest, fuel + 1, hfuel => by
    have hvalue := readOperand_write value (endsOperand_stepChars step hrest) fuel
      (by simp at hfuel; omega)
    simp [Shape.write, readShape, unaryOp?_write, hvalue, readStep_stepChars step hrest]
  | .unary op operand, rest, hrest, fuel + 1, hfuel => by
    have hoperand := readShape_write operand (endsShape_close rest) fuel
      (by simp at hfuel; omega)
    simp [Shape.write, readShape, unaryOp?_text, hoperand]
  | .binary op left right, rest, hrest, fuel + 1, hfuel => by
    have hleft := readShape_write left (endsShape_cons ' ' (by simp)
      (op.symbol.toList ++ ' ' :: right.write (')' :: rest))) fuel (by simp at hfuel; omega)
    have hright := readShape_write right (endsShape_close rest) fuel
      (by simp at hfuel; omega)
    simp [Shape.write, readShape, unaryOp?, hleft, binaryOp?_symbol, hright, after?]
  | e, rest, hrest, 0, hfuel => by
    cases e <;> simp at hfuel

theorem readArguments_write : ∀ (es : List Shape) (rest : List Char),
    ∀ fuel, sizeOf es ≤ fuel →
      readArguments fuel (Shape.writeArguments es (')' :: rest)) = some (es, ')' :: rest)
  | [], rest, fuel + 1, hfuel => by
    simp [Shape.writeArguments, readArguments]
  | e :: es, rest, fuel + 1, hfuel => by
    have he := readShape_write e (endsShape_writeEach endsShape_comma
      es (endsShape_close rest)) fuel (by simp at hfuel; omega)
    have hes := readEach_write endsShape_comma es
      (endsShape_close rest) rfl fuel (by simp at hfuel; omega)
    have hhead : (e.write (Shape.writeEach [',', ' '] es (')' :: rest))).head? ≠ some ')' := by
      intro hhead
      obtain ⟨cs, hcs⟩ := List.head?_eq_some_iff.mp hhead
      rw [hcs, readShape_close] at he
      cases he
    simp [Shape.writeArguments, readArguments, hhead, he, hes]
  | es, rest, 0, hfuel => by
    cases es <;> simp at hfuel

theorem readEach_write {mark : List Char} (hmark : ∀ cs, EndsShape (mark ++ cs)) :
    ∀ (es : List Shape) {rest : List Char}, EndsShape rest → after? mark rest = none →
      ∀ fuel, sizeOf es ≤ fuel →
        readEach mark fuel (Shape.writeEach mark es rest) = some (es, rest)
  | [], rest, hrest, hafter, fuel + 1, hfuel => by
    simp [Shape.writeEach, readEach, hafter]
  | e :: es, rest, hrest, hafter, fuel + 1, hfuel => by
    have he := readShape_write e (endsShape_writeEach hmark es hrest) fuel (by simp at hfuel; omega)
    have hes := readEach_write hmark es hrest hafter fuel (by simp at hfuel; omega)
    simp [Shape.writeEach, readEach, he, hes]
  | es, rest, hrest, hafter, 0, hfuel => by
    cases es <;> simp at hfuel

end

/-! ## Reading statements -/

/-- The words that begin statements, each with its text. -/
def keywords : List (List Char × Keyword) :=
  [Keyword.const, .returning, .breaking, .continuing, .conditional, .loop, .type .int,
    .type .byte, .type .float, .type .double, .type .boolean].map fun keyword =>
      (keyword.chars, keyword)

/-- Reads a type and the space behind it. -/
def readType (cs : List Char) : Option (TypeAtom × List Char) :=
  let (word, cs) := wordRun cs
  match keywords.lookup word with
  | some (.type atom) => (after? [' '] cs).map fun cs => (atom, cs)
  | _ => none

/-- Reads a name with its values, and the end of the line. -/
def readAssignment (fuel : Nat) (cs : List Char) :
    Option ((Word × List Shape) × List Char) := do
  let (name, cs) ← readName cs
  let (values, cs) ← readEach [' ', '=', ' '] fuel cs
  let cs ← after? [';', '\n'] cs
  some ((name, values), cs)

/-- Reads a condition, if there is one. -/
def readCondition (fuel : Nat) (cs : List Char) : Option (Option Shape × List Char) :=
  match after? [' ', '('] cs with
  | none => some (none, cs)
  | some cs => do
    let (condition, cs) ← readShape fuel cs
    let cs ← after? [')'] cs
    some (some condition, cs)

/-- Reads the value that is returned, if there is one. -/
def readValue (fuel : Nat) (cs : List Char) : Option (Option Shape × List Char) :=
  match after? [' '] cs with
  | none => some (none, cs)
  | some cs => do
    let (value, cs) ← readShape fuel cs
    some (some value, cs)

/-- Reads a block, whose statements are read like this. -/
def readBlock (depth : Nat) (readBody : List Char → Option (List StmtShape × List Char))
    (cs : List Char) : Option (List StmtShape × List Char) := do
  let (body, cs) ← readBody (← after? [' ', '\x7b', '\n'] cs)
  let cs ← after? (List.replicate (4 * depth) ' ' ++ ['\x7d']) cs
  some (body, cs)

mutual

/-- Reads a statement from behind the spaces of its first line on; `fuel` bounds how large
it is. -/
def readStmt : (fuel depth : Nat) → List Char → Option (StmtShape × List Char)
  | 0, _, _ => none
  | fuel + 1, depth, cs =>
    match wordRun cs with
    | (word, '(' :: cs) => do
      let (arguments, cs) ← readArguments fuel cs
      let cs ← after? [')', ';', '\n'] cs
      if h : isLabel word then some (.call ⟨word, h⟩ arguments, cs) else none
    | (word, rest) =>
      match keywords.lookup word with
      | some keyword => readKeyword fuel depth keyword rest
      | none => do
        let ((name, values), cs) ← readAssignment fuel cs
        some (.assign name values, cs)

/-- Reads what follows the word that a statement begins with. -/
def readKeyword : (fuel depth : Nat) → Keyword → List Char → Option (StmtShape × List Char)
  | 0, _, _, _ => none
  | fuel + 1, _, .const, cs => do
    let (type, cs) ← readType (← after? [' '] cs)
    let ((name, values), cs) ← readAssignment fuel cs
    some (.declare true type name values, cs)
  | fuel + 1, _, .type type, cs => do
    let ((name, values), cs) ← readAssignment fuel (← after? [' '] cs)
    some (.declare false type name values, cs)
  | fuel + 1, _, .returning, cs => do
    let (value, cs) ← readValue fuel cs
    let cs ← after? [';', '\n'] cs
    some (.returning value, cs)
  | _ + 1, _, .breaking, cs => (after? [';', '\n'] cs).map fun cs => (.breaking, cs)
  | _ + 1, _, .continuing, cs => (after? [';', '\n'] cs).map fun cs => (.continuing, cs)
  | fuel + 1, depth, .conditional, cs => do
    let (condition, cs) ← readCondition fuel cs
    let (body, cs) ← readBlock depth (readStmts fuel (depth + 1)) cs
    let (others, cs) ← readClauses fuel depth cs
    let cs ← after? ['\n'] cs
    some (.conditional condition body others, cs)
  | fuel + 1, depth, .loop, cs => do
    let (condition, cs) ← readCondition fuel cs
    let (body, cs) ← readBlock depth (readStmts fuel (depth + 1)) cs
    let cs ← after? ['\n'] cs
    some (.loop condition body, cs)

/-- Reads statements as long as lines are indented by a depth. -/
def readStmts : (fuel depth : Nat) → List Char → Option (List StmtShape × List Char)
  | 0, _, _ => none
  | fuel + 1, depth, cs =>
    match after? (List.replicate (4 * depth) ' ') cs with
    | none => some ([], cs)
    | some cs => do
      let (s, cs) ← readStmt fuel depth cs
      let (ss, cs) ← readStmts fuel depth cs
      some (s :: ss, cs)

/-- Reads the clauses that follow a clause. -/
def readClauses : (fuel depth : Nat) → List Char → Option (List ClauseShape × List Char)
  | 0, _, _ => none
  | fuel + 1, depth, cs =>
    match after? elseChars cs with
    | none => some ([], cs)
    | some cs =>
      match after? (' ' :: Keyword.conditional.chars) cs with
      | some cs => do
        let (condition, cs) ← readCondition fuel cs
        let (body, cs) ← readBlock depth (readStmts fuel (depth + 1)) cs
        let (others, cs) ← readClauses fuel depth cs
        some (.elif condition body :: others, cs)
      | none => do
        let (body, cs) ← readBlock depth (readStmts fuel (depth + 1)) cs
        let (others, cs) ← readClauses fuel depth cs
        some (.otherwise body :: others, cs)

end

/-! ### What is written is read -/

theorem EndsShape.head? (h : EndsShape rest) : ∀ c ∈ rest.head?, isWordChar c = false := by
  obtain ⟨c, cs, rfl, hc⟩ := h
  simp only [List.mem_cons, List.not_mem_nil, or_false] at hc
  rintro d hd
  obtain rfl : c = d := by simpa using hd
  rcases hc with rfl | rfl | rfl | rfl <;> rfl

theorem endsShape_space (cs : List Char) : EndsShape (' ' :: cs) :=
  endsShape_cons ' ' (by simp) cs

theorem endsShape_semicolon (cs : List Char) : EndsShape (';' :: cs) :=
  endsShape_cons ';' (by simp) cs

theorem sizeOf_list_pos {α : Type} [SizeOf α] (as : List α) : 0 < sizeOf as := by
  cases as with
  | nil => exact Nat.one_pos
  | cons a as =>
    rw [List.cons.sizeOf_spec]
    omega

/-- What stands behind the name of an assignment. -/
theorem endsShape_values (values : List Shape) (rest : List Char) :
    EndsShape (Shape.writeEach [' ', '=', ' '] values (';' :: '\n' :: rest)) :=
  endsShape_writeEach (fun _ => endsShape_space _) values (endsShape_semicolon _)

theorem wordRun_word (name : Word) {rest : List Char} (hrest : EndsShape rest) :
    wordRun (name.write rest) = ('s' :: 'c' :: '_' :: name.chars, rest) := by
  have hword : ('s' :: 'c' :: '_' :: name.chars).all isWordChar = true := name.isWord
  have happend : name.write rest = ('s' :: 'c' :: '_' :: name.chars) ++ rest := rfl
  rw [happend, wordRun_append hword hrest.head?]

theorem readName_write (name : Word) {rest : List Char} (hrest : EndsShape rest) :
    readName (name.write rest) = some (name, rest) := by
  have hafter : after? ['s', 'c', '_'] (name.write rest) = some (name.chars ++ rest) :=
    after?_append ['s', 'c', '_'] (name.chars ++ rest)
  have hrun := wordRun_append name.isWord hrest.head?
  simp only [readName, hafter, hrun, Option.bind_eq_bind, Option.bind_some, dif_pos name.isWord]

theorem readAssignment_write (name : Word) (values : List Shape) (rest : List Char) {fuel : Nat}
    (hfuel : sizeOf values ≤ fuel) :
    readAssignment fuel (writeAssignment name values rest) = some ((name, values), rest) := by
  have hname := readName_write name (endsShape_values values rest)
  have hvalues := @readEach_write [' ', '=', ' '] (fun _ => endsShape_space _) values _
    (endsShape_semicolon ('\n' :: rest)) rfl fuel hfuel
  simp [readAssignment, writeAssignment, hname, hvalues, after?]

theorem readCondition_write (condition : Option Shape) {rest : List Char}
    (hrest : after? [' ', '('] rest = none) {fuel : Nat} (hfuel : sizeOf condition ≤ fuel) :
    readCondition fuel (writeCondition condition rest) = some (condition, rest) := by
  cases condition with
  | none => simp [readCondition, writeCondition, hrest]
  | some condition =>
    have hread := readShape_write condition (endsShape_close rest) fuel (by simp at hfuel; omega)
    simp [readCondition, writeCondition, after?, hread]

theorem readValue_write (value : Option Shape) (rest : List Char) {fuel : Nat}
    (hfuel : sizeOf value ≤ fuel) :
    readValue fuel (writeValue value (';' :: rest)) = some (value, ';' :: rest) := by
  cases value with
  | none => simp [readValue, writeValue, after?]
  | some value =>
    have hread := readShape_write value (endsShape_semicolon rest) fuel (by simp at hfuel; omega)
    simp [readValue, writeValue, after?, hread]

theorem Keyword.all_isWordChar (k : Keyword) : k.chars.all isWordChar = true := by
  cases k with
  | type atom => cases atom <;> decide
  | _ => rfl

theorem lookup_chars (k : Keyword) : keywords.lookup k.chars = some k := by
  cases k with
  | type atom => cases atom <;> rfl
  | _ => rfl

theorem readType_write (type : TypeAtom) (rest : List Char) :
    readType ((Keyword.type type).chars ++ ' ' :: rest) = some (type, rest) := by
  have hrun := wordRun_append (Keyword.type type).all_isWordChar (endsShape_space rest).head?
  simp [readType, hrun, lookup_chars, after?]

/-- Behind a block, the spaces in front of its brace are fewer than inside of it. -/
theorem after?_closeBlock (depth : Nat) (rest : List Char) :
    after? (List.replicate (4 * (depth + 1)) ' ') (closeBlock depth rest) = none := by
  have hfewer : ∀ n m : Nat,
      after? (List.replicate (n + (m + 1)) ' ') (List.replicate n ' ' ++ '\x7d' :: rest)
        = none := by
    intro n m
    induction n with
    | zero => simp [List.replicate_succ, after?]
    | succ n ih =>
      rw [Nat.add_right_comm n 1, List.replicate_succ, List.replicate_succ]
      simpa [after?] using ih
  exact hfewer (4 * depth) 3

theorem readBlock_write {body : List StmtShape} {depth fuel : Nat}
    (hbody : readStmts fuel (depth + 1)
      (StmtShape.writeAll (depth + 1) body (closeBlock depth rest))
        = some (body, closeBlock depth rest)) :
    readBlock depth (readStmts fuel (depth + 1)) (openBlock (StmtShape.writeAll (depth + 1) body
      (closeBlock depth rest))) = some (body, rest) := by
  have hclose : after? (List.replicate (4 * depth) ' ' ++ ['\x7d']) (closeBlock depth rest)
      = some rest := by
    simpa [closeBlock, indented] using
      after?_append (List.replicate (4 * depth) ' ' ++ ['\x7d']) rest
  rw [readBlock, openBlock, after?_append]
  simp [hbody, hclose]

/-- A statement is read by the word that it begins with. -/
theorem readStmt_keyword (k : Keyword) {c : Char} (hc : isWordChar c = false) (hparen : c ≠ '(')
    (fuel depth : Nat) (cs : List Char) :
    readStmt (fuel + 1) depth (k.chars ++ c :: cs) = readKeyword fuel depth k (c :: cs) := by
  rw [readStmt, wordRun_append k.all_isWordChar (by simpa using hc)]
  split
  · rename_i h
    exact absurd (List.cons.inj (Prod.mk.inj h).2).1 hparen
  · rename_i h
    obtain ⟨rfl, rfl⟩ := Prod.mk.inj h
    rw [lookup_chars]

/-- A value or a line's end is behind the word in front of it. -/
theorem readStmt_value (k : Keyword) (value : Option Shape) (fuel depth : Nat)
    (rest : List Char) :
    readStmt (fuel + 1) depth (k.chars ++ writeValue value (';' :: rest))
      = readKeyword fuel depth k (writeValue value (';' :: rest)) := by
  cases value <;> exact readStmt_keyword k rfl (by decide) ..

/-- A condition or a block is behind the word in front of it. -/
theorem readStmt_condition (k : Keyword) (condition : Option Shape) (fuel depth : Nat)
    (rest : List Char) :
    readStmt (fuel + 1) depth (k.chars ++ writeCondition condition (openBlock rest))
      = readKeyword fuel depth k (writeCondition condition (openBlock rest)) := by
  cases condition <;> exact readStmt_keyword k rfl (by decide) ..

/-- A name that the program gives begins no statement of another kind. -/
theorem readStmt_word (name : Word) (hrest : EndsShape rest) (fuel depth : Nat) :
    readStmt (fuel + 1) depth (name.write rest)
      = (readAssignment fuel (name.write rest)).map fun ((name, values), cs) =>
        (.assign name values, cs) := by
  have hlookup : keywords.lookup ('s' :: 'c' :: '_' :: name.chars) = none := rfl
  rw [readStmt, wordRun_word name hrest]
  split
  · rename_i h
    obtain ⟨c, cs, rfl, hc⟩ := hrest
    cases (Prod.mk.inj h).2
    simp at hc
  · rename_i h
    obtain ⟨rfl, rfl⟩ := Prod.mk.inj h
    rw [hlookup]
    cases readAssignment fuel (name.write rest) <;> rfl

mutual

/-- **Statements can be read back**, with the text behind them. -/
theorem readStmt_write (depth : Nat) : ∀ (s : StmtShape) (rest : List Char),
    ∀ fuel, sizeOf s < fuel → readStmt fuel depth (s.write depth rest) = some (s, rest)
  | .declare true type name values, rest, fuel + 2, hfuel => by
    have hassignment := @readAssignment_write name values rest fuel
      (by simp at hfuel; omega)
    rw [StmtShape.write]
    refine (readStmt_keyword .const (c := ' ') rfl (by decide) ..).trans ?_
    simp [readKeyword, after?, readType_write, hassignment]
  | .declare false type name values, rest, fuel + 2, hfuel => by
    have hassignment := @readAssignment_write name values rest fuel
      (by simp at hfuel; omega)
    rw [StmtShape.write]
    refine (readStmt_keyword (.type type) (c := ' ') rfl (by decide) ..).trans ?_
    simp [readKeyword, after?, hassignment]
  | .assign name values, rest, fuel + 1, hfuel => by
    have hassignment := @readAssignment_write name values rest fuel
      (by simp at hfuel; omega)
    rw [StmtShape.write, writeAssignment, readStmt_word name (endsShape_values values rest),
      ← writeAssignment, hassignment]
    rfl
  | .call f arguments, rest, fuel + 1, hfuel => by
    have hrun := @wordRun_append _ ('(' :: Shape.writeArguments arguments
      (')' :: ';' :: '\n' :: rest)) f.all_isWordChar (by simp; rfl)
    have harguments := readArguments_write arguments (';' :: '\n' :: rest) fuel
      (by simp at hfuel; omega)
    rw [StmtShape.write, readStmt, Operand.write, hrun]
    simp [harguments, after?, f.isLabel]
  | .returning value, rest, fuel + 2, hfuel => by
    have hvalue := @readValue_write value ('\n' :: rest) fuel (by simp at hfuel; omega)
    rw [StmtShape.write, readStmt_value, readKeyword, hvalue]
    simp [after?]
  | .breaking, rest, fuel + 2, _ => by
    rw [StmtShape.write, readStmt_keyword .breaking rfl (by decide), readKeyword]
    rfl
  | .continuing, rest, fuel + 2, _ => by
    rw [StmtShape.write, readStmt_keyword .continuing rfl (by decide), readKeyword]
    rfl
  | .conditional condition body others, rest, fuel + 2, hfuel => by
    have hcondition := @readCondition_write condition (openBlock
      (StmtShape.writeAll (depth + 1) body (closeBlock depth
        (ClauseShape.writeAll depth others ('\n' :: rest))))) rfl fuel (by simp at hfuel; omega)
    have hbody := readBlock_write (readStmts_write (depth + 1) body
      (after?_closeBlock depth (ClauseShape.writeAll depth others ('\n' :: rest))) fuel
      (by simp at hfuel; omega))
    have hothers := readClauses_write depth others rest fuel (by simp at hfuel; omega)
    rw [StmtShape.write, readStmt_condition, readKeyword, hcondition]
    simp [hbody, hothers, after?]
  | .loop condition body, rest, fuel + 2, hfuel => by
    have hcondition := @readCondition_write condition (openBlock
      (StmtShape.writeAll (depth + 1) body (closeBlock depth ('\n' :: rest)))) rfl fuel
      (by simp at hfuel; omega)
    have hbody := readBlock_write (readStmts_write (depth + 1) body
      (after?_closeBlock depth ('\n' :: rest)) fuel (by simp at hfuel; omega))
    rw [StmtShape.write, readStmt_condition, readKeyword, hcondition]
    simp [hbody, after?]
  | s, rest, 0, hfuel => by
    cases hfuel
  | s, rest, 1, hfuel => by
    cases s <;> simp at hfuel

theorem readStmts_write (depth : Nat) : ∀ (ss : List StmtShape) {rest : List Char},
    after? (List.replicate (4 * depth) ' ') rest = none →
    ∀ fuel, sizeOf ss ≤ fuel →
      readStmts fuel depth (StmtShape.writeAll depth ss rest) = some (ss, rest)
  | [], rest, hrest, fuel + 1, hfuel => by
    simp [StmtShape.writeAll, readStmts, hrest]
  | s :: ss, rest, hrest, fuel + 1, hfuel => by
    have hpos := sizeOf_list_pos ss
    have hs := readStmt_write depth s (StmtShape.writeAll depth ss rest) fuel
      (by simp at hfuel; omega)
    have hss := readStmts_write depth ss hrest fuel (by simp at hfuel; omega)
    simp [StmtShape.writeAll, readStmts, indented, hs, hss]
  | ss, rest, hrest, 0, hfuel => by
    cases ss <;> simp at hfuel

theorem readClauses_write (depth : Nat) : ∀ (cs : List ClauseShape) (rest : List Char),
    ∀ fuel, sizeOf cs ≤ fuel →
      readClauses fuel depth (ClauseShape.writeAll depth cs ('\n' :: rest))
        = some (cs, '\n' :: rest)
  | [], rest, fuel + 1, hfuel => by
    simp [ClauseShape.writeAll, readClauses, after?, elseChars]
  | .elif condition body :: cs, rest, fuel + 1, hfuel => by
    have hcondition := @readCondition_write condition (openBlock
      (StmtShape.writeAll (depth + 1) body (closeBlock depth
        (ClauseShape.writeAll depth cs ('\n' :: rest))))) rfl fuel (by simp at hfuel; omega)
    have hbody := readBlock_write (readStmts_write (depth + 1) body
      (after?_closeBlock depth (ClauseShape.writeAll depth cs ('\n' :: rest))) fuel
      (by simp at hfuel; omega))
    have hothers := readClauses_write depth cs rest fuel (by simp at hfuel; omega)
    have hif : ∀ cs, after? (' ' :: Keyword.conditional.chars)
        (' ' :: (Keyword.conditional.chars ++ cs)) = some cs :=
      fun cs => after?_append (' ' :: Keyword.conditional.chars) cs
    rw [ClauseShape.writeAll, ClauseShape.write, readClauses, after?_append]
    simp only [hif, hcondition, Option.bind_eq_bind, Option.bind_some, hbody, hothers]
  | .otherwise body :: cs, rest, fuel + 1, hfuel => by
    have hbody := readBlock_write (readStmts_write (depth + 1) body
      (after?_closeBlock depth (ClauseShape.writeAll depth cs ('\n' :: rest))) fuel
      (by simp at hfuel; omega))
    have hothers := readClauses_write depth cs rest fuel (by simp at hfuel; omega)
    have hif : ∀ cs, after? (' ' :: Keyword.conditional.chars) (openBlock cs) = none :=
      fun cs => rfl
    rw [ClauseShape.writeAll, ClauseShape.write, readClauses, after?_append]
    simp only [hif, Option.bind_eq_bind, Option.bind_some, hbody, hothers]
  | cs, rest, 0, hfuel => by
    cases cs <;> simp at hfuel

end

/-- **Text tells statements apart.** -/
theorem StmtShape.writeAll_inj {depth : Nat} (hdepth : 0 < depth) {ss ss' : List StmtShape}
    (h : StmtShape.writeAll depth ss [] = StmtShape.writeAll depth ss' []) : ss = ss' := by
  have hnil : after? (List.replicate (4 * depth) ' ') [] = none := by
    obtain ⟨n, hn⟩ := Nat.exists_eq_add_one_of_ne_zero (show 4 * depth ≠ 0 by omega)
    rw [hn, List.replicate_succ]
    rfl
  have hread := readStmts_write depth ss hnil (max (sizeOf ss) (sizeOf ss')) (Nat.le_max_left ..)
  have hread' := readStmts_write depth ss' hnil (max (sizeOf ss) (sizeOf ss')) (Nat.le_max_right ..)
  rw [h, hread'] at hread
  cases hread
  rfl

end Braced.Target

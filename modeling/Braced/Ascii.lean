/-!
# Braced.Ascii

The classes of bytes that the language's lexical rules speak of, and names for
the bytes that carry syntax.

Sources are byte lists and need not be text. Every class here holds ASCII bytes
only, so a byte of a multi-byte character is never a digit, a letter or blank.
-/

namespace Braced.Ascii

/-! ## Bytes with a name -/

/-- The line feed, the only byte that ends a line. -/
def newline : UInt8 := 10

/-- The quote that opens and closes a string literal. -/
def doubleQuote : UInt8 := 34

/-- The quote that opens and closes a character literal. -/
def singleQuote : UInt8 := 39

def dash : UInt8 := 45

def dot : UInt8 := 46

def slash : UInt8 := 47

/-- The byte that opens an escape in a literal. -/
def backslash : UInt8 := 92

def underscore : UInt8 := 95

def lowerX : UInt8 := 120

def openBrace : UInt8 := 123

def closeBrace : UInt8 := 125

/-! ## Classes -/

def isDigit (b : UInt8) : Bool :=
  48 ≤ b && b ≤ 57

def isLetter (b : UInt8) : Bool :=
  (65 ≤ b && b ≤ 90) || (97 ≤ b && b ≤ 122)

/-- What a word may start with: a letter or an underscore. -/
def isWordStart (b : UInt8) : Bool :=
  isLetter b || b == underscore

/-- What a word may go on with: a letter, a digit or an underscore. -/
def isWordPart (b : UInt8) : Bool :=
  isWordStart b || isDigit b

/-- The bytes that separate tokens: space, tab, line feed, form feed and
    carriage return. The vertical tab is not one of them. -/
def isBlank (b : UInt8) : Bool :=
  b == 32 || b == 9 || b == 10 || b == 12 || b == 13

/-- The value of a hexadecimal digit, of either case. -/
def hexValue? (b : UInt8) : Option UInt8 :=
  if isDigit b then some (b - 48)
  else if 97 ≤ b && b ≤ 102 then some (b - 87)
  else if 65 ≤ b && b ≤ 70 then some (b - 55)
  else none

/-! ## Bytes as text and as a number -/

/-- The character with the byte's value as its code point. On ASCII bytes this
    is the character that the byte encodes. -/
def toChar (b : UInt8) : Char :=
  Char.ofNat b.toNat

/-- Bytes read one character each. -/
def text (bs : List UInt8) : String :=
  String.ofList (bs.map toChar)

/-- The number that a list of decimal digits denotes. -/
def decimal (digits : List UInt8) : Nat :=
  digits.foldl (fun value digit => 10 * value + (digit.toNat - 48)) 0

@[simp] theorem decimal_nil : decimal [] = 0 := rfl

/-- What is true of each number of eight bits is true of each byte. -/
theorem forall_byte {p : UInt8 → Prop} (h : ∀ n < 256, p (UInt8.ofNat n)) (b : UInt8) : p b := by
  simpa using h b.toNat b.toNat_lt

/-- The character of a byte has its value. -/
theorem toNat_toChar (b : UInt8) : (toChar b).toNat = b.toNat := by
  have hb := b.toNat_lt
  have hvalid : b.toNat.isValidChar := Or.inl (by omega)
  rw [toChar, Char.ofNat, dif_pos hvalid]
  rfl

theorem eq_of_toChar {b : UInt8} {c : Char} (h : toChar b = c) : b = UInt8.ofNat c.toNat := by
  rw [← h, toNat_toChar, UInt8.ofNat_toNat]

theorem toChar_inj {a b : UInt8} (h : toChar a = toChar b) : a = b := by
  have heq := eq_of_toChar h
  rwa [toNat_toChar, UInt8.ofNat_toNat] at heq

end Braced.Ascii

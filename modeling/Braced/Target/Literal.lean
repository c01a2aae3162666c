import Braced.Ascii

/-!
# Braced.Target.Literal

Bytes inside a literal of the target language.

Printable ASCII stands for itself, apart from the backslash and the quote around
the literal. What has no escape of its own is written in octal, with three
digits always: an octal escape ends after three digits, so a digit that follows
is not taken for part of it.
-/

namespace Braced.Target.Literal

/-- A byte as three octal digits. -/
def octal (b : UInt8) : List Char :=
  [Nat.digitChar (b.toNat / 64), Nat.digitChar (b.toNat / 8 % 8), Nat.digitChar (b.toNat % 8)]

/-- A byte between quotes. -/
def escapeByte (quote b : UInt8) : List Char :=
  match Ascii.toChar b with
  | '\n' => ['\\', 'n']
  | '\t' => ['\\', 't']
  | '\r' => ['\\', 'r']
  | '\\' => ['\\', '\\']
  | c =>
    if b = quote then ['\\', c]
    else if 0x20 ≤ b ∧ b ≤ 0x7E then [c]
    else '\\' :: octal b

/-- Bytes between quotes. -/
def escape (quote : UInt8) (bs : List UInt8) : List Char :=
  bs.flatMap (escapeByte quote)

@[simp] theorem escape_nil (quote : UInt8) : escape quote [] = [] := rfl

/-- The literal of a character. -/
def char (b : UInt8) : String :=
  "'" ++ String.ofList (escapeByte Ascii.singleQuote b) ++ "'"

/-- The literal of a string. -/
def string (bs : List UInt8) : String :=
  "\"" ++ String.ofList (escape Ascii.doubleQuote bs) ++ "\""

end Braced.Target.Literal

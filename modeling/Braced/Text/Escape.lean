import Braced.Text.Printable

/-!
# Braced.Text.Escape

Ways to write text so that every character of it can be seen.

* `quote` and `quoteChar` put quotes around the text and keep the printable
  characters, of whatever script.
* `escapeChar` keeps printable ASCII only.
* `escapeByte` is for bytes that need not be text, and writes the others by
  their two hexadecimal digits.

These agree on the tab, the carriage return, the line feed and the backslash.
They differ in the quotes they escape.

* `disarm` is for lines on a terminal. It keeps all that moves within the text,
  and writes out only what could start a command to the terminal.
-/

namespace Braced.Text

/-- A number in lower-case hexadecimal digits, without leading zeros. -/
def hexadecimal (n : Nat) : String :=
  String.ofList (Nat.toDigits 16 n)

/-- A number below 256 as two hexadecimal digits. -/
def hexByte (b : UInt8) : String :=
  String.ofList [Nat.digitChar (b.toNat / 16), Nat.digitChar (b.toNat % 16)]

/-- A character written by its code point. -/
def codePoint (c : Char) : String :=
  "\\u\x7b" ++ hexadecimal c.toNat ++ "\x7d"

/-- The letter that stands after a backslash for a character with an escape of
    its own. -/
def shortEscape? : Char → Option Char
  | '\t' => some 't'
  | '\r' => some 'r'
  | '\n' => some 'n'
  | '\\' => some '\\'
  | _ => none

/-! ## Quoting -/

/-- A character inside quotes, where `mark` is the quote around it. -/
def quotedChar (mark c : Char) : String :=
  match shortEscape? c with
  | some letter => String.ofList ['\\', letter]
  | none =>
    if c = mark then String.ofList ['\\', mark]
    else if c = '\x00' then "\\0"
    else if isPrintable c then String.singleton c
    else codePoint c

/-- A text between double quotes. -/
def quote (s : String) : String :=
  "\"" ++ String.join (s.toList.map (quotedChar '"')) ++ "\""

/-- A character between single quotes. -/
def quoteChar (c : Char) : String :=
  "'" ++ quotedChar '\'' c ++ "'"

/-! ## Escaping down to ASCII -/

/-- A character in printable ASCII. Both quotes are escaped, so that the result
    can stand between either. -/
def escapeChar (c : Char) : String :=
  match shortEscape? c with
  | some letter => String.ofList ['\\', letter]
  | none =>
    if c = '\'' ∨ c = '"' then String.ofList ['\\', c]
    else if 0x20 ≤ c.toNat ∧ c.toNat ≤ 0x7E then String.singleton c
    else codePoint c

/-- A byte in printable ASCII. -/
def escapeByte (b : UInt8) : String :=
  if b < 0x80 then
    let c := Char.ofNat b.toNat
    match shortEscape? c with
    | some letter => String.ofList ['\\', letter]
    | none =>
      if c = '\'' ∨ c = '"' then String.ofList ['\\', c]
      else if 0x20 ≤ b ∧ b ≤ 0x7E then String.singleton c
      else "\\x" ++ hexByte b
  else "\\x" ++ hexByte b

/-- Bytes in printable ASCII. -/
def escapeBytes (bs : List UInt8) : String :=
  String.join (bs.map escapeByte)

/-! ## Lines on a terminal -/

/-- Whether a terminal may take the character for a command or the start of one:
    the bell, the backspace, the form feed, escape, delete, and the controls
    beyond ASCII. -/
def isTerminalControl (c : Char) : Bool :=
  c = '\x07' || c = '\x08' || c = '\x0c' || c = '\x1b' || (0x7F ≤ c.toNat && c.toNat ≤ 0x9F)

/-- A character in a line on a terminal. -/
def disarmChar (c : Char) : String :=
  if isTerminalControl c then
    if c.toNat < 0x80 then "\\x" ++ hexByte c.toNat.toUInt8 else codePoint c
  else String.singleton c

/-- A text in a line on a terminal. -/
def disarm (s : String) : String :=
  String.join (s.toList.map disarmChar)

end Braced.Text

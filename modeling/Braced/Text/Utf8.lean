/-!
# Braced.Text.Utf8

Text as UTF-8 bytes and back. Reading never fails: each maximal piece of the
bytes that starts a character and does not complete it is read as one
replacement character, and so is each byte that starts none.

The reader is a machine that takes one byte at a time (`Decoder.step`); what it
holds between two bytes is the character begun so far.
-/

namespace Braced.Text.Utf8

/-! ## Writing -/

/-- The UTF-8 bytes of a text. -/
def encode (s : String) : List UInt8 :=
  s.toList.flatMap String.utf8EncodeChar

/-! ## Reading -/

/-- What stands for bytes that encode no character. -/
def replacement : Char := '\uFFFD'

/-- A character that has been begun: its leading bits, how many bytes it needs
    after the next one, and the range in which the next byte has to lie. -/
structure Begun where
  bits : Nat
  later : Nat
  low : UInt8
  high : UInt8
  deriving DecidableEq, Repr

/-- What a byte does where a character may begin: it is a character by itself,
    it begins a longer one, or it can do neither.

    The ranges of the second byte leave out overlong forms, surrogates and
    values above the last code point. -/
def opening (b : UInt8) : List Char × Option Begun :=
  if b < 0x80 then ([Char.ofNat b.toNat], none)
  else if b < 0xC2 then ([replacement], none)
  else if b < 0xE0 then ([], some ⟨b.toNat - 0xC0, 0, 0x80, 0xBF⟩)
  else if b = 0xE0 then ([], some ⟨0, 1, 0xA0, 0xBF⟩)
  else if b = 0xED then ([], some ⟨0xD, 1, 0x80, 0x9F⟩)
  else if b < 0xF0 then ([], some ⟨b.toNat - 0xE0, 1, 0x80, 0xBF⟩)
  else if b = 0xF0 then ([], some ⟨0, 2, 0x90, 0xBF⟩)
  else if b < 0xF4 then ([], some ⟨b.toNat - 0xF0, 2, 0x80, 0xBF⟩)
  else if b = 0xF4 then ([], some ⟨4, 2, 0x80, 0x8F⟩)
  else ([replacement], none)

/-- The characters that a byte completes, and what is begun after it. A byte
    that cannot go on with a begun character ends it as a replacement and is
    looked at afresh. -/
def step : Option Begun → UInt8 → List Char × Option Begun
  | none, b => opening b
  | some c, b =>
    if c.low ≤ b ∧ b ≤ c.high then
      let bits := c.bits * 64 + (b.toNat - 0x80)
      match c.later with
      | 0 => ([Char.ofNat bits], none)
      | later + 1 => ([], some ⟨bits, later, 0x80, 0xBF⟩)
    else
      let (chars, begun) := opening b
      (replacement :: chars, begun)

/-- Reads bytes with a character begun before them. A character still begun at
    the end is a replacement. -/
def decodeFrom : Option Begun → List UInt8 → List Char
  | none, [] => []
  | some _, [] => [replacement]
  | begun, b :: bs =>
    let (chars, begun') := step begun b
    chars ++ decodeFrom begun' bs

/-- The text that bytes encode, with replacements where they encode none. -/
def decode (bs : List UInt8) : String :=
  String.ofList (decodeFrom none bs)

@[simp] theorem decodeFrom_nil : decodeFrom none [] = [] := rfl

end Braced.Text.Utf8

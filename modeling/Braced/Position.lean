import Braced.Ascii

/-!
# Braced.Position

Places in a source, as a line and a column that both start at 1. Columns count
bytes, so a place is found again without knowing how the bytes encode text.

Both are numbers of 32 bits, and behind the largest one they go on at zero. So a
place is exact where its line and its column are below `2 ^ 32`, as they are in
any source of fewer than `2 ^ 32 - 1` bytes.

A place carries no file name: a source has one name, which is added where a
place is shown.
-/

namespace Braced

/-- A counter is the number that it has got to. -/
instance Position.coeNumber : CoeTail UInt32 Nat := ⟨UInt32.toNat⟩

/-- A number is counted up to, and from zero again where it is too large. -/
instance Position.coeCounter : CoeTail Nat UInt32 := ⟨UInt32.ofNat⟩

structure Position where
  line : UInt32
  column : UInt32
  deriving DecidableEq, Repr

namespace Position

/-- The place of a source's first byte. -/
def start : Position := ⟨1, 1⟩

/-- The place of what has no place in a source. -/
def nowhere : Position := ⟨0, 0⟩

instance : Inhabited Position := ⟨start⟩

/-- The place `n` bytes further on in the same line. -/
def right (p : Position) (n : Nat) : Position :=
  ⟨p.line, p.column + UInt32.ofNat n⟩

/-- The place of the byte that follows `b`, when `b` stands at `p`. -/
def after (p : Position) (b : UInt8) : Position :=
  if b = Ascii.newline then ⟨p.line + 1, 1⟩ else p.right 1

/-- The place that follows all of `bs`, when they start at `p`. -/
def afterAll (p : Position) (bs : List UInt8) : Position :=
  bs.foldl after p

@[simp] theorem afterAll_nil (p : Position) : p.afterAll [] = p := rfl

@[simp] theorem afterAll_cons (p : Position) (b : UInt8) (bs : List UInt8) :
    p.afterAll (b :: bs) = (p.after b).afterAll bs := rfl

theorem afterAll_append (p : Position) (bs cs : List UInt8) :
    p.afterAll (bs ++ cs) = (p.afterAll bs).afterAll cs :=
  List.foldl_append

/-- The place with the source's name before it, as diagnostics show it. -/
def display (file : String) (p : Position) : String :=
  file ++ ":" ++ toString p.line ++ ":" ++ toString p.column

end Position

end Braced

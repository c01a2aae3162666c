import Braced.Position

/-!
# Braced.Cursor

A place in a source together with the bytes that follow it, for walking a
source by hand.

What asks for a byte fails at the end of the source; what only looks, and what
skips, does not.
-/

namespace Braced

structure Cursor where
  position : Position
  rest : List UInt8
  deriving DecidableEq, Repr

namespace Cursor

/-- The cursor before the first byte of a source. -/
def ofSource (source : List UInt8) : Cursor :=
  ⟨.start, source⟩

def atEnd (c : Cursor) : Bool :=
  c.rest.isEmpty

/-- The next byte. -/
def current? (c : Cursor) : Option UInt8 :=
  c.rest.head?

/-- The byte that many places ahead. -/
def peek? (c : Cursor) (offset : Nat) : Option UInt8 :=
  c.rest[offset]?

def startsWith (c : Cursor) (text : List UInt8) : Bool :=
  text.isPrefixOf c.rest

/-- The cursor after the next byte. -/
def advance? (c : Cursor) : Option Cursor :=
  match c.rest with
  | [] => none
  | b :: rest => some ⟨c.position.after b, rest⟩

/-- The cursor after the next `n` bytes, or at the end where there are fewer. -/
def skip (c : Cursor) (n : Nat) : Cursor :=
  ⟨c.position.afterAll (c.rest.take n), c.rest.drop n⟩

/-- Skipping is advancing again and again. -/
theorem skip_succ {c d : Cursor} (h : c.advance? = some d) (n : Nat) :
    c.skip (n + 1) = d.skip n := by
  obtain ⟨position, rest⟩ := c
  cases rest with
  | nil => simp [advance?] at h
  | cons b rest =>
    obtain rfl : (⟨position.after b, rest⟩ : Cursor) = d := by simpa [advance?] using h
    rfl

end Cursor

end Braced

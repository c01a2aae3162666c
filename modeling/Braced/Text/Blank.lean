/-!
# Braced.Text.Blank

The characters that count as white space in text, which is the Unicode property
of that name, and trimming by it.

The language's own token separators are fewer, and are a class of bytes
(`Ascii.isBlank`). The wider class here is for text that is shown.
-/

namespace Braced.Text

/-- The characters with the Unicode property `White_Space`. -/
def isBlank (c : Char) : Bool :=
  let n := c.toNat
  (9 ≤ n && n ≤ 13) || n == 0x20 || n == 0x85 || n == 0xA0 || n == 0x1680 ||
    (0x2000 ≤ n && n ≤ 0x200A) || n == 0x2028 || n == 0x2029 || n == 0x202F ||
    n == 0x205F || n == 0x3000

/-- Drops the characters at the end that satisfy `p`. -/
def dropEndWhile (p : Char → Bool) (cs : List Char) : List Char :=
  (cs.reverse.dropWhile p).reverse

/-- Drops the blank characters at the end. -/
def trimEnd (cs : List Char) : List Char :=
  dropEndWhile isBlank cs

/-- Trimming only ever removes characters at the end. -/
theorem dropEndWhile_isPrefix (p : Char → Bool) (cs : List Char) :
    (dropEndWhile p cs).IsPrefix cs := by
  have h := List.dropWhile_suffix p (l := cs.reverse)
  simpa [dropEndWhile] using List.reverse_prefix.mpr h

end Braced.Text

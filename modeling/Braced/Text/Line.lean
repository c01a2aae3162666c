import Braced.Text.Blank

/-!
# Braced.Text.Line

The lines of a text. A line ends at a line feed, and text with no line feed is
one line, so every text has at least one.
-/

namespace Braced.Text

/-- The text of the line that comes after `n` others. -/
def lineAfter? : (n : Nat) → List Char → Option (List Char)
  | 0, cs => some (cs.takeWhile (· ≠ '\n'))
  | n + 1, cs =>
    match cs.dropWhile (· ≠ '\n') with
    | [] => none
    | _ :: rest => lineAfter? n rest

/-- A line of a text by its number, counted from 1, without the carriage
    returns at its end. -/
def line? (source : String) (number : Nat) : Option String :=
  match number with
  | 0 => none
  | n + 1 =>
    (lineAfter? n source.toList).map fun line =>
      String.ofList (dropEndWhile (· = '\r') line)

end Braced.Text

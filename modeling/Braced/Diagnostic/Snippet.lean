import Braced.Diagnostic
import Braced.Text.Blank
import Braced.Text.Line

/-!
# Braced.Diagnostic.Snippet

A diagnostic shown to whoever wrote the source: what is wrong, where, and the
line in question with a mark under the place.

The line is shown without its indentation, and the mark is moved left by as
much. Columns count bytes while the mark counts characters, so behind characters
of several bytes it stands too far to the right. No limit is set to its width; a
formatter whose widths have 16 bits stops at 65535.
-/

namespace Braced

/-- The spaces and tabs that a line begins with. -/
def Text.isIndent (c : Char) : Bool :=
  c = ' ' || c = '\t'

namespace Diagnostic

/-- The bar to the left of a line that is not from the source, below a line
    number with that many digits. -/
def bar (digits : Nat) : String :=
  String.ofList (List.replicate (digits + 1) ' ') ++ "|"

/-- A mark under the `n`-th character, and under the first one for `n = 0`. -/
def mark (n : Nat) : String :=
  String.ofList (List.replicate (n - 1) '-') ++ "^"

/-- The line of the source and the mark. -/
def snippet (line : String) (position : Position) : String :=
  let number := toString position.line
  let indent := line.toList.takeWhile Text.isIndent
  let shown := Text.trimEnd (line.toList.dropWhile Text.isIndent)
  bar number.length ++ "\n"
    ++ number ++ " | " ++ String.ofList shown ++ "\n"
    ++ bar number.length ++ " " ++ mark (position.column.toNat - indent.length) ++ "\n"

/-- The diagnostic for the source with the given name and text. The lines of
    the snippet are left out when the source has no such line. -/
def render (file source : String) (d : Diagnostic) : String :=
  "Error: " ++ d.fault.name ++ " (" ++ d.fault.tip ++ ")\n"
    ++ "-> " ++ d.position.display file ++ "\n"
    ++ match Text.line? source d.position.line.toNat with
      | some line => snippet line d.position
      | none => ""

end Diagnostic

end Braced

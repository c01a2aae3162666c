import Braced.Diagnostic.Snippet
import Braced.Proofs.Text.Lines

/-!
# Braced.Proofs.Diagnostic.Snippet

A diagnostic that is shown with a line.

The text ends with the line, behind its number and without its indentation, and with a lower
line in which a mark stands under one of its characters (`Diagnostic.MarkedBelow`).
-/

namespace Braced

open Text

/-! ## The line that is shown -/

namespace Text

/-- The indentation of a line. -/
def indent (line : String) : List Char :=
  line.toList.takeWhile isIndent

/-- What is shown of a line: it has no indentation, and no blanks at its end. -/
def shown (line : String) : List Char :=
  trimEnd (line.toList.dropWhile isIndent)

/-- The pieces of a line: its indentation, what is shown of it, and the blanks at its end. -/
structure Pieces (line before shown behind : List Char) : Prop where
  line_eq : line = before ++ shown ++ behind
  indent : ∀ c ∈ before, c = ' ' ∨ c = '\t'
  blank : ∀ c ∈ behind, isBlank c = true
  head : ∀ c ∈ shown.head?, ¬ (c = ' ' ∨ c = '\t')
  last : ∀ c ∈ shown.getLast?, isBlank c = false

theorem isIndent_iff {c : Char} : isIndent c = true ↔ c = ' ' ∨ c = '\t' := by
  simp [isIndent]

/-- Nothing is left out of a line but spaces and tabs in front, and blanks at the end. -/
theorem pieces_shown (line : String) :
    ∃ blanks, Pieces line.toList (indent line) (shown line) blanks := by
  have hrest := List.head?_dropWhile_not isIndent line.toList
  refine ⟨((line.toList.dropWhile isIndent).reverse.takeWhile isBlank).reverse, ?_, fun c hc => ?_,
    fun c hc => ?_, fun c hc => ?_, fun c hc => ?_⟩
  · have htrim : shown line ++ ((line.toList.dropWhile isIndent).reverse.takeWhile isBlank).reverse
        = line.toList.dropWhile isIndent := by
      rw [shown, trimEnd, dropEndWhile, ← List.reverse_append, List.takeWhile_append_dropWhile,
        List.reverse_reverse]
    rw [List.append_assoc, htrim]
    exact List.takeWhile_append_dropWhile.symm
  · exact isIndent_iff.mp (List.all_eq_true.mp List.all_takeWhile c hc)
  · exact List.all_eq_true.mp List.all_takeWhile c (List.mem_reverse.mp hc)
  · obtain ⟨blanks, hblanks⟩ := dropEndWhile_isPrefix isBlank (line.toList.dropWhile isIndent)
    rw [← hblanks, List.head?_append, ← trimEnd, ← shown, Option.mem_def.mp hc] at hrest
    rw [← isIndent_iff, Bool.not_eq_true]
    exact hrest
  · have hlast := List.head?_dropWhile_not isBlank (line.toList.dropWhile isIndent).reverse
    rw [shown, trimEnd, dropEndWhile, List.getLast?_reverse] at hc
    rwa [Option.mem_def.mp hc] at hlast

theorem prefix_indent_append_shown (line : String) :
    indent line ++ shown line <+: line.toList := by
  obtain ⟨blanks, hpieces⟩ := pieces_shown line
  exact ⟨blanks, hpieces.line_eq.symm⟩

theorem newline_not_mem_shown {source line : String} {n : Nat} (h : line? source n = some line) :
    '\n' ∉ shown line := by
  cases n with
  | zero => cases h
  | succ n =>
    obtain ⟨whole, hwhole, rfl⟩ := Option.map_eq_some_iff.mp h
    intro hmem
    have hline := (prefix_indent_append_shown _).subset (List.mem_append_right _ hmem)
    rw [String.toList_ofList] at hline
    exact newline_not_mem_of_lineAfter? hwhole ((dropEndWhile_isPrefix ..).subset hline)

end Text

/-! ## The mark -/

namespace Diagnostic

/-- What is shown in front of a line. -/
def gutter (p : Position) : String :=
  toString p.line ++ " | "

/-- What is shown in front of the mark. -/
def fill (line : String) (p : Position) : String :=
  bar (toString p.line).length ++ " " ++
    String.ofList (List.replicate (p.column.toNat - (indent line).length - 1) '-')

/-- A text ends with an upper line and a lower one, and in the lower one there is one mark, at the
end, with `n` characters in front of it. -/
def MarkedBelow (text upper : String) (n : Nat) : Prop :=
  ∃ above fill, text = above ++ "\n" ++ upper ++ "\n" ++ (fill ++ "^") ++ "\n" ∧
    '\n' ∉ upper.toList ∧ (∀ c ∈ fill.toList, c ∈ [' ', '|', '-']) ∧ fill.length = n

theorem MarkedBelow.append {text upper : String} {n : Nat} (h : MarkedBelow text upper n)
    (front : String) : MarkedBelow (front ++ text) upper n := by
  obtain ⟨above, fill, rfl, hupper, hfill, hlength⟩ := h
  exact ⟨front ++ above, fill, by simp only [String.append_assoc], hupper, hfill, hlength⟩

theorem newline_not_mem_gutter (p : Position) : '\n' ∉ (gutter p).toList := by
  intro hmem
  have hnumber : toString p.line = toString p.line.toNat := rfl
  have hcases : '\n' ∈ Nat.toDigits 10 p.line.toNat ∨ '\n' ∈ " | ".toList := by
    simpa [gutter, hnumber] using hmem
  rcases hcases with hdigit | hspace
  · exact absurd (Nat.isDigit_of_mem_toDigits (by omega) (by omega) hdigit) (by decide)
  · exact absurd hspace (by decide)

theorem mem_fill {line : String} {p : Position} {c : Char} (h : c ∈ (fill line p).toList) :
    c ∈ [' ', '|', '-'] := by
  have hcases : c = ' ' ∨ c = '|' ∨ c = ' ' ∨
      p.column.toNat - (indent line).length - 1 ≠ 0 ∧ c = '-' := by
    simpa [fill, bar] using h
  rcases hcases with rfl | rfl | rfl | ⟨-, rfl⟩ <;> simp

/-- The lower line begins with as many characters as the upper one has in front of what is shown
of the source. -/
theorem length_fill (line : String) (p : Position) : (fill line p).length =
    (gutter p).length + (p.column.toNat - (indent line).length - 1) := by
  have hbar : "|".length + " ".length + 1 = " | ".length := by decide
  simp only [fill, bar, gutter, String.length_append, String.length_ofList, List.length_replicate]
  omega

/-- The mark is as far right as the column says, less the indentation. -/
theorem markedBelow_snippet {line : String} (h : '\n' ∉ shown line) (p : Position) :
    MarkedBelow (snippet line p) (gutter p ++ String.ofList (shown line))
      ((gutter p).length + (p.column.toNat - (indent line).length - 1)) := by
  refine ⟨bar (toString p.line).length, fill line p, ?_, ?_, fun c hc => mem_fill hc,
    length_fill line p⟩
  · simp only [snippet, mark, fill, gutter, shown, indent, String.append_assoc]
  · rw [String.toList_append, String.toList_ofList, List.mem_append, not_or]
    exact ⟨newline_not_mem_gutter p, h⟩

theorem markedBelow_render {source line : String} {d : Diagnostic}
    (h : line? source d.position.line.toNat = some line) (file : String) :
    MarkedBelow (d.render file source) (gutter d.position ++ String.ofList (shown line))
      ((gutter d.position).length + (d.position.column.toNat - (indent line).length - 1)) := by
  rw [render, h]
  exact (markedBelow_snippet (newline_not_mem_shown h) d.position).append _

end Diagnostic

end Braced

import Braced.Proofs.Diagnostic
import Braced.Proofs.Text.Utf8

/-!
# Braced.Proofs.Diagnostic.Mark

Where the mark stands below the line of a fault.

Tokens and lexical faults begin at bytes that are not blank (`Munch.not_isBlank_of_mem_offsets`),
so a fault is never in the indentation of its line (`Position.Marks`).  The mark is moved left by
the characters of the indentation and right by the bytes of the column.  In a source that is a
text it is therefore too far right by the bytes up to the fault that do not begin a character.
-/

namespace Braced

open Munch Text

/-! ## What is read is not blank -/

namespace Munch

variable {lx : Lexicon} {source before bs : List UInt8}

/-- Something is read in front of a byte that is not blank, or in front of the end. -/
theorem not_isBlank_of_mem_offsets (hsource : source = before ++ bs) {k : Nat}
    (hk : k ∈ offsets (scan lx source.length bs)) {b : UInt8} (hb : source[k]? = some b) :
    Ascii.isBlank b = false := by
  have hrest : ∀ {first bs before} (more : Nat), source = before ++ first :: bs →
      source = (before ++ first :: bs.take more) ++ bs.drop more := by
    rintro first bs before more rfl
    simp
  have hfirst : ∀ {first bs before}, source = before ++ first :: bs →
      source[source.length - (first :: bs).length]? = some b →
      itemAt lx first bs ≠ .gap 0 → Ascii.isBlank b = false := by
    rintro first bs before rfl hb hitem
    obtain rfl : first = b := by simpa using hb
    exact Bool.not_eq_true _ ▸ fun hblank => hitem (itemAt_of_isBlank hblank)
  induction bs using scan.induct lx source.length generalizing before with
  | case1 =>
    rw [scan] at hk
    obtain rfl : k = source.length := List.mem_singleton.mp hk
    simp at hb
  | case2 first bs more hitem ih =>
    rw [scan_of_gap hitem] at hk
    exact ih (hrest more hsource) hk
  | case3 first bs kind value more hitem ih =>
    rw [scan_of_token hitem] at hk
    rcases mem_offsets_map hk with rfl | hk
    · exact hfirst hsource hb (by simp [hitem])
    · exact ih (hrest more hsource) hk
  | case4 first bs fault hitem =>
    rw [scan_of_fault hitem] at hk
    obtain rfl := List.mem_singleton.mp hk
    exact hfirst hsource hb (by simp [hitem])

end Munch

/-- The place is in a line, which has these bytes, and what stands there is not blank. -/
structure Position.Marks (p : Position) (source bytes : List UInt8) : Prop
    extends p.In source bytes where
  not_isBlank {b : UInt8} : bytes[p.column.toNat - 1]? = some b → Ascii.isBlank b = false

/-- What is in front of a byte that is not blank marks it. -/
theorem Munch.exists_placeOf_marks {source : List UInt8} {k : Nat}
    (hcountable : Position.Countable (source.take k))
    (h : ∀ b, source[k]? = some b → Ascii.isBlank b = false) :
    ∃ bytes, (placeOf source k).Marks source bytes := by
  obtain ⟨front, hcolumn, hin⟩ := Position.counted_in hcountable (source.drop k)
  rw [List.take_append_drop] at hin
  rw [placeOf_eq_counted]
  refine ⟨_, hin, fun {b} hb => h b ?_⟩
  rw [hcolumn, Nat.add_sub_cancel_left, List.getElem?_append_right (Nat.le_refl _), Nat.sub_self]
    at hb
  obtain ⟨hlt, rfl⟩ := List.getElem?_eq_some_iff.mp hb
  simpa using List.prefix_iff_getElem?.mp (List.takeWhile_prefix (l := source.drop k) _) 0 hlt

theorem Tree.exists_marks_of_mem_errors {lx : Lexicon} {source : List UInt8}
    {ds : List Diagnostic} (hlength : source.length + 1 < 2 ^ 32)
    (h : ofSource lx source = .error ds) {d : Diagnostic} (hd : d ∈ ds) :
    ∃ bytes, d.position.Marks source bytes := by
  obtain ⟨k, hk, hposition⟩ := exists_offset_of_mem_errors (Nat.lt_of_succ_lt hlength) h hd
  have htake := List.length_take_le' k source
  rw [hposition]
  exact exists_placeOf_marks (Position.countable_of_length (by omega)) fun b =>
    not_isBlank_of_mem_offsets (List.nil_append source).symm hk

/-! ## The line that is shown -/

namespace Text

/-- The bytes of an indentation are blank. -/
theorem isBlank_of_isIndent {c : Char} (h : isIndent c) {b : UInt8}
    (hb : b ∈ String.utf8EncodeChar c) : Ascii.isBlank b := by
  have hspace : String.utf8EncodeChar ' ' = [32] := by decide
  have htab : String.utf8EncodeChar '\t' = [9] := by decide
  rcases isIndent_iff.mp h with rfl | rfl
  · rw [hspace, List.mem_singleton] at hb
    rw [hb]
    decide
  · rw [htab, List.mem_singleton] at hb
    rw [hb]
    decide

/-- A byte that is not blank, and is in front of what is left out at the end of the line, is in a
character that is shown. -/
theorem exists_holdsByte_shown {line : String} {n : Nat}
    (hn : n < (Utf8.encodeAll (indent line ++ shown line)).length)
    (hb : ∀ b, (Utf8.encodeAll (indent line ++ shown line))[n]? = some b →
      Ascii.isBlank b = false) :
    ∃ k, k < (shown line).length ∧ Utf8.HoldsByte line.toList ((indent line).length + k) n := by
  obtain ⟨m, hm⟩ := Utf8.exists_holdsByte hn
  obtain ⟨c, b, hc, hbc, hbyte⟩ := hm.exists_getElem?
  have hbehind : (indent line).length ≤ m := by
    refine Nat.le_of_not_lt fun hlt => ?_
    rw [List.getElem?_append_left hlt] at hc
    have hindent : isIndent c :=
      List.all_eq_true.mp List.all_takeWhile c (List.mem_of_getElem? hc)
    have hblank := isBlank_of_isIndent hindent hbc
    rw [hb b hbyte] at hblank
    cases hblank
  obtain ⟨k, rfl⟩ := Nat.exists_eq_add_of_le hbehind
  have hlt := (List.getElem?_eq_some_iff.mp hc).1
  rw [List.length_append] at hlt
  obtain ⟨left, hline⟩ := prefix_indent_append_shown line
  exact ⟨k, Nat.lt_of_add_lt_add_left hlt, hline ▸ hm.append left⟩

/-- The line of a text with a place in its bytes has these bytes, but for what ends it. -/
theorem exists_line_of_in {source : String} {p : Position} {bytes : List UInt8}
    (h : p.In (Utf8.encode source) bytes) :
    ∃ line, line? source p.line.toNat = some line ∧ Utf8.encode line <+: bytes := by
  have hline := line?_decode h.line_eq
  rw [Utf8.decode_encode, Nat.sub_add_cancel h.line_pos] at hline
  have hbytes := h.line_eq
  rw [Utf8.encode_eq, Utf8.splitOn_encodeAll, List.getElem?_map] at hbytes
  obtain ⟨whole, -, rfl⟩ := Option.map_eq_some_iff.mp hbytes
  rw [Utf8.decode, Utf8.decodeFrom_encodeAll, String.toList_ofList] at hline
  refine ⟨_, hline, ?_⟩
  rw [Utf8.encode_eq, String.toList_ofList]
  exact Utf8.prefix_encodeAll (dropEndWhile_isPrefix ..)

end Text

/-! ## The mark -/

/-- **How far right the mark is.**  In a source that is a text, whatever is wrong is shown with
its line.  If it is in the part of the line that is shown, then it is in a character of that part,
and the mark is under the character, or behind it by as many places as there are bytes in the line,
up to the fault, that do not begin a character.  Columns are exact up to `2 ^ 32 - 1`, and the mark
is made up to a width of 65535. -/
theorem Tree.mark_behind {lx : Lexicon} {source : String} {ds : List Diagnostic}
    (hlength : (Utf8.encode source).length + 1 < 2 ^ 32)
    (h : ofSource lx (Utf8.encode source) = .error ds) {d : Diagnostic} (hd : d ∈ ds) :
    ∃ line, line? source d.position.line.toNat = some line ∧
      (d.position.column.toNat ≤ (Utf8.encodeAll (indent line ++ shown line)).length →
        d.position.column.toNat - (indent line).length ≤ 65535 →
        ∃ k, k < (shown line).length ∧
          Utf8.HoldsByte line.toList ((indent line).length + k) (d.position.column.toNat - 1) ∧
          ∀ file, Diagnostic.MarkedBelow (d.render file source)
            (Diagnostic.gutter d.position ++ String.ofList (shown line))
            ((Diagnostic.gutter d.position).length + k +
              Utf8.continuations line d.position.column.toNat)) := by
  obtain ⟨bytes, hmarks⟩ := exists_marks_of_mem_errors hlength h hd
  obtain ⟨line, hline, hbytes⟩ := exists_line_of_in hmarks.toIn
  refine ⟨line, hline, fun hcolumn _ => ?_⟩
  have hfront : Utf8.encodeAll (indent line ++ shown line) <+: bytes :=
    (Utf8.prefix_encodeAll (prefix_indent_append_shown line)).trans hbytes
  have hindex : d.position.column.toNat - 1 + 1 = d.position.column.toNat :=
    Nat.sub_add_cancel hmarks.column_pos
  obtain ⟨k, hk, hholds⟩ := exists_holdsByte_shown (hindex.le.trans hcolumn) fun b hb => by
    obtain ⟨hlt, rfl⟩ := List.getElem?_eq_some_iff.mp hb
    exact hmarks.not_isBlank (List.prefix_iff_getElem?.mp hfront _ hlt)
  have hbehind := hholds.continuations_add
  rw [hindex] at hbehind
  have hplace : d.position.column.toNat - (indent line).length - 1 =
      k + Utf8.continuations line d.position.column.toNat := by
    omega
  refine ⟨k, hk, hholds, fun file => ?_⟩
  rw [Nat.add_assoc, ← hplace]
  exact Diagnostic.markedBelow_render hline file

/-- The text `a: int = {- é -} #;`, where the comment has a character of two bytes.  An expression
is missing at `#`, which is the character number 17, and the mark stands under the `;` behind. -/
theorem Tree.mark_behind_comment :
    ∃ ds d, ofSource .standard (Utf8.encode "a: int = {- é -} #;") = .error ds ∧ d ∈ ds ∧
      d.position = ⟨1, 19⟩ ∧ Utf8.HoldsByte "a: int = {- é -} #;".toList 17 18 ∧
      Diagnostic.MarkedBelow (d.render "a.sc" "a: int = {- é -} #;")
        ("1 | " ++ "a: int = {- é -} #;") ("1 | ".length + 17 + 1) := by
  obtain ⟨tokens, htokens, hread⟩ := exists_ok_of_toOption
    (r := Token.ofSource .standard (Utf8.encode "a: int = {- é -} #;"))
    (P := fun tokens => (ofTokens tokens).2 = [⟨.expectedExpression .pound, ⟨1, 19⟩⟩])
    (fun tokens => (ofTokens tokens).2) _ (by decide +kernel) fun _ _ hfaults => hfaults
  have hsource := ofSource_of_faults htokens (by rw [hread]; decide)
  have hd : ⟨.expectedExpression .pound, ⟨1, 19⟩⟩ ∈ (ofTokens tokens).2 := by
    rw [hread]
    exact List.mem_singleton_self _
  obtain ⟨line, hline, hmark⟩ := mark_behind (by decide +kernel) hsource hd
  obtain rfl : "a: int = {- é -} #;" = line :=
    Option.some.inj (Eq.trans (by decide +kernel) hline)
  have hindent : indent "a: int = {- é -} #;" = [] := by decide +kernel
  have hshown : shown "a: int = {- é -} #;" = "a: int = {- é -} #;".toList := by decide +kernel
  have hbehind : Utf8.continuations "a: int = {- é -} #;" 19 = 1 := by decide +kernel
  obtain ⟨k, -, hholds, hrender⟩ := hmark (by rw [hindent, hshown]; decide +kernel)
    (by rw [hindent]; decide)
  change Utf8.HoldsByte _ _ 18 at hholds
  rw [hindent, List.length_nil, Nat.zero_add] at hholds
  obtain rfl : 17 = k := Nat.add_left_cancel (n := 1) (hbehind ▸ hholds.continuations_add).symm
  have hmarked := hrender "a.sc"
  change Diagnostic.MarkedBelow _ _ (_ + Utf8.continuations _ 19) at hmarked
  rw [hshown, String.ofList_toList, hbehind] at hmarked
  exact ⟨_, _, hsource, hd, rfl, hholds, hmarked⟩

end Braced

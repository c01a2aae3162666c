import Braced.Proofs.Compile
import Braced.Proofs.Diagnostic.Snippet
import Braced.Proofs.Parse.Follows
import Braced.Proofs.Token.Places

/-!
# Braced.Proofs.Diagnostic

Where faults stand.

The place of a token, and of a lexical fault, is counted off from the bytes in front of it,
so it is in a line of the source, or right behind one (`Position.In`).  What else is wrong
stands where a token does.  Since text has the lines of the bytes that it is decoded from,
each fault is shown with its line.
-/

namespace Braced

open Munch

/-! ## Places in a source -/

namespace Position

/-- The place is in a line of the source, which has the bytes `line`, or right behind. -/
structure In (p : Position) (source line : List UInt8) : Prop where
  line_pos : 1 ≤ p.line.toNat
  line_le : p.line.toNat ≤ source.count Ascii.newline + 1
  line_eq : (source.splitOn Ascii.newline)[p.line.toNat - 1]? = some line
  column_pos : 1 ≤ p.column.toNat
  column_le : p.column.toNat ≤ line.length + 1

theorem length_splitOn (bs : List UInt8) :
    (bs.splitOn Ascii.newline).length = bs.count Ascii.newline + 1 := by
  induction bs with
  | nil => simp
  | cons b bs ih =>
    rw [List.splitOn_cons_eq_if_modifyHead]
    split
    · next h => simp [ih, List.count_cons, h]
    · next h => simp [ih, List.count_cons, h]

/-- The first line goes up to the first newline. -/
theorem splitOn_zero (bs : List UInt8) :
    (bs.splitOn Ascii.newline)[0]? = some (bs.takeWhile (· ≠ Ascii.newline)) := by
  rcases Text.line_or_lines bs with hbs | ⟨line, rest, hline, rfl⟩
  · rw [List.splitOn_eq_singleton hbs, List.takeWhile_eq_self_iff.mpr (Text.ne_of_not_mem hbs)]
    rfl
  · rw [List.splitOn_append_cons_self_of_not_mem hline,
      List.takeWhile_append_of_pos (Text.ne_of_not_mem hline),
      List.takeWhile_cons_of_neg (by simp), List.append_nil]
    rfl

/-- Behind bytes without a newline a place is in the line that they begin. -/
theorem splitOn_zero_append {tail : List UInt8} (h : Ascii.newline ∉ tail) (rest : List UInt8) :
    ((tail ++ rest).splitOn Ascii.newline)[0]? =
      some (tail ++ rest.takeWhile (· ≠ Ascii.newline)) := by
  rw [splitOn_zero, List.takeWhile_append_of_pos (Text.ne_of_not_mem h)]

/-- The line behind a newline has the number that is counted for it. -/
theorem splitOn_append_newline (head : List UInt8) {tail : List UInt8}
    (h : Ascii.newline ∉ tail) (rest : List UInt8) :
    ((head ++ Ascii.newline :: (tail ++ rest)).splitOn Ascii.newline)[lineOf head]? =
      some (tail ++ rest.takeWhile (· ≠ Ascii.newline)) := by
  have hindex : lineOf head = (head.splitOn Ascii.newline).length := by
    rw [length_splitOn, lineOf, Nat.add_comm]
  rw [List.splitOn_append_cons_self, hindex, List.getElem?_append_right (Nat.le_refl _),
    Nat.sub_self]
  exact splitOn_zero_append h rest

/-- **A place that is counted off is in a line**, or right behind: it parts the line into what
lies in front of it and what comes next. -/
theorem counted_in {before : List UInt8} (h : Countable before) (rest : List UInt8) :
    ∃ tail, (counted before).column.toNat = 1 + tail.length ∧
      (counted before).In (before ++ rest) (tail ++ rest.takeWhile (· ≠ Ascii.newline)) := by
  obtain ⟨hline, hcolumn⟩ := exact_counted_iff.mpr h
  have hle : lineOf before ≤ (before ++ rest).count Ascii.newline + 1 := by
    rw [lineOf, List.count_append]
    omega
  by_cases hbefore : Ascii.newline ∈ before
  · -- the line begins behind the last newline in front of the place
    obtain ⟨reversed, head, hreverse, hreversed⟩ :=
      List.eq_append_cons_of_mem (List.mem_reverse.mpr hbefore)
    obtain rfl : before = head.reverse ++ Ascii.newline :: reversed.reverse := by
      simpa using congrArg List.reverse hreverse
    have htail : Ascii.newline ∉ reversed.reverse := by rwa [List.mem_reverse]
    have hcount : lineOf (head.reverse ++ Ascii.newline :: reversed.reverse) =
        lineOf head.reverse + 1 := by
      rw [lineOf_append, List.count_cons_self, List.count_eq_zero.mpr htail]
    rw [columnOf_append_newline, columnOf_of_not_mem htail] at hcolumn
    refine ⟨reversed.reverse, hcolumn, ?_, hline.le.trans hle, ?_, ?_, ?_⟩
    · rw [hline, hcount]
      exact Nat.le_add_left ..
    · rw [hline, hcount, Nat.add_sub_cancel, List.append_assoc, List.cons_append]
      exact splitOn_append_newline _ htail rest
    · rw [hcolumn]
      exact Nat.le_add_right ..
    · rw [hcolumn, List.length_append]
      omega
  · have hcount : lineOf before = 1 := by
      rw [lineOf, List.count_eq_zero.mpr hbefore]
    rw [columnOf_of_not_mem hbefore] at hcolumn
    refine ⟨before, hcolumn, (hline.trans hcount).ge, hline.le.trans hle, ?_, ?_, ?_⟩
    · rw [hline, hcount]
      exact splitOn_zero_append hbefore rest
    · rw [hcolumn]
      exact Nat.le_add_right ..
    · rw [hcolumn, List.length_append]
      omega

end Position

/-! ## Places of tokens and of lexical faults -/

namespace Token

variable {lx : Lexicon} {source : List UInt8}

/-- Each token stands where something was read. -/
theorem exists_offset_of_ofSource (hnesting : nesting lx source < 2 ^ 32) {tokens : List Token}
    (h : ofSource lx source = .ok tokens) {t : Token} (ht : t ∈ tokens) :
    ∃ k ∈ offsets (scan lx source.length source), t.position = placeOf source k := by
  obtain ⟨lexemes, hscan, rfl⟩ := lexemes_of_ofSource hnesting h
  obtain ⟨l, hl, rfl⟩ := List.mem_map.mp ht
  exact ⟨l.offset, hscan ▸ List.mem_map_of_mem hl, rfl⟩

/-- So does the fault that a source cannot be read for. -/
theorem exists_offset_of_ofSource_error (hnesting : nesting lx source < 2 ^ 32) {d : Diagnostic}
    (h : ofSource lx source = .error d) :
    ∃ k ∈ offsets (scan lx source.length source), d.position = placeOf source k := by
  rw [ofSource_eq_located hnesting] at h
  cases hscan : scan lx source.length source with
  | error e =>
    rw [hscan] at h
    obtain rfl := Except.error.inj h
    exact ⟨e.2, List.mem_singleton_self _, rfl⟩
  | ok lexemes =>
    rw [hscan] at h
    cases h

/-- The tokens of a source end with its end, so that none has to be added. -/
theorem terminated_of_ofSource {tokens : List Token} (h : ofSource lx source = .ok tokens) :
    Builder.terminated tokens = tokens := by
  have hfinish : ∀ r : Reader, r.finish lx = .ok tokens →
      Builder.terminated tokens = tokens := by
    intro r hr
    obtain ⟨inner, rfl⟩ := Reader.finish_ok hr
    simp [Builder.terminated]
  unfold ofSource at h
  split at h
  · exact hfinish _ h
  · cases h

end Token

/-! ## All that is wrong with a source -/

namespace Tree

variable {lx : Lexicon} {source : List UInt8} {ds : List Diagnostic}

/-- What is wrong with a source is a lexical fault, or all that is wrong with its tokens. -/
theorem errors_of_ofSource (h : ofSource lx source = .error ds) :
    (∃ d, Token.ofSource lx source = .error d ∧ ds = [d]) ∨
      ∃ tokens, Token.ofSource lx source = .ok tokens ∧ ds = (ofTokens tokens).2 := by
  unfold ofSource at h
  split at h
  · next tokens htokens =>
    unfold ofTokens? at h
    split at h
    · cases h
    · next hread =>
      obtain rfl := Except.error.inj h
      exact .inr ⟨tokens, htokens, by rw [hread]⟩
  · next d hlexical =>
    obtain rfl := Except.error.inj h
    exact .inl ⟨d, hlexical, rfl⟩

/-- Tokens with which something is wrong are no tree. -/
theorem ofSource_of_faults {tokens : List Token} (htokens : Token.ofSource lx source = .ok tokens)
    (h : (ofTokens tokens).2 ≠ []) : ofSource lx source = .error (ofTokens tokens).2 := by
  rw [ofSource, htokens]
  show ofTokens? tokens = _
  unfold ofTokens?
  split
  · next hread =>
    rw [hread] at h
    exact absurd rfl h
  · next hread => rw [hread]

/-- What is wrong with the tokens of a source stands where one of them does. -/
theorem exists_token_of_mem_errors (h : ofSource lx source = .error ds) {tokens : List Token}
    (htokens : Token.ofSource lx source = .ok tokens) {d : Diagnostic} (hd : d ∈ ds) :
    ∃ t ∈ tokens, t.position = d.position := by
  rcases errors_of_ofSource h with ⟨_, hlexical, -⟩ | ⟨_, hread, rfl⟩
  · rw [htokens] at hlexical
    cases hlexical
  · cases htokens.symm.trans hread
    rw [← Token.terminated_of_ofSource htokens]
    exact faults_follow tokens d hd

/-- Whatever is wrong with a source stands where something was read. -/
theorem exists_offset_of_mem_errors (hlength : source.length < 2 ^ 32)
    (h : ofSource lx source = .error ds) {d : Diagnostic} (hd : d ∈ ds) :
    ∃ k ∈ offsets (scan lx source.length source), d.position = placeOf source k := by
  have hnesting : nesting lx source < 2 ^ 32 := nesting_lt lx (by omega)
  rcases errors_of_ofSource h with ⟨_, hlexical, rfl⟩ | ⟨tokens, hread, -⟩
  · rw [List.mem_singleton.mp hd]
    exact Token.exists_offset_of_ofSource_error hnesting hlexical
  · obtain ⟨t, ht, hposition⟩ := exists_token_of_mem_errors h hread hd
    exact hposition ▸ Token.exists_offset_of_ofSource hnesting hread ht

/-- Behind a name and `n` spaces a semicolon is missing.  That is reported at the end of the line,
whose column is `n + 2` only up to `n = 2 ^ 32 - 3`: with one more space it is zero. -/
theorem ofSource_word_spaces (n : Nat) :
    ofSource .standard (120 :: List.replicate n 32) =
      .error [⟨.undeclaredIdentifier "x", ⟨1, 1⟩⟩,
        ⟨.unexpectedToken .semicolon .eof, ⟨1, UInt32.ofNat (2 + n)⟩⟩] ∧
    UInt32.ofNat (2 + (2 ^ 32 - 2)) = 0 := by
  have hword : itemAt .standard 120 (List.replicate n 32) =
      .token .identifier (.identifier "x") 0 := by
    cases n <;> rfl
  have htokens : Token.ofSource .standard (120 :: List.replicate n 32) =
      .ok [⟨.identifier, .identifier "x", ⟨1, 1⟩⟩, ⟨.eof, .none, ⟨1, UInt32.ofNat (2 + n)⟩⟩] := by
    rw [UInt32.ofNat_add]
    refine (Reader.resume_token hword).trans ?_
    rw [Reader.skip_zero, Reader.resume_spaces]
    rfl
  exact ⟨ofSource_of_faults htokens (List.cons_ne_nil _ _), rfl⟩

end Tree

end Braced

import Braced.Ascii
import Braced.Text.Line
import Braced.Text.Utf8
import Mathlib.Data.List.TakeWhile

/-!
# Braced.Proofs.Text.Lines

The lines of decoded text.

A newline is a character by itself, whatever has been begun in front of it, and what is
begun never becomes a newline (`Begun.Long`).  So a text breaks into lines where the bytes
do that it was decoded from (`line?_decode`), whether these are UTF-8 or not.
-/

namespace Braced.Text

namespace Utf8

variable {b : UInt8} {bs rest : List UInt8} {begun : Option Begun}

/-! ## Characters beyond ASCII -/

/-- What is begun goes on with bytes beyond ASCII, and becomes a character beyond ASCII: it
has leading bits already, or its next byte adds some. -/
structure Begun.Long (c : Begun) : Prop where
  low_le : 0x80 ≤ c.low.toNat
  bits : 2 ≤ c.bits ∨ c.later ≠ 0 ∧ 2 ≤ c.bits * 64 + (c.low.toNat - 0x80)

/-- What a byte begins is beyond ASCII. -/
theorem long_of_opening {c : Begun} (h : (opening b).2 = some c) : c.Long := by
  have hlong : ∀ {begun : Begun}, some begun = some c → begun.Long → c.Long := by
    intro begun hc hlong
    exact Option.some.inj hc ▸ hlong
  unfold opening at h
  split at h
  · cases h
  split at h
  · cases h
  split at h
  · next hle _ =>
    have hle : 0xC2 ≤ b.toNat := UInt8.le_iff_toNat_le.mp (UInt8.not_lt.mp hle)
    exact hlong h ⟨Nat.le_refl 0x80, .inl (show 2 ≤ b.toNat - 0xC0 by omega)⟩
  split at h
  · exact hlong h ⟨by decide, .inr ⟨by decide, by decide⟩⟩
  split at h
  · exact hlong h ⟨by decide, .inl (by decide)⟩
  split at h
  · next hlt hne _ _ =>
    have hlt : 0xE0 ≤ b.toNat := UInt8.le_iff_toNat_le.mp (UInt8.not_lt.mp hlt)
    have hne : b.toNat ≠ 0xE0 := fun heq => hne (UInt8.toNat_inj.mp heq)
    have hbits : 2 ≤ (b.toNat - 0xE0) * 64 := by omega
    exact hlong h ⟨Nat.le_refl 0x80, .inr ⟨Nat.one_ne_zero, Nat.le_add_right_of_le hbits⟩⟩
  split at h
  · exact hlong h ⟨by decide, .inr ⟨by decide, by decide⟩⟩
  split at h
  · next hlt hne _ =>
    have hlt : 0xF0 ≤ b.toNat := UInt8.le_iff_toNat_le.mp (UInt8.not_lt.mp hlt)
    have hne : b.toNat ≠ 0xF0 := fun heq => hne (UInt8.toNat_inj.mp heq)
    have hbits : 2 ≤ (b.toNat - 0xF0) * 64 := by omega
    exact hlong h ⟨Nat.le_refl 0x80, .inr ⟨Nat.succ_ne_zero 1, Nat.le_add_right_of_le hbits⟩⟩
  split at h
  · exact hlong h ⟨by decide, .inl (by decide)⟩
  · cases h

/-! ## Newlines -/

theorem newline_ne_ofNat {n : Nat} (h : n ≠ 10) : '\n' ≠ Char.ofNat n := by
  by_cases hvalid : n.isValidChar
  · have hvalue : (Char.ofNat n).toNat = n := by
      rw [Char.ofNat, dif_pos hvalid]
      rfl
    exact fun heq => h (hvalue.symm.trans (congrArg Char.toNat heq).symm)
  · have hvalue : Char.ofNat n = '\x00' := by
      rw [Char.ofNat, dif_neg hvalid]
      rfl
    rw [hvalue]
    decide

theorem opening_newline : opening Ascii.newline = (['\n'], none) := by decide

/-- No other byte is a newline by itself. -/
theorem newline_not_mem_opening (hb : b ≠ Ascii.newline) : '\n' ∉ (opening b).1 := by
  have hchar : '\n' ≠ Char.ofNat b.toNat :=
    newline_ne_ofNat fun heq => hb (UInt8.toNat_inj.mp heq)
  unfold opening
  split
  · simpa using hchar
  repeat' (split <;> try simp [replacement])

/-- A newline ends what is begun, and is a character by itself. -/
theorem step_newline {c : Begun} (hc : c.Long) :
    step (some c) Ascii.newline = ([replacement, '\n'], none) := by
  have hlow : ¬ (c.low ≤ Ascii.newline ∧ Ascii.newline ≤ c.high) := by
    intro h
    have hle : c.low.toNat ≤ 10 := UInt8.le_iff_toNat_le.mp h.1
    have hlow := hc.low_le
    omega
  simp only [step, if_neg hlow, opening_newline]

/-- A byte that goes on with a character completes one beyond ASCII, or leads on to one. -/
theorem step_of_mem {c : Begun} (hc : c.Long) (hmem : c.low ≤ b ∧ b ≤ c.high) :
    '\n' ∉ (step (some c) b).1 ∧ ∀ c' ∈ (step (some c) b).2, c'.Long := by
  have hle : c.low.toNat ≤ b.toNat := UInt8.le_iff_toNat_le.mp hmem.1
  have hlow := hc.low_le
  have hbits := hc.bits
  simp only [step, if_pos hmem]
  cases hlater : c.later with
  | zero =>
    have hbig : 2 ≤ c.bits := hbits.resolve_right fun h => h.1 hlater
    refine ⟨?_, fun c' h => by cases h⟩
    simpa using newline_ne_ofNat (n := c.bits * 64 + (b.toNat - 0x80)) (by omega)
  | succ later =>
    refine ⟨by simp, fun c' h => ?_⟩
    obtain rfl := Option.some.inj h
    have hnext : 2 ≤ c.bits * 64 + (b.toNat - 0x80) := by omega
    exact ⟨Nat.le_refl 0x80, .inl hnext⟩

/-- A byte other than a newline adds none, and what is begun stays beyond ASCII. -/
theorem step_of_ne_newline (hb : b ≠ Ascii.newline) (hbegun : ∀ c ∈ begun, c.Long) :
    '\n' ∉ (step begun b).1 ∧ ∀ c ∈ (step begun b).2, c.Long := by
  cases begun with
  | none => exact ⟨newline_not_mem_opening hb, fun c h => long_of_opening h⟩
  | some c =>
    by_cases hmem : c.low ≤ b ∧ b ≤ c.high
    · exact step_of_mem (hbegun c rfl) hmem
    · simp only [step, if_neg hmem]
      refine ⟨?_, fun c' h => long_of_opening h⟩
      have hnewline := newline_not_mem_opening hb
      simpa [replacement] using hnewline

theorem decodeFrom_cons : decodeFrom begun (b :: bs) =
    (step begun b).1 ++ decodeFrom (step begun b).2 bs := by
  cases begun <;> rfl

/-- Bytes without newlines decode to characters without. -/
theorem newline_not_mem_decodeFrom (hbegun : ∀ c ∈ begun, c.Long) (h : Ascii.newline ∉ bs) :
    '\n' ∉ decodeFrom begun bs := by
  induction bs generalizing begun with
  | nil => cases begun <;> simp [decodeFrom, replacement]
  | cons b bs ih =>
    rw [List.mem_cons, not_or] at h
    obtain ⟨hchars, hlong⟩ := step_of_ne_newline (Ne.symm h.1) hbegun
    rw [decodeFrom_cons, List.mem_append, not_or]
    exact ⟨hchars, ih hlong h.2⟩

/-- **A newline parts what is decoded**: what comes in front of it is decoded as if it were
all, and so is what comes behind. -/
theorem decodeFrom_append_newline (hbegun : ∀ c ∈ begun, c.Long) (h : Ascii.newline ∉ bs) :
    decodeFrom begun (bs ++ Ascii.newline :: rest) =
      decodeFrom begun bs ++ '\n' :: decodeFrom none rest := by
  induction bs generalizing begun with
  | nil =>
    cases begun with
    | none => rfl
    | some c => simp [decodeFrom, step_newline (hbegun c rfl)]
  | cons b bs ih =>
    rw [List.mem_cons, not_or] at h
    obtain ⟨-, hlong⟩ := step_of_ne_newline (Ne.symm h.1) hbegun
    rw [List.cons_append, decodeFrom_cons, decodeFrom_cons, ih hlong h.2, List.append_assoc]

end Utf8

/-! ## Lines -/

open Utf8

/-- What is in a line does not end it. -/
theorem ne_of_not_mem {α : Type} [DecidableEq α] {line : List α} {stop : α} (h : stop ∉ line) :
    ∀ a ∈ line, decide (a ≠ stop) := by
  intro a ha
  simpa using ne_of_mem_of_not_mem ha h

/-- Bytes are a single line, or begin with one. -/
theorem line_or_lines (bs : List UInt8) : Ascii.newline ∉ bs ∨
    ∃ line rest, Ascii.newline ∉ line ∧ bs = line ++ Ascii.newline :: rest := by
  by_cases h : Ascii.newline ∈ bs
  · obtain ⟨line, rest, hbs, hline⟩ := List.eq_append_cons_of_mem h
    exact .inr ⟨line, rest, hline, hbs⟩
  · exact .inl h

section

variable {line rest : List Char} (h : '\n' ∉ line)

include h

/-- A text without newlines is its only line. -/
theorem lineAfter?_of_not_mem (n : Nat) : lineAfter? n line = [line][n]? := by
  have hline := ne_of_not_mem h
  cases n with
  | zero => rw [lineAfter?, List.takeWhile_eq_self_iff.mpr hline, List.getElem?_cons_zero]
  | succ n => rw [lineAfter?, List.dropWhile_eq_nil_iff.mpr hline, List.getElem?_cons_succ,
      List.getElem?_nil]

/-- A line comes in front of those of the rest. -/
theorem lineAfter?_append (n : Nat) : lineAfter? n (line ++ '\n' :: rest) =
    if n = 0 then some line else lineAfter? (n - 1) rest := by
  have hline := ne_of_not_mem h
  cases n with
  | zero =>
    rw [lineAfter?, List.takeWhile_append_of_pos hline, List.takeWhile_cons_of_neg (by simp),
      List.append_nil, if_pos rfl]
  | succ n =>
    rw [lineAfter?, List.dropWhile_append_of_pos hline, List.dropWhile_cons_of_neg (by simp),
      if_neg n.succ_ne_zero]
    rfl

end

/-- A line ends in front of a newline. -/
theorem newline_not_mem_of_lineAfter? {n : Nat} {cs line : List Char}
    (h : lineAfter? n cs = some line) : '\n' ∉ line := by
  induction n generalizing cs with
  | zero =>
    obtain rfl := Option.some.inj h
    intro hmem
    simpa using List.all_eq_true.mp List.all_takeWhile _ hmem
  | succ n ih =>
    rw [lineAfter?] at h
    split at h
    · cases h
    · exact ih h

/-- **Decoded text has the lines of its bytes**: each is what one line of the bytes is
decoded to. -/
theorem lineAfter?_decodeFrom (n : Nat) (bs : List UInt8) : lineAfter? n (decodeFrom none bs) =
    (bs.splitOn Ascii.newline)[n]?.map (decodeFrom none) := by
  have hnone : ∀ c ∈ (none : Option Begun), c.Long := fun c h => by cases h
  rcases line_or_lines bs with hbs | ⟨line, rest, hline, rfl⟩
  · rw [lineAfter?_of_not_mem (newline_not_mem_decodeFrom hnone hbs),
      List.splitOn_eq_singleton hbs]
    cases n <;> rfl
  · -- the first line is taken off the text and off the bytes
    rw [decodeFrom_append_newline hnone hline,
      lineAfter?_append (newline_not_mem_decodeFrom hnone hline),
      List.splitOn_append_cons_self_of_not_mem hline]
    cases n with
    | zero => rfl
    | succ n => exact lineAfter?_decodeFrom n rest

/-- A line of decoded text by its number. -/
theorem line?_decode {bs line : List UInt8} {n : Nat}
    (h : (bs.splitOn Ascii.newline)[n]? = some line) :
    line? (decode bs) (n + 1) =
      some (String.ofList (dropEndWhile (· = '\r') (decode line).toList)) := by
  rw [line?, decode, String.toList_ofList, lineAfter?_decodeFrom, h, decode, String.toList_ofList]
  rfl

end Braced.Text

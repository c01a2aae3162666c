import Braced.Proofs.Token.Munch

/-!
# Braced.Proofs.Token.Longest

The operator that is found at the front of a text is the longest one there
(`Lexicon.longestOperator_eq_longestIn`), whatever the limit from which it is
looked for and whatever the order of the table.
-/

namespace Braced

open Munch

/-- What the longest entry is among those that are the first bytes of `text` and
have at most `limit` of them. -/
def Lexicon.IsLongest (table : List (List UInt8 × TokenKind)) (text : List UInt8) (limit : Nat) :
    Option (TokenKind × Nat) → Prop
  | some (kind, n) => 0 < n ∧ n ≤ limit ∧ find? (text.take n) table = some kind ∧
    ∀ m, n < m → m ≤ limit → find? (text.take m) table = none
  | none => ∀ m, 0 < m → m ≤ limit → find? (text.take m) table = none

namespace Lexicon

variable {table : List (List UInt8 × TokenKind)} {text : List UInt8} {limit : Nat}

/-- Only one answer is right. -/
theorem IsLongest.unique {r r' : Option (TokenKind × Nat)} (h : IsLongest table text limit r)
    (h' : IsLongest table text limit r') : r = r' := by
  cases r with
  | none =>
    cases r' with
    | none => rfl
    | some found =>
      obtain ⟨hpos, hle, hfound, -⟩ := h'
      rw [h _ hpos hle] at hfound
      cases hfound
  | some found =>
    obtain ⟨hpos, hle, hfound, hlonger⟩ := h
    cases r' with
    | none =>
      rw [h' _ hpos hle] at hfound
      cases hfound
    | some found' =>
      obtain ⟨hpos', hle', hfound', hlonger'⟩ := h'
      obtain hlt | heq | hgt := Nat.lt_trichotomy found.2 found'.2
      · rw [hlonger _ hlt hle'] at hfound'
        cases hfound'
      · rw [← heq, hfound] at hfound'
        rw [Prod.ext (Option.some.inj hfound') heq]
      · rw [hlonger' _ hgt hle] at hfound
        cases hfound

/-- Going down from the limit finds the longest entry. -/
theorem isLongest_longestUpTo : IsLongest table text limit (longestUpTo table text limit) := by
  induction limit with
  | zero =>
    intro m hpos hle
    omega
  | succ limit ih =>
    unfold longestUpTo
    split
    · next kind hkind =>
      refine ⟨by omega, by omega, hkind, ?_⟩
      intro m hlt hle
      omega
    · next hnone =>
      have hlast : ∀ m, limit < m → m ≤ limit + 1 → find? (text.take m) table = none := by
        intro m hlt hle
        rw [show m = limit + 1 by omega]
        exact hnone
      cases h : longestUpTo table text limit with
      | none =>
        rw [h] at ih
        intro m hpos hle
        by_cases hm : m ≤ limit
        · exact ih m hpos hm
        · exact hlast m (by omega) hle
      | some found =>
        rw [h] at ih
        obtain ⟨hpos, hn, hfound, hlonger⟩ := ih
        refine ⟨hpos, by omega, hfound, ?_⟩
        intro m hlt hle
        by_cases hm : m ≤ limit
        · exact hlonger m hlt hm
        · exact hlast m (by omega) hle

/-- A first entry counts for the bytes that it consists of. -/
theorem find?_take_cons {key : List UInt8} {kind : TokenKind} {n : Nat} (hle : n ≤ text.length)
    (hne : ¬ (key <+: text ∧ key.length = n)) :
    find? (text.take n) ((key, kind) :: table) = find? (text.take n) table := by
  have hkey : key ≠ text.take n := by
    rintro rfl
    exact hne ⟨List.take_prefix .., List.length_take_of_le hle⟩
  simp [find?, hkey]

/-- Going through the table finds the longest entry. -/
theorem isLongest_longestIn : IsLongest table text text.length (longestIn text table) := by
  induction table with
  | nil =>
    intro m _ _
    rfl
  | cons entry table ih =>
    obtain ⟨key, kind⟩ := entry
    simp only [longestIn]
    split
    · next hguard =>
      obtain ⟨hkey, hfront, hall⟩ := hguard
      rw [List.isPrefixOf_iff_prefix] at hfront
      refine ⟨List.length_pos_iff.mpr hkey, hfront.length_le, ?_, ?_⟩
      · rw [← List.prefix_iff_eq_take.mp hfront]
        simp [find?]
      · intro m hlt hle
        rw [find?_take_cons hle (by omega)]
        cases hlater : longestIn text table with
        | none =>
          rw [hlater] at ih
          exact ih m (by omega) hle
        | some found =>
          rw [hlater] at ih hall
          have hshort : found.2 ≤ key.length := by simpa using hall
          exact ih.2.2.2 m (by omega) hle
    · next hguard =>
      have hother : ∀ m, 0 < m → m ≤ text.length → (longestIn text table).all (·.2 ≤ m) →
          find? (text.take m) ((key, kind) :: table) = find? (text.take m) table := by
        intro m hpos hle hall
        refine find?_take_cons hle ?_
        rintro ⟨hfront, rfl⟩
        exact hguard ⟨List.length_pos_iff.mp hpos, List.isPrefixOf_iff_prefix.mpr hfront, hall⟩
      cases hlater : longestIn text table with
      | none =>
        rw [hlater] at ih hother
        intro m hpos hle
        rw [hother m hpos hle rfl]
        exact ih m hpos hle
      | some found =>
        rw [hlater] at ih hother
        obtain ⟨hpos, hn, hfound, hlonger⟩ := ih
        refine ⟨hpos, hn, ?_, ?_⟩
        · rw [hother _ hpos hn (by simp), hfound]
        · intro m hlt hle
          rw [hother m (by omega) hle (by simpa using Nat.le_of_lt hlt)]
          exact hlonger m hlt hle

/-- Nothing is found of more bytes than the longest entry has. -/
theorem find?_take_eq_none (htable : ∀ entry ∈ table, entry.1.length ≤ limit) {n : Nat}
    (hlt : limit < n) (hle : n ≤ text.length) : find? (text.take n) table = none := by
  cases hfound : find? (text.take n) table with
  | none => rfl
  | some kind =>
    have hshort := htable _ (mem_of_find? hfound)
    rw [List.length_take_of_le hle] at hshort
    omega

/-- It is enough to look for what is no longer than the entries. -/
theorem IsLongest.of_min (htable : ∀ entry ∈ table, entry.1.length ≤ limit)
    {r : Option (TokenKind × Nat)} (h : IsLongest table text (min limit text.length) r) :
    IsLongest table text text.length r := by
  cases r with
  | none =>
    intro m hpos hle
    by_cases hm : m ≤ limit
    · exact h m hpos (by omega)
    · exact find?_take_eq_none htable (by omega) hle
  | some found =>
    obtain ⟨hpos, hn, hfound, hlonger⟩ := h
    refine ⟨hpos, by omega, hfound, ?_⟩
    intro m hlt hle
    by_cases hm : m ≤ limit
    · exact hlonger m hlt (by omega)
    · exact find?_take_eq_none htable (by omega) hle

/-- **The longest operator is found**, wherever the search starts. -/
theorem longestOperator_eq_longestIn (lx : Lexicon) (text : List UInt8) :
    lx.longestOperator text = longestIn text lx.operators :=
  (isLongest_longestUpTo.of_min lx.length_le).unique isLongest_longestIn

end Lexicon

end Braced

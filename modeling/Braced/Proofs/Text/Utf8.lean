import Braced.Proofs.Text.Lines

/-!
# Braced.Proofs.Text.Utf8

Text is what its bytes are read as.

A character of several bytes has a first one that begins it, and the others carry six bits each
(`Utf8.tail`).  Reading puts these together again (`Utf8.decode_encode`), so no two texts have
the same bytes (`Utf8.encode_inj`).  And a text breaks into lines where its bytes do
(`Utf8.splitOn_encodeAll`).
-/

namespace Braced.Text.Utf8

variable {bs : List UInt8}

/-! ## A character and its bytes -/

/-- The byte that carries the last six bits of a number. -/
def tail (n : Nat) : UInt8 :=
  UInt8.ofNat (n % 64 + 0x80)

theorem toNat_tail (n : Nat) : (tail n).toNat = n % 64 + 0x80 :=
  UInt8.toNat_ofNat_of_lt' (by show n % 64 + 0x80 < 256; omega)

/-- The bytes of a character by its number. -/
theorem encodeChar_cases (c : Char) :
    c.toNat < 0x80 ∧ String.utf8EncodeChar c = [UInt8.ofNat c.toNat] ∨
    0x80 ≤ c.toNat ∧ c.toNat < 0x800 ∧
      String.utf8EncodeChar c = [UInt8.ofNat (c.toNat / 64 % 32 + 0xC0), tail c.toNat] ∨
    0x800 ≤ c.toNat ∧ c.toNat < 0x10000 ∧
      String.utf8EncodeChar c = [UInt8.ofNat (c.toNat / 4096 % 16 + 0xE0), tail (c.toNat / 64),
        tail c.toNat] ∨
    0x10000 ≤ c.toNat ∧
      String.utf8EncodeChar c = [UInt8.ofNat (c.toNat / 262144 % 8 + 0xF0), tail (c.toNat / 4096),
        tail (c.toNat / 64), tail c.toNat] := by
  have hvalue : c.val.toNat = c.toNat := rfl
  simp only [String.utf8EncodeChar, hvalue]
  split
  · exact .inl ⟨by omega, rfl⟩
  split
  · exact .inr (.inl ⟨by omega, by omega, rfl⟩)
  split
  · exact .inr (.inr (.inl ⟨by omega, by omega, rfl⟩))
  · exact .inr (.inr (.inr ⟨by omega, rfl⟩))

/-- What the first of two bytes begins. -/
theorem opening_two : ∀ n < 32, 2 ≤ n →
    opening (UInt8.ofNat (n + 0xC0)) = ([], some ⟨n, 0, 0x80, 0xBF⟩) := by
  decide

/-- What the first of three bytes begins: overlong forms and surrogates are left out. -/
theorem opening_three : ∀ n < 16, opening (UInt8.ofNat (n + 0xE0)) =
    ([], some ⟨n, 1, if n = 0 then 0xA0 else 0x80, if n = 13 then 0x9F else 0xBF⟩) := by
  decide

/-- What the first of four bytes begins: overlong forms and what is no code point are left
out. -/
theorem opening_four : ∀ n < 5, opening (UInt8.ofNat (n + 0xF0)) =
    ([], some ⟨n, 2, if n = 0 then 0x90 else 0x80, if n = 4 then 0x8F else 0xBF⟩) := by
  decide

theorem decodeFrom_opens {b : UInt8} {c : Begun} (h : opening b = ([], some c)) :
    decodeFrom none (b :: bs) = decodeFrom (some c) bs := by
  rw [decodeFrom_cons, step, h, List.nil_append]

theorem tail_mem (n : Nat) : 0x80 ≤ tail n ∧ tail n ≤ 0xBF := by
  rw [UInt8.le_iff_toNat_le, UInt8.le_iff_toNat_le, toNat_tail]
  show 128 ≤ n % 64 + 128 ∧ n % 64 + 128 ≤ 191
  omega

/-- A second byte is limited further behind some first ones. -/
theorem tail_mem_of {p q : Prop} [Decidable p] [Decidable q] {low high : UInt8} {n : Nat}
    (hlow : p → low.toNat ≤ n % 64 + 0x80) (hhigh : q → n % 64 + 0x80 ≤ high.toNat) :
    (if p then low else 0x80) ≤ tail n ∧ tail n ≤ (if q then high else 0xBF) := by
  constructor
  · split
    · next h =>
      rw [UInt8.le_iff_toNat_le, toNat_tail]
      exact hlow h
    · exact (tail_mem n).1
  · split
    · next h =>
      rw [UInt8.le_iff_toNat_le, toNat_tail]
      exact hhigh h
    · exact (tail_mem n).2

/-- Six more bits of a character, and not the last ones. -/
theorem decodeFrom_more {bits later n : Nat} {low high : UInt8}
    (h : low ≤ tail n ∧ tail n ≤ high) :
    decodeFrom (some ⟨bits, later + 1, low, high⟩) (tail n :: bs) =
      decodeFrom (some ⟨bits * 64 + n % 64, later, 0x80, 0xBF⟩) bs := by
  rw [decodeFrom_cons, step, if_pos h, toNat_tail, Nat.add_sub_cancel]
  rfl

/-- The last six bits of a character. -/
theorem decodeFrom_last (bits n : Nat) :
    decodeFrom (some ⟨bits, 0, 0x80, 0xBF⟩) (tail n :: bs) =
      Char.ofNat (bits * 64 + n % 64) :: decodeFrom none bs := by
  rw [decodeFrom_cons, step, if_pos (tail_mem n), toNat_tail, Nat.add_sub_cancel]
  rfl

/-- **The bytes of a character are read as that character.** -/
theorem decodeFrom_encodeChar (c : Char) :
    decodeFrom none (String.utf8EncodeChar c ++ bs) = c :: decodeFrom none bs := by
  have hvalid : c.toNat < 0xD800 ∨ 0xDFFF < c.toNat ∧ c.toNat < 0x110000 := c.valid
  rcases encodeChar_cases c with ⟨hc, hbytes⟩ | ⟨hlow, hc, hbytes⟩ | ⟨hlow, hc, hbytes⟩ |
    ⟨hlow, hbytes⟩
  · have hvalue : (UInt8.ofNat c.toNat).toNat = c.toNat :=
      UInt8.toNat_ofNat_of_lt' (by show c.toNat < 256; omega)
    have hone : UInt8.ofNat c.toNat < 0x80 := by
      rw [UInt8.lt_iff_toNat_lt, hvalue]
      exact hc
    rw [hbytes, List.singleton_append, decodeFrom_cons, step, opening, if_pos hone, hvalue,
      Char.ofNat_toNat]
    rfl
  · have hbits : c.toNat / 64 % 32 * 64 + c.toNat % 64 = c.toNat := by omega
    simp only [hbytes, List.cons_append, List.nil_append]
    rw [decodeFrom_opens (opening_two _ (by omega) (by omega)), decodeFrom_last, hbits,
      Char.ofNat_toNat]
  · have hbits : (c.toNat / 4096 % 16 * 64 + c.toNat / 64 % 64) * 64 + c.toNat % 64 = c.toNat := by
      omega
    have hmem := @tail_mem_of (c.toNat / 4096 % 16 = 0) (c.toNat / 4096 % 16 = 13) _ _ 0xA0 0x9F
      (c.toNat / 64) (fun _ => by show 160 ≤ _; omega) (fun _ => by show _ ≤ 159; omega)
    simp only [hbytes, List.cons_append, List.nil_append]
    rw [decodeFrom_opens (opening_three _ (by omega)), decodeFrom_more hmem, decodeFrom_last,
      hbits, Char.ofNat_toNat]
  · have hbits : ((c.toNat / 262144 % 8 * 64 + c.toNat / 4096 % 64) * 64 + c.toNat / 64 % 64) * 64
        + c.toNat % 64 = c.toNat := by
      omega
    have hmem := @tail_mem_of (c.toNat / 262144 % 8 = 0) (c.toNat / 262144 % 8 = 4) _ _ 0x90 0x8F
      (c.toNat / 4096) (fun _ => by show 144 ≤ _; omega) (fun _ => by show _ ≤ 143; omega)
    simp only [hbytes, List.cons_append, List.nil_append]
    rw [decodeFrom_opens (opening_four _ (by omega)), decodeFrom_more hmem,
      decodeFrom_more (tail_mem _), decodeFrom_last, hbits, Char.ofNat_toNat]

/-! ## A text and its bytes -/

/-- The bytes of characters. -/
def encodeAll (cs : List Char) : List UInt8 :=
  cs.flatMap String.utf8EncodeChar

theorem encode_eq (s : String) : encode s = encodeAll s.toList := rfl

@[simp] theorem encode_append (s t : String) : encode (s ++ t) = encode s ++ encode t := by
  simp only [encode, String.toList_append, List.flatMap_append]

@[simp] theorem encodeAll_nil : encodeAll [] = [] := rfl

@[simp] theorem encodeAll_cons (c : Char) (cs : List Char) :
    encodeAll (c :: cs) = String.utf8EncodeChar c ++ encodeAll cs := by
  simp [encodeAll]

@[simp] theorem encodeAll_append (cs ds : List Char) :
    encodeAll (cs ++ ds) = encodeAll cs ++ encodeAll ds := by
  simp [encodeAll]

theorem prefix_encodeAll {cs ds : List Char} (h : cs <+: ds) : encodeAll cs <+: encodeAll ds := by
  obtain ⟨later, rfl⟩ := h
  rw [encodeAll_append]
  exact List.prefix_append ..

theorem decodeFrom_encodeAll (cs : List Char) : decodeFrom none (encodeAll cs) = cs := by
  induction cs with
  | nil => rfl
  | cons c cs ih => rw [encodeAll_cons, decodeFrom_encodeChar, ih]

/-- **A text is what its bytes are read as.** -/
theorem decode_encode (s : String) : decode (encode s) = s := by
  rw [decode, encode_eq, decodeFrom_encodeAll, String.ofList_toList]

/-- No two texts have the same bytes. -/
theorem encode_inj {s t : String} : encode s = encode t ↔ s = t := by
  refine ⟨fun h => ?_, congrArg encode⟩
  rw [← decode_encode s, h, decode_encode]

/-- Characters of one byte each are encoded as these bytes. -/
theorem encode_text {bs : List UInt8} (h : ∀ b ∈ bs, b < 128) : encode (Ascii.text bs) = bs := by
  have hbyte : ∀ b : UInt8, b < 128 → String.utf8EncodeChar (Ascii.toChar b) = [b] :=
    Ascii.forall_byte (by decide +kernel)
  rw [encode, Ascii.text, String.toList_ofList, List.flatMap_map]
  induction bs with
  | nil => rfl
  | cons b bs ih =>
    obtain ⟨hb, hbs⟩ := List.forall_mem_cons.mp h
    rw [List.flatMap_cons, hbyte b hb, ih hbs]
    rfl

/-! ## Lines -/

/-- An ASCII byte is a character by itself. -/
theorem toNat_of_mem_encodeChar {c : Char} {b : UInt8} (h : b ∈ String.utf8EncodeChar c)
    (hb : b.toNat < 0x80) : c.toNat = b.toNat := by
  have htail : ∀ n, b ≠ tail n := by
    rintro n rfl
    rw [toNat_tail] at hb
    omega
  have hfirst : ∀ n, 0x80 ≤ n → n < 0x100 → b ≠ UInt8.ofNat n := by
    rintro n hn hlt rfl
    rw [UInt8.toNat_ofNat_of_lt' hlt] at hb
    omega
  rcases encodeChar_cases c with ⟨hc, hbytes⟩ | ⟨-, -, hbytes⟩ | ⟨-, -, hbytes⟩ | ⟨-, hbytes⟩
  · rw [hbytes, List.mem_singleton] at h
    rw [h, UInt8.toNat_ofNat_of_lt' (Nat.lt_trans hc (by decide))]
  · simp only [hbytes, List.mem_cons, List.not_mem_nil, htail, or_false] at h
    exact absurd h (hfirst _ (by omega) (by omega))
  · simp only [hbytes, List.mem_cons, List.not_mem_nil, htail, or_false] at h
    exact absurd h (hfirst _ (by omega) (by omega))
  · simp only [hbytes, List.mem_cons, List.not_mem_nil, htail, or_false] at h
    exact absurd h (hfirst _ (by omega) (by omega))

/-- Bytes have a newline only if their text does. -/
theorem newline_not_mem_encodeAll {cs : List Char} (h : '\n' ∉ cs) :
    Ascii.newline ∉ encodeAll cs := by
  intro hmem
  obtain ⟨c, hc, hb⟩ := List.mem_flatMap.mp hmem
  have heq : c.toNat = '\n'.toNat := toNat_of_mem_encodeChar hb (by decide)
  exact h (Char.toNat_inj.mp heq ▸ hc)

/-- **The bytes of a text have the lines of the text.** -/
theorem splitOn_encodeAll (cs : List Char) :
    (encodeAll cs).splitOn Ascii.newline = (cs.splitOn '\n').map encodeAll := by
  by_cases h : '\n' ∈ cs
  · obtain ⟨line, rest, hcs, hline⟩ := List.eq_append_cons_of_mem h
    have hshorter : rest.length < cs.length := by
      rw [hcs, List.length_append, List.length_cons]
      omega
    have hnewline : String.utf8EncodeChar '\n' = [Ascii.newline] := by decide
    rw [hcs, encodeAll_append, encodeAll_cons, hnewline, List.singleton_append,
      List.splitOn_append_cons_self_of_not_mem (newline_not_mem_encodeAll hline),
      List.splitOn_append_cons_self_of_not_mem hline, List.map_cons, splitOn_encodeAll rest]
  · rw [List.splitOn_eq_singleton (newline_not_mem_encodeAll h), List.splitOn_eq_singleton h]
    rfl
termination_by cs.length

/-! ## Bytes inside of a character -/

/-- Whether a byte goes on with a character that another one begins. -/
def isContinuation (b : UInt8) : Bool :=
  0x80 ≤ b && b ≤ 0xBF

theorem isContinuation_tail (n : Nat) : isContinuation (tail n) := by
  simpa [isContinuation] using tail_mem n

/-- A character has one byte that begins it, and the others go on with it. -/
theorem exists_encodeChar (c : Char) : ∃ first later, String.utf8EncodeChar c = first :: later ∧
    isContinuation first = false ∧ ∀ b ∈ later, isContinuation b := by
  have hascii : ∀ n < 0x80, isContinuation (UInt8.ofNat n) = false := by decide
  have htwo : ∀ n < 32, isContinuation (UInt8.ofNat (n + 0xC0)) = false := by decide
  have hthree : ∀ n < 16, isContinuation (UInt8.ofNat (n + 0xE0)) = false := by decide
  have hfour : ∀ n < 8, isContinuation (UInt8.ofNat (n + 0xF0)) = false := by decide
  rcases encodeChar_cases c with ⟨hc, hbytes⟩ | ⟨-, -, hbytes⟩ | ⟨-, -, hbytes⟩ | ⟨-, hbytes⟩
  · exact ⟨_, _, hbytes, hascii _ hc, by simp⟩
  · exact ⟨_, _, hbytes, htwo _ (Nat.mod_lt _ (by decide)), by simp [isContinuation_tail]⟩
  · exact ⟨_, _, hbytes, hthree _ (Nat.mod_lt _ (by decide)), by simp [isContinuation_tail]⟩
  · exact ⟨_, _, hbytes, hfour _ (Nat.mod_lt _ (by decide)), by simp [isContinuation_tail]⟩

/-- How many of the first `n` bytes of a text go on with a character. -/
def continuations (s : String) (n : Nat) : Nat :=
  ((encode s).take n).countP isContinuation

/-- The character number `k` of a text, counted from zero, has the byte number `n` of it. -/
def HoldsByte (cs : List Char) (k n : Nat) : Prop :=
  ∃ before c after, cs = before ++ c :: after ∧ before.length = k ∧
    (encodeAll before).length ≤ n ∧ n < (encodeAll (before ++ [c])).length

/-- Each byte is in a character. -/
theorem exists_holdsByte {cs : List Char} {n : Nat} (h : n < (encodeAll cs).length) :
    ∃ k, HoldsByte cs k n := by
  induction cs generalizing n with
  | nil => simp at h
  | cons c cs ih =>
    by_cases hc : n < (String.utf8EncodeChar c).length
    · exact ⟨0, [], c, cs, rfl, rfl, Nat.zero_le n, by simpa using hc⟩
    · rw [encodeAll_cons, List.length_append] at h
      have hrest : n - (String.utf8EncodeChar c).length < (encodeAll cs).length := by omega
      obtain ⟨-, before, d, after, rfl, rfl, hle, hlt⟩ := ih hrest
      refine ⟨_, c :: before, d, after, rfl, rfl, ?_, ?_⟩
      · rw [encodeAll_cons, List.length_append]
        omega
      · rw [List.cons_append, encodeAll_cons, List.length_append]
        omega

namespace HoldsByte

variable {cs : List Char} {k n : Nat}

theorem append (h : HoldsByte cs k n) (ds : List Char) : HoldsByte (cs ++ ds) k n := by
  obtain ⟨before, c, after, rfl, hlength, hle, hlt⟩ := h
  exact ⟨before, c, after ++ ds, by simp, hlength, hle, hlt⟩

/-- The byte is one of those of the character. -/
theorem exists_getElem? (h : HoldsByte cs k n) : ∃ c b, cs[k]? = some c ∧
    b ∈ String.utf8EncodeChar c ∧ (encodeAll cs)[n]? = some b := by
  obtain ⟨before, c, after, rfl, rfl, hle, hlt⟩ := h
  simp only [encodeAll_append, encodeAll_cons, encodeAll_nil, List.append_nil,
    List.length_append] at hlt
  have hindex : n - (encodeAll before).length < (String.utf8EncodeChar c).length := by omega
  refine ⟨c, (String.utf8EncodeChar c)[n - (encodeAll before).length], by simp,
    List.getElem_mem hindex, ?_⟩
  rw [encodeAll_append, List.getElem?_append_right hle, encodeAll_cons,
    List.getElem?_append_left hindex, List.getElem?_eq_getElem hindex]

end HoldsByte

/-- What is not the beginning of a character goes on with one. -/
theorem countP_isContinuation (cs : List Char) :
    (encodeAll cs).countP isContinuation + cs.length = (encodeAll cs).length := by
  induction cs with
  | nil => rfl
  | cons c cs ih =>
    obtain ⟨first, later, hbytes, hfirst, hlater⟩ := exists_encodeChar c
    have hcount : later.countP isContinuation = later.length := List.countP_eq_length.mpr hlater
    rw [encodeAll_cons, hbytes, List.cons_append, List.countP_cons_of_neg (by simp [hfirst]),
      List.countP_append, hcount]
    simp only [List.length_cons, List.length_append]
    omega

/-- **A byte is as much further on than its character** as there are bytes up to it that do not
begin one. -/
theorem HoldsByte.continuations_add {s : String} {k n : Nat} (h : HoldsByte s.toList k n) :
    continuations s (n + 1) + k = n := by
  obtain ⟨before, c, after, hs, rfl, hle, hlt⟩ := h
  obtain ⟨first, later, hbytes, hfirst, hlater⟩ := exists_encodeChar c
  simp only [encodeAll_append, encodeAll_cons, encodeAll_nil, List.append_nil, hbytes,
    List.length_append, List.length_cons] at hlt
  have hbefore := countP_isContinuation before
  obtain ⟨m, rfl⟩ := Nat.exists_eq_add_of_le hle
  have htake : (later ++ encodeAll after).take m = later.take m :=
    List.take_append_of_le_length (by omega)
  have hcount : (later.take m).countP isContinuation = m := by
    rw [List.countP_eq_length.mpr fun b hb => hlater b (List.mem_of_mem_take hb),
      List.length_take_of_le (by omega)]
  rw [continuations, encode_eq, hs, encodeAll_append, encodeAll_cons, hbytes, Nat.add_assoc,
    List.take_length_add_append,
    List.cons_append, List.take_succ_cons, htake, List.countP_append,
    List.countP_cons_of_neg (by simp [hfirst]), hcount]
  omega

end Braced.Text.Utf8

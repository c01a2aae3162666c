import Braced.Target.Literal

/-!
# Braced.Proofs.Target.Literal

How the target language reads the bytes of a literal.

`readByte` reads one byte by the rules of the target language: an escape of one
character, an octal escape of at most three digits, or a character that stands for
itself.  It reads each byte from what is written for it, whatever comes behind
(`readByte_escapeByte`), so a literal is read up to its closing quote
(`readBytes_escape`).

`decode` reads all of a text between quotes.  What is written for bytes is printable, has
the quote in escapes only, and decodes to the bytes.
-/

namespace Braced.Target.Literal

open Ascii (toNat_toChar eq_of_toChar toChar_inj)

/-! ## Reading -/

/-- The byte of an escape that is one character behind a backslash. -/
def simple? : Char → Option UInt8
  | 'a' => some 7
  | 'b' => some 8
  | 't' => some 9
  | 'n' => some 10
  | 'v' => some 11
  | 'f' => some 12
  | 'r' => some 13
  | '"' => some 34
  | '\'' => some 39
  | '?' => some 63
  | '\\' => some 92
  | _ => none

def octalDigit? (c : Char) : Option Nat :=
  if 48 ≤ c.toNat ∧ c.toNat ≤ 55 then some (c.toNat - 48) else none

/-- Reads on in an octal escape, up to `most` more digits. -/
def readOctal (value : Nat) : (most : Nat) → List Char → Nat × List Char
  | 0, cs => (value, cs)
  | _ + 1, [] => (value, [])
  | most + 1, c :: cs =>
    match octalDigit? c with
    | some digit => readOctal (8 * value + digit) most cs
    | none => (value, c :: cs)

/-- Reads a byte between quotes. -/
def readByte (quote : Char) : List Char → Option (UInt8 × List Char)
  | [] => none
  | c :: cs =>
    if c = quote then none
    else if c = '\\' then
      match cs with
      | [] => none
      | e :: rest =>
        match simple? e, octalDigit? e with
        | some b, _ => some (b, rest)
        | none, some digit =>
          let (value, rest) := readOctal digit 2 rest
          if value < 256 then some (UInt8.ofNat value, rest) else none
        | none, none => none
    else if c.toNat < 256 then some (UInt8.ofNat c.toNat, cs)
    else none

/-- Reads bytes up to a quote, and the quote. -/
def readBytes (quote : Char) : (fuel : Nat) → List Char → Option (List UInt8 × List Char)
  | 0, _ => none
  | fuel + 1, cs =>
    if cs.head? = some quote then some ([], cs.tail)
    else do
      let (b, cs) ← readByte quote cs
      let (bs, cs) ← readBytes quote fuel cs
      return (b :: bs, cs)

/-! ## What is written is read -/

theorem escape_cons (quote b : UInt8) (bs : List UInt8) :
    escape quote (b :: bs) = escapeByte quote b ++ escape quote bs :=
  List.flatMap_cons

theorem octalDigit?_digitChar : ∀ d < 8, octalDigit? (Nat.digitChar d) = some d := by
  decide

theorem simple?_digitChar : ∀ d < 8, simple? (Nat.digitChar d) = none := by
  decide

/-- Three digits end an octal escape, whatever comes behind it. -/
theorem readOctal_octal (b : UInt8) (rest : List Char) :
    ∃ c cs, octal b ++ rest = c :: cs ∧ simple? c = none ∧
      ∃ digit, octalDigit? c = some digit ∧ readOctal digit 2 cs = (b.toNat, rest) := by
  have hb := b.toNat_lt
  have htens := octalDigit?_digitChar (b.toNat / 8 % 8) (by omega)
  have hones := octalDigit?_digitChar (b.toNat % 8) (by omega)
  have hvalue : 8 * (8 * (b.toNat / 64) + b.toNat / 8 % 8) + b.toNat % 8 = b.toNat := by omega
  refine ⟨Nat.digitChar (b.toNat / 64), Nat.digitChar (b.toNat / 8 % 8)
    :: Nat.digitChar (b.toNat % 8) :: rest, rfl, simple?_digitChar _ (by omega), _,
    octalDigit?_digitChar _ (by omega), ?_⟩
  simp only [readOctal, htens, hones, hvalue]

variable {quote : UInt8}

/-- **A byte reads back** from what is written for it, whatever comes behind it. -/
theorem readByte_escapeByte (hquote : quote = Ascii.singleQuote ∨ quote = Ascii.doubleQuote)
    (b : UInt8) (rest : List Char) :
    readByte (Ascii.toChar quote) (escapeByte quote b ++ rest) = some (b, rest) := by
  have hbackslash : '\\' ≠ Ascii.toChar quote := by
    rcases hquote with rfl | rfl <;> decide
  unfold escapeByte
  split
  -- the escapes with a letter, and the backslash
  · simp [readByte, hbackslash, simple?, eq_of_toChar ‹_›]
  · simp [readByte, hbackslash, simple?, eq_of_toChar ‹_›]
  · simp [readByte, hbackslash, simple?, eq_of_toChar ‹_›]
  · simp [readByte, hbackslash, simple?, eq_of_toChar ‹_›]
  split
  · -- the quote itself
    subst b
    rcases hquote with rfl | rfl <;> rfl
  split
  · -- a byte that stands for itself
    have hb := b.toNat_lt
    have hne : Ascii.toChar b ≠ Ascii.toChar quote := fun h => absurd (toChar_inj h) ‹_›
    simp_all [readByte, toNat_toChar]
  · obtain ⟨c, cs, heq, hsimple, digit, hdigit, hoctal⟩ := readOctal_octal b rest
    have hb := b.toNat_lt
    simp [readByte, hbackslash, heq, hsimple, hdigit, hoctal, hb]

theorem escapeByte_ne_nil (hquote : quote = Ascii.singleQuote ∨ quote = Ascii.doubleQuote)
    (b : UInt8) : escapeByte quote b ≠ [] := by
  intro hnil
  have hbyte := readByte_escapeByte hquote b []
  rw [hnil] at hbyte
  cases hbyte

theorem length_le_length_escape
    (hquote : quote = Ascii.singleQuote ∨ quote = Ascii.doubleQuote) (bs : List UInt8) :
    bs.length ≤ (escape quote bs).length := by
  induction bs with
  | nil => exact Nat.zero_le _
  | cons b bs ih =>
    have hpos := List.length_pos_iff.mpr (escapeByte_ne_nil hquote b)
    rw [escape_cons, List.length_append, List.length_cons]
    omega

/-- A quote is no byte. -/
theorem head?_ne_of_readByte {quote : Char} {cs : List Char} {r : UInt8 × List Char}
    (h : readByte quote cs = some r) : cs.head? ≠ some quote := by
  rintro hhead
  cases cs with
  | nil => cases hhead
  | cons c cs =>
    obtain rfl : c = quote := by simpa using hhead
    simp [readByte] at h

/-- **A literal reads back** up to its closing quote. -/
theorem readBytes_escape (hquote : quote = Ascii.singleQuote ∨ quote = Ascii.doubleQuote)
    (bs : List UInt8) (rest : List Char) : ∀ fuel, bs.length < fuel →
    readBytes (Ascii.toChar quote) fuel (escape quote bs ++ Ascii.toChar quote :: rest)
      = some (bs, rest) := by
  induction bs with
  | nil =>
    intro fuel hfuel
    obtain ⟨n, rfl⟩ := Nat.exists_eq_add_one_of_ne_zero (Nat.ne_of_gt hfuel)
    simp [readBytes]
  | cons b bs ih =>
    intro fuel hfuel
    obtain ⟨n, rfl⟩ := Nat.exists_eq_add_one_of_ne_zero (Nat.ne_of_gt (Nat.zero_lt_of_lt hfuel))
    have hbyte := readByte_escapeByte hquote b (escape quote bs ++ Ascii.toChar quote :: rest)
    have hbytes := ih n (Nat.lt_of_succ_lt_succ hfuel)
    rw [escape_cons, List.append_assoc, readBytes, if_neg (head?_ne_of_readByte hbyte), hbyte]
    simp [hbytes]

/-! ## Texts between quotes -/

theorem length_readOctal (value most : Nat) (cs : List Char) :
    (readOctal value most cs).2.length ≤ cs.length := by
  induction most generalizing value cs with
  | zero => exact Nat.le_refl _
  | succ most ih =>
    cases cs with
    | nil => exact Nat.le_refl _
    | cons c cs =>
      unfold readOctal
      split
      · exact Nat.le_succ_of_le (ih _ cs)
      · exact Nat.le_refl _

/-- A byte is read from at least one character. -/
theorem length_lt_of_readByte {quote : Char} {cs rest : List Char} {b : UInt8}
    (h : readByte quote cs = some (b, rest)) : rest.length < cs.length := by
  unfold readByte at h
  split at h
  · cases h
  split at h
  · cases h
  split at h
  · -- an escape takes the backslash and what stands behind it
    split at h
    · cases h
    next e behind =>
    split at h
    · cases h
      simp only [List.length_cons]
      omega
    · next digit _ _ =>
      have hoctal := length_readOctal digit 2 behind
      dsimp only at h
      split at h
      · cases h
        simp only [List.length_cons]
        omega
      · cases h
    · cases h
  · split at h
    · cases h
      exact Nat.lt_succ_self _
    · cases h

/-- The bytes that a text between quotes denotes, if it can be read to its end. -/
def decode (quote : Char) : List Char → Option (List UInt8)
  | [] => some []
  | c :: cs =>
    match _ : readByte quote (c :: cs) with
    | none => none
    | some (b, rest) => (decode quote rest).map (b :: ·)
termination_by cs => cs.length
decreasing_by exact length_lt_of_readByte ‹_›

theorem decode_of_readByte {quote : Char} {cs rest : List Char} {b : UInt8}
    (h : readByte quote cs = some (b, rest)) :
    decode quote cs = (decode quote rest).map (b :: ·) := by
  cases cs with
  | nil => cases h
  | cons c cs =>
    rw [decode]
    split
    · next hnone =>
      rw [hnone] at h
      cases h
    · next hsome =>
      rw [hsome] at h
      cases h
      rfl

/-- **A text decodes to the bytes that it was written for.** -/
theorem decode_escape (hquote : quote = Ascii.singleQuote ∨ quote = Ascii.doubleQuote)
    (bs : List UInt8) : decode (Ascii.toChar quote) (escape quote bs) = some bs := by
  induction bs with
  | nil => rw [escape_nil, decode]
  | cons b bs ih =>
    have hbyte := readByte_escapeByte hquote b (escape quote bs)
    rw [escape_cons, decode_of_readByte hbyte, ih]
    rfl

/-! ### Printable characters -/

/-- A character of printable ASCII. -/
def IsPrintable (c : Char) : Prop := 0x20 ≤ c.toNat ∧ c.toNat ≤ 0x7E

instance (c : Char) : Decidable (IsPrintable c) := inferInstanceAs (Decidable (_ ∧ _))

theorem isPrintable_digitChar : ∀ d < 8, IsPrintable (Nat.digitChar d) := by
  decide

theorem isPrintable_octal (b : UInt8) : ∀ c ∈ octal b, IsPrintable c := by
  have hb := b.toNat_lt
  simp only [octal, List.forall_mem_cons]
  exact ⟨isPrintable_digitChar _ (by omega), isPrintable_digitChar _ (by omega),
    isPrintable_digitChar _ (by omega), List.forall_mem_nil _⟩

theorem isPrintable_escapeByte (hquote : quote = Ascii.singleQuote ∨ quote = Ascii.doubleQuote)
    (b : UInt8) : ∀ c ∈ escapeByte quote b, IsPrintable c := by
  unfold escapeByte
  split
  · simp [IsPrintable]
  · simp [IsPrintable]
  · simp [IsPrintable]
  · simp [IsPrintable]
  split
  · subst b
    rcases hquote with rfl | rfl <;> simp [IsPrintable, Ascii.toChar, Ascii.singleQuote,
      Ascii.doubleQuote]
  split
  · next hrange =>
    rw [List.forall_mem_singleton, IsPrintable, toNat_toChar]
    exact ⟨UInt8.le_iff_toNat_le.mp hrange.1, UInt8.le_iff_toNat_le.mp hrange.2⟩
  · exact List.forall_mem_cons.mpr ⟨by decide, isPrintable_octal b⟩

/-! ### Where the quote stands -/

theorem escapeByte_quote (hquote : quote = Ascii.singleQuote ∨ quote = Ascii.doubleQuote) :
    escapeByte quote quote = ['\\', Ascii.toChar quote] := by
  rcases hquote with rfl | rfl <;> rfl

theorem digitChar_ne_quote (hquote : quote = Ascii.singleQuote ∨ quote = Ascii.doubleQuote) :
    ∀ d < 8, Ascii.toChar quote ≠ Nat.digitChar d := by
  rcases hquote with rfl | rfl <;> decide

/-- The quote is only written for itself. -/
theorem eq_quote_of_mem_escapeByte (hquote : quote = Ascii.singleQuote ∨ quote = Ascii.doubleQuote)
    {b : UInt8} (h : Ascii.toChar quote ∈ escapeByte quote b) : b = quote := by
  have hletters : Ascii.toChar quote ∉ ['\\', 'n', 't', 'r'] := by
    rcases hquote with rfl | rfl <;> decide
  simp only [List.mem_cons, List.not_mem_nil, or_false, not_or] at hletters
  unfold escapeByte at h
  split at h
  · simp [hletters] at h
  · simp [hletters] at h
  · simp [hletters] at h
  · simp [hletters] at h
  split at h
  · assumption
  split at h
  · exact (toChar_inj (List.mem_singleton.mp h)).symm
  · have hb := b.toNat_lt
    have hdigit := digitChar_ne_quote hquote
    simp only [octal, List.mem_cons, List.not_mem_nil, or_false, hletters, false_or] at h
    rcases h with h | h | h
    · exact absurd h (hdigit _ (by omega))
    · exact absurd h (hdigit _ (by omega))
    · exact absurd h (hdigit _ (by omega))

/-- **Where the quote stands in a text, it is written for itself,** behind a backslash. -/
theorem escape_eq_append_quote
    (hquote : quote = Ascii.singleQuote ∨ quote = Ascii.doubleQuote) {bs : List UInt8}
    {before after : List Char} (h : escape quote bs = before ++ Ascii.toChar quote :: after) :
    ∃ front back, bs = front ++ quote :: back ∧ before = escape quote front ++ ['\\'] := by
  induction bs generalizing before with
  | nil => simp at h
  | cons b bs ih =>
    rw [escape_cons] at h
    rcases List.append_eq_append_iff.mp h with ⟨later, rfl, hlater⟩ | ⟨later, hbyte, hlater⟩
    · obtain ⟨front, back, rfl, rfl⟩ := ih hlater
      exact ⟨b :: front, back, rfl, by simp [escape]⟩
    cases later with
    | nil =>
      -- the quote begins what is written behind the byte
      obtain ⟨front, back, rfl, hfront⟩ := @ih [] hlater.symm
      simp at hfront
    | cons c later =>
      obtain ⟨rfl, -⟩ := List.cons.inj hlater
      obtain rfl : b = quote := eq_quote_of_mem_escapeByte hquote (by simp [hbyte])
      have hne : '\\' ≠ Ascii.toChar b := by
        rcases hquote with rfl | rfl <;> decide
      rw [escapeByte_quote hquote] at hbyte
      refine ⟨[], bs, rfl, ?_⟩
      cases before with
      | nil => exact absurd (List.cons.inj hbyte).1 hne
      | cons d before =>
        obtain ⟨rfl, htail⟩ := List.cons.inj hbyte
        cases before with
        | nil => rfl
        | cons e before => simp at htail

/-- **A literal denotes its bytes.**  What is written for some bytes between quotes is
printable ASCII.  The quote is in it only as the second character of an escape: in front of
it stands a backslash, and in front of that a text that can be read to its end.  And all of
it is read as the bytes that it was written for. -/
theorem escape_denotes (hquote : quote = Ascii.singleQuote ∨ quote = Ascii.doubleQuote)
    (bs : List UInt8) :
    (∀ c ∈ escape quote bs, IsPrintable c) ∧
    (∀ before after, escape quote bs = before ++ Ascii.toChar quote :: after →
      ∃ front, before = front ++ ['\\'] ∧ (decode (Ascii.toChar quote) front).isSome) ∧
    decode (Ascii.toChar quote) (escape quote bs) = some bs := by
  refine ⟨?_, ?_, decode_escape hquote bs⟩
  · intro c hc
    obtain ⟨b, -, hmem⟩ := List.mem_flatMap.mp hc
    exact isPrintable_escapeByte hquote b c hmem
  · intro before after h
    obtain ⟨front, back, -, rfl⟩ := escape_eq_append_quote hquote h
    exact ⟨_, rfl, by rw [decode_escape hquote front]; rfl⟩

/-- A zero in front of a digit, a backslash in front of a letter, a byte beyond ASCII in
front of digits, and both quotes. -/
theorem escape_denotes_digits :
    escape Ascii.doubleQuote [0, 49, 92, 110, 255, 55, 55, 34, 39, 10]
      = "\\0001\\\\n\\37777\\\"'\\n".toList ∧
    decode '"' (escape Ascii.doubleQuote [0, 49, 92, 110, 255, 55, 55, 34, 39, 10])
      = some [0, 49, 92, 110, 255, 55, 55, 34, 39, 10] :=
  ⟨by decide, (escape_denotes (.inr rfl) _).2.2⟩

end Braced.Target.Literal

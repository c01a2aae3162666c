import Braced.Proofs.Text.Utf8
import Braced.Proofs.Token.Comments

/-!
# Braced.Proofs.Token.Reread

Tokens that are written are read again.

The text of a token is what it is spelled with (`Token.text`).  Its first byte tells what kind of
token it is, and in front of a space nothing more belongs to it (`Munch.Spells`).  So the texts of
any tokens with a space between each two of them are a source of the same tokens.  The escapes
of a literal are those that reading it takes back.
-/

namespace Braced

open Ascii (toNat_toChar eq_of_toChar forall_byte)
open Text.Utf8 (encode)

namespace Munch

variable {lx : Lexicon} {b : UInt8} {bs bytes rest : List UInt8} {kind : TokenKind}
  {value : TokenValue}

/-! ## What is read in front of a space -/

/-- Nothing goes on, or a space stands in between. -/
def Parted (rest : List UInt8) : Prop :=
  ∀ b ∈ rest.head?, b = 32

theorem parted_nil : Parted [] := by simp [Parted]

theorem parted_space (rest : List UInt8) : Parted (32 :: rest) := by simp [Parted]

/-- A run of bytes ends with them in front of a space. -/
theorem Parted.takeWhile_append (h : Parted rest) {p : UInt8 → Bool} (hp : p 32 = false)
    (hbs : ∀ b ∈ bs, p b = true) : (bs ++ rest).takeWhile p = bs := by
  rw [List.takeWhile_append_of_pos hbs]
  cases rest with
  | nil => simp
  | cons c rest => rw [h c rfl, List.takeWhile_cons_of_neg (by simp [hp]), List.append_nil]

theorem Parted.dropWhile_append (h : Parted rest) {p : UInt8 → Bool} (hp : p 32 = false)
    (hbs : ∀ b ∈ bs, p b = true) : (bs ++ rest).dropWhile p = rest := by
  rw [List.dropWhile_append_of_pos hbs]
  cases rest with
  | nil => rfl
  | cons c rest => rw [h c rfl, List.dropWhile_cons_of_neg (by simp [hp])]

/-- The bytes are read as a token of the kind and with the value, where nothing but a space goes
on behind them. -/
def Spells (lx : Lexicon) (bytes : List UInt8) (kind : TokenKind) (value : TokenValue) : Prop :=
  ∃ b bs, bytes = b :: bs ∧
    ∀ rest, Parted rest → itemAt lx b (bs ++ rest) = .token kind value bs.length

theorem Spells.scan (h : Spells lx bytes kind value) (hrest : Parted rest) (length : Nat) :
    scan lx length (bytes ++ rest) = (scan lx length rest).map
      (⟨kind, value, length - (bytes ++ rest).length⟩ :: ·) := by
  obtain ⟨b, bs, rfl, hitem⟩ := h
  rw [List.cons_append, scan_of_token (hitem rest hrest), List.drop_left]

theorem Spells.nesting (h : Spells lx bytes kind value) (hrest : Parted rest) :
    nesting lx (bytes ++ rest) = nesting lx rest := by
  obtain ⟨b, bs, rfl, hitem⟩ := h
  rw [List.cons_append, nesting_of_token (hitem rest hrest), List.drop_left]

/-! ## Words -/

theorem itemAt_word (lx : Lexicon) (hb : Ascii.isWordStart b = true) (bs : List UInt8) :
    itemAt lx b bs = wordItem lx (b :: bs.takeWhile Ascii.isWordPart) := by
  have hclass : ∀ b : UInt8, Ascii.isWordStart b = true →
      Ascii.isBlank b = false ∧ Ascii.isDigit b = false ∧ Ascii.isWordPart b = true :=
    forall_byte (by decide +kernel)
  obtain ⟨hblank, hdigit, hpart⟩ := hclass b hb
  rw [itemAt_of_not_opens lx (isWordPart_not_opens b _ hpart), if_neg (by simp [hblank]),
    if_neg (by simp [hdigit]), if_pos hb]

/-- A word is read as a whole. -/
theorem itemAt_word_append (lx : Lexicon) (hb : Ascii.isWordStart b = true)
    (hbs : ∀ c ∈ bs, Ascii.isWordPart c = true) (hrest : Parted rest) :
    itemAt lx b (bs ++ rest) = wordItem lx (b :: bs) := by
  rw [itemAt_word lx hb, hrest.takeWhile_append (by decide) hbs]

theorem spells_keyword (h : kind ∈ Lexicon.standardKeywords) :
    Spells .standard (encode kind.display) kind .none := by
  have hwords : ∀ kind ∈ Lexicon.standardKeywords,
      (encode kind.display).head?.any Ascii.isWordStart = true ∧
      (∀ c ∈ (encode kind.display).tail, Ascii.isWordPart c = true) ∧
      wordItem .standard (encode kind.display)
        = .token kind .none (encode kind.display).tail.length := by
    decide +kernel
  obtain ⟨hb, hbs, hitem⟩ := hwords kind h
  cases hbytes : encode kind.display with
  | nil =>
    rw [hbytes] at hb
    cases hb
  | cons b bs =>
    rw [hbytes] at hb hbs hitem
    exact ⟨b, bs, rfl, fun rest hrest => (itemAt_word_append _ hb hbs hrest).trans hitem⟩

/-- A word that is no keyword is an identifier. -/
theorem spells_identifier (hb : Ascii.isWordStart b = true)
    (hbs : ∀ c ∈ bs, Ascii.isWordPart c = true) (hlength : (b :: bs).length ≤ 512)
    (hword : ∀ kind ∈ Lexicon.standardKeywords, kind.describe ≠ Ascii.text (b :: bs)) :
    Spells .standard (encode (Ascii.text (b :: bs))) .identifier
      (.identifier (Ascii.text (b :: bs))) := by
  have hascii : ∀ c : UInt8, Ascii.isWordPart c = true → c < 128 := forall_byte (by decide +kernel)
  have hpart : Ascii.isWordPart b = true := by simp [Ascii.isWordPart, hb]
  have hkeyword : Lexicon.standard.keyword? (Ascii.text (b :: bs)) = none := by
    have htable : ∀ entry ∈ Lexicon.standard.keywords,
        ∃ kind ∈ Lexicon.standardKeywords, kind.describe = entry.1 := by
      decide +kernel
    cases hfound : Lexicon.standard.keyword? (Ascii.text (b :: bs)) with
    | none => rfl
    | some kind =>
      obtain ⟨kind, hmem, hdescribe⟩ := htable _ (Lexicon.mem_of_find? hfound)
      exact absurd hdescribe (hword kind hmem)
  rw [Text.Utf8.encode_text fun c hc => hascii c (by
    obtain rfl | hc := List.mem_cons.mp hc
    · exact hpart
    · exact hbs c hc)]
  have hlimit : ¬ Lexicon.standard.identifierLimit < (b :: bs).length := Nat.not_lt.mpr hlength
  refine ⟨b, bs, rfl, fun rest hrest => ?_⟩
  rw [itemAt_word_append _ hb hbs hrest, wordItem, if_neg hlimit, hkeyword]
  rfl

/-! ## Operators and punctuation -/

/-- Where an operator has to end is seen from a space behind it. -/
theorem symbols_append_space (bytes later : List UInt8) :
    symbols (bytes ++ 32 :: later) = symbols (bytes ++ [32]) := by
  induction bytes with
  | nil => rfl
  | cons b bs ih =>
    have hhead : (bs ++ 32 :: later).head? = (bs ++ [32]).head? := by cases bs <;> rfl
    rw [List.cons_append, List.cons_append, symbols, symbols, stops, stops, hhead, ih]

/-- Where no operator has to end one begins. -/
theorem itemAt_symbol (lx : Lexicon) (h : stops (b :: bs) = false) :
    itemAt lx b bs = operatorItem lx b bs := by
  rw [stops, Bool.or_eq_false_iff, Bool.or_eq_false_iff] at h
  obtain ⟨⟨hblank, hpart⟩, hopens⟩ := h
  rw [Ascii.isWordPart, Bool.or_eq_false_iff] at hpart
  rw [itemAt_of_not_opens lx hopens, if_neg (by simp [hblank]), if_neg (by simp [hpart.2]),
    if_neg (by simp [hpart.1])]

/-- Bytes that make up an operator, alone and in front of a space, are read as one. -/
theorem spells_symbols (hne : bytes ≠ []) (h : symbols bytes = bytes)
    (hspace : symbols (bytes ++ [32]) = bytes)
    (hitem : operatorItem lx (bytes.headD 0) bytes.tail = .token kind .none bytes.tail.length) :
    Spells lx bytes kind .none := by
  obtain ⟨b, bs, rfl⟩ := List.exists_cons_of_ne_nil hne
  refine ⟨b, bs, rfl, fun rest hrest => ?_⟩
  have hsymbols : symbols (b :: (bs ++ rest)) = b :: bs := by
    cases rest with
    | nil => rw [List.append_nil, h]
    | cons c rest => rw [hrest c rfl, ← List.cons_append, symbols_append_space, hspace]
  have hstops : stops (b :: (bs ++ rest)) = false := by
    rw [symbols] at hsymbols
    split at hsymbols
    · cases hsymbols
    · next hgo => simpa using hgo
  rw [itemAt_symbol lx hstops, operatorItem, hsymbols, ← h]
  exact hitem

/-- The kinds of single bytes with a meaning of their own. -/
def punctuation : List TokenKind :=
  [.openBracket, .closeBracket, .openCurly, .closeCurly, .openParen, .closeParen, .assignment, .not,
    .less, .greater, .colon, .semicolon, .comma, .dot, .pound, .caret, .ampersand, .plus, .dash,
    .slash, .star, .percent]

theorem ofByte_mem_punctuation (h : TokenKind.ofByte b ≠ .other (Ascii.toChar b)) :
    TokenKind.ofByte b ∈ punctuation := by
  unfold TokenKind.ofByte at h ⊢
  split <;> first | decide | simp_all

/-- Operators and punctuation are spelled by themselves. -/
theorem spells_operator (h : kind ∈ Lexicon.standardOperators ++ punctuation) :
    Spells .standard (encode kind.display) kind .none := by
  have hoperators : ∀ kind ∈ Lexicon.standardOperators ++ punctuation,
      encode kind.display ≠ [] ∧ symbols (encode kind.display) = encode kind.display ∧
      symbols (encode kind.display ++ [32]) = encode kind.display ∧
      operatorItem .standard ((encode kind.display).headD 0) (encode kind.display).tail
        = .token kind .none (encode kind.display).tail.length := by
    decide +kernel
  obtain ⟨hne, halone, hspace, hitem⟩ := hoperators kind h
  exact spells_symbols hne halone hspace hitem

/-! ## Numbers -/

/-- The byte of a character that is encoded as one byte. -/
def byteOf (c : Char) : UInt8 :=
  UInt8.ofNat c.toNat

theorem digit_byteOf {c : Char} (h : c.isDigit = true) :
    Ascii.toChar (byteOf c) = c ∧ Ascii.isDigit (byteOf c) = true ∧ (byteOf c).toNat = c.toNat := by
  have hcodes : ∀ k < 58, (Char.ofNat k).isDigit = true →
      Ascii.toChar (byteOf (Char.ofNat k)) = Char.ofNat k ∧
      Ascii.isDigit (byteOf (Char.ofNat k)) = true ∧
      (byteOf (Char.ofNat k)).toNat = (Char.ofNat k).toNat := by
    decide +kernel
  have hlt : c.toNat < 58 := by
    simp only [Char.isDigit, Bool.and_eq_true, decide_eq_true_eq] at h
    exact Nat.lt_succ_of_le h.2
  have hc := hcodes c.toNat hlt
  rw [Char.ofNat_toNat] at hc
  exact hc h

theorem text_digits {cs : List Char} (h : ∀ c ∈ cs, c.isDigit = true) :
    Ascii.text (cs.map byteOf) = String.ofList cs := by
  have hchars : (cs.map byteOf).map Ascii.toChar = cs := by
    rw [List.map_map]
    exact (List.map_congr_left fun c hc => (digit_byteOf (h c hc)).1).trans (List.map_id cs)
  rw [Ascii.text, hchars]

theorem decimal_digits {cs : List Char} (h : ∀ c ∈ cs, c.isDigit = true) :
    Ascii.decimal (cs.map byteOf) = Nat.ofDigitChars 10 cs 0 := by
  rw [Ascii.decimal, List.foldl_map, Nat.ofDigitChars]
  generalize 0 = value
  induction cs generalizing value with
  | nil => rfl
  | cons c cs ih =>
    obtain ⟨hc, hcs⟩ := List.forall_mem_cons.mp h
    rw [List.foldl_cons, List.foldl_cons, (digit_byteOf hc).2.2]
    exact ih hcs _

/-- The digits of a number denote it. -/
theorem exists_digits (n : Nat) : ∃ b bs, toString (n : Int) = Ascii.text (b :: bs) ∧
    (∀ d ∈ b :: bs, Ascii.isDigit d = true) ∧ Ascii.decimal (b :: bs) = n := by
  have hdigits : ∀ c ∈ Nat.toDigits 10 n, c.isDigit = true :=
    fun c hc => Nat.isDigit_of_mem_toDigits (by omega) (by omega) hc
  have hbytes : ∀ d ∈ (Nat.toDigits 10 n).map byteOf, Ascii.isDigit d = true := by
    intro d hd
    obtain ⟨c, hc, rfl⟩ := List.mem_map.mp hd
    exact (digit_byteOf (hdigits c hc)).2.1
  have htext : toString (n : Int) = Ascii.text ((Nat.toDigits 10 n).map byteOf) :=
    (text_digits hdigits).symm
  have hdecimal := (decimal_digits hdigits).trans Nat.ofDigitChars_ten_toDigits
  obtain ⟨b, bs, hcons⟩ := List.exists_cons_of_ne_nil
    (show (Nat.toDigits 10 n).map byteOf ≠ [] by simp)
  rw [hcons] at hbytes htext hdecimal
  exact ⟨b, bs, htext, hbytes, hdecimal⟩

/-- A number that fits is read as the number. -/
theorem spells_int {n : Nat} (h : n ≤ Run.maxInt) :
    Spells lx (encode (toString (n : Int))) .intConst (.int n) := by
  obtain ⟨b, bs, htext, hdigits, rfl⟩ := exists_digits n
  have hclass : ∀ d : UInt8, Ascii.isDigit d = true → d < 128 ∧ Ascii.isBlank d = false :=
    forall_byte (by decide +kernel)
  obtain ⟨hb, hbs⟩ := List.forall_mem_cons.mp hdigits
  rw [htext, Text.Utf8.encode_text fun d hd => (hclass d (hdigits d hd)).1]
  refine ⟨b, bs, rfl, fun rest hrest => ?_⟩
  have hfraction : fractionOf rest = none := by
    cases rest with
    | nil => rfl
    | cons c rest => rw [hrest c rfl, fractionOf, if_neg (by simp [Ascii.dot])]
  rw [itemAt_of_not_opens lx (isDigit_not_opens b _ hb), if_neg (by simp [(hclass b hb).2]),
    if_pos hb, hrest.takeWhile_append (by decide) hbs, hrest.dropWhile_append (by decide) hbs,
    numberItem, hfraction]
  simp only [if_pos h]
  rfl

/-! ## Escapes -/

/-- The byte of a hexadecimal digit. -/
def hexDigit (d : UInt8) : UInt8 :=
  byteOf (Nat.digitChar d.toNat)

/-- A printable character, a tab, a newline or a carriage return. -/
def Shown (b : UInt8) : Prop :=
  (32 ≤ b ∧ b ≤ 126) ∨ b = 9 ∨ b = 10 ∨ b = 13

/-- How a byte is written: as itself, as a letter behind a backslash, or by its two hexadecimal
digits if it is not shown otherwise. -/
inductive Escapes (b : UInt8) : List UInt8 → Prop
  | plain (hquote : b ≠ Ascii.doubleQuote) (hmark : b ≠ Ascii.singleQuote)
      (hescape : b ≠ Ascii.backslash) (hline : b ≠ Ascii.newline) : Escapes b [b]
  | letter {c : UInt8} (hhex : c ≠ Ascii.lowerX) (hline : c ≠ Ascii.newline)
      (hvalue : unescape c = b) : Escapes b [Ascii.backslash, c]
  | hex (hhidden : ¬ Shown b) :
      Escapes b [Ascii.backslash, Ascii.lowerX, hexDigit (b / 16), hexDigit (b % 16)]

theorem encode_hexByte (b : UInt8) :
    encode (Text.hexByte b) = [hexDigit (b / 16), hexDigit (b % 16)] := by
  have hdigit : ∀ d < 16, String.utf8EncodeChar (Nat.digitChar d) = [byteOf (Nat.digitChar d)] := by
    decide +kernel
  have hb := b.toNat_lt
  simp only [encode, Text.hexByte, String.toList_ofList, List.flatMap_cons, List.flatMap_nil,
    hdigit (b.toNat / 16) (by omega), hdigit (b.toNat % 16) (by omega), hexDigit, UInt8.toNat_div,
    UInt8.toNat_mod]
  rfl

theorem escapes_letter {c : UInt8} (hc : c ∈ [116, 114, 110, 92, 39, 34])
    (hvalue : unescape c = b) : Escapes b (encode (String.ofList ['\\', Ascii.toChar c])) := by
  have hletter : c < 128 ∧ c ≠ Ascii.lowerX ∧ c ≠ Ascii.newline := by
    simp only [List.mem_cons, List.not_mem_nil, or_false] at hc
    obtain rfl | rfl | rfl | rfl | rfl | rfl := hc <;> decide
  have htext : String.ofList ['\\', Ascii.toChar c] = Ascii.text [Ascii.backslash, c] := rfl
  have hascii : ∀ d ∈ [Ascii.backslash, c], d < 128 := by
    simpa [Ascii.backslash] using hletter.1
  rw [htext, Text.Utf8.encode_text hascii]
  exact .letter hletter.2.1 hletter.2.2 hvalue

theorem escapes_hex (h : ¬ Shown b) : Escapes b (encode ("\\x" ++ Text.hexByte b)) := by
  have hmark : encode "\\x" = [Ascii.backslash, Ascii.lowerX] := by decide +kernel
  rw [Text.Utf8.encode_append, encode_hexByte, hmark]
  exact .hex h

/-- The letters behind a backslash. -/
theorem escapes_shortEscape {letter : Char}
    (h : Text.shortEscape? (Ascii.toChar b) = some letter) :
    Escapes b (encode (String.ofList ['\\', letter])) := by
  unfold Text.shortEscape? at h
  split at h
  · next hb =>
    cases h
    exact eq_of_toChar hb ▸ escapes_letter (c := 116) (by decide) (by decide)
  · next hb =>
    cases h
    exact eq_of_toChar hb ▸ escapes_letter (c := 114) (by decide) (by decide)
  · next hb =>
    cases h
    exact eq_of_toChar hb ▸ escapes_letter (c := 110) (by decide) (by decide)
  · next hb =>
    cases h
    exact eq_of_toChar hb ▸ escapes_letter (c := 92) (by decide) (by decide)
  · cases h

/-- A byte that has no letter stands for itself, or is a quote, or is not shown. -/
theorem ne_of_shortEscape (h : Text.shortEscape? (Ascii.toChar b) = none) :
    b ≠ 9 ∧ b ≠ 10 ∧ b ≠ 13 ∧ b ≠ Ascii.backslash := by
  refine ⟨?_, ?_, ?_, ?_⟩ <;> rintro rfl <;> cases h

theorem escapes_escapeByte (b : UInt8) : Escapes b (encode (Text.escapeByte b)) := by
  unfold Text.escapeByte
  split
  · next hascii =>
    dsimp only
    cases hletter : Text.shortEscape? (Ascii.toChar b) with
    | some letter =>
      rw [show Text.shortEscape? (Char.ofNat b.toNat) = some letter from hletter]
      exact escapes_shortEscape hletter
    | none =>
      rw [show Text.shortEscape? (Char.ofNat b.toNat) = none from hletter]
      obtain ⟨htab, hline, hreturn, hescape⟩ := ne_of_shortEscape hletter
      dsimp only
      split
      · next hquote =>
        obtain hb | hb := hquote
        · exact eq_of_toChar hb ▸ escapes_letter (c := 39) (by decide) (by decide)
        · exact eq_of_toChar hb ▸ escapes_letter (c := 34) (by decide) (by decide)
      next hquote =>
      split
      · have htext : String.singleton (Char.ofNat b.toNat) = Ascii.text [b] := rfl
        rw [htext, Text.Utf8.encode_text (by simpa using hascii)]
        exact .plain (fun hb => hquote (.inr (hb ▸ rfl))) (fun hb => hquote (.inl (hb ▸ rfl)))
          hescape hline
      · next hrange =>
        refine escapes_hex ?_
        rintro (hb | hb | hb | hb)
        · exact hrange hb
        · exact htab hb
        · exact hline hb
        · exact hreturn hb
  · next hascii =>
    refine escapes_hex ?_
    rintro (⟨-, hb⟩ | rfl | rfl | rfl)
    · exact hascii (UInt8.lt_of_le_of_lt hb (by decide))
    all_goals exact hascii (by decide)

/-! ## Characters -/

/-- A byte that is shown is written in the same way in both kinds of literals. -/
theorem escapeChar_toChar (h : Shown b) : Text.escapeChar (Ascii.toChar b) = Text.escapeByte b := by
  have hascii : b < 128 := by
    obtain ⟨-, hb⟩ | rfl | rfl | rfl := h
    · exact UInt8.lt_of_le_of_lt hb (by decide)
    all_goals decide
  have hchar : Char.ofNat b.toNat = Ascii.toChar b := rfl
  unfold Text.escapeChar Text.escapeByte
  rw [if_pos hascii]
  dsimp only
  rw [hchar]
  cases hletter : Text.shortEscape? (Ascii.toChar b) with
  | some letter => rfl
  | none =>
    obtain ⟨htab, hline, hreturn, -⟩ := ne_of_shortEscape hletter
    have hrange : 32 ≤ b ∧ b ≤ 126 := by simpa [Shown, htab, hline, hreturn] using h
    have hrange' : 0x20 ≤ (Ascii.toChar b).toNat ∧ (Ascii.toChar b).toNat ≤ 0x7E := by
      rw [toNat_toChar]
      exact ⟨UInt8.le_iff_toNat_le.mp hrange.1, UInt8.le_iff_toNat_le.mp hrange.2⟩
    dsimp only
    rw [if_pos hrange, if_pos hrange']

theorem Escapes.charLiteral_append (h : Escapes b bytes) (hshown : Shown b) (rest : List UInt8) :
    charLiteral (bytes ++ Ascii.singleQuote :: rest) = some (b, bytes.length + 1) := by
  cases h with
  | plain hquote hmark hescape hline =>
    simp [charLiteral, hline, hescape]
  | letter hhex hline hvalue =>
    rw [List.cons_append, List.singleton_append, charLiteral, if_neg (by decide), if_pos rfl]
    exact (if_pos ⟨hline, rfl⟩).trans (by rw [hvalue]; rfl)
  | hex hhidden => exact absurd hshown hhidden

/-- A character is read by the escape that is written for it. -/
theorem spells_char (h : Shown b) :
    Spells lx (encode ("'" ++ Text.escapeChar (Ascii.toChar b) ++ "'")) .charConst (.char b) := by
  have hmark : encode "'" = [Ascii.singleQuote] := by decide +kernel
  rw [escapeChar_toChar h, Text.Utf8.encode_append, Text.Utf8.encode_append, hmark]
  refine ⟨Ascii.singleQuote, encode (Text.escapeByte b) ++ [Ascii.singleQuote], rfl,
    fun rest _ => ?_⟩
  rw [itemAt_singleQuote, List.append_assoc, List.singleton_append,
    (escapes_escapeByte b).charLiteral_append h, List.length_append]
  rfl

/-! ## Strings -/

theorem stringLiteral_plain (hquote : b ≠ Ascii.doubleQuote) (hescape : b ≠ Ascii.backslash)
    (bs : List UInt8) : stringLiteral (b :: bs)
      = (stringLiteral bs).map fun found => (b :: found.1, 1 + found.2) := by
  rw [stringLiteral, if_neg hquote, if_neg hescape]

theorem stringLiteral_letter (h : b ≠ Ascii.lowerX) (bs : List UInt8) :
    stringLiteral (Ascii.backslash :: b :: bs)
      = (stringLiteral bs).map fun found => (unescape b :: found.1, 2 + found.2) := by
  rw [stringLiteral, if_neg (by decide), if_pos rfl, escape, if_neg h]
  rfl

/-- The digits that are written for a byte have the values of its halves. -/
theorem hexValue?_hexDigit (b : UInt8) :
    Ascii.hexValue? (hexDigit (b / 16)) = some (b / 16) ∧
    Ascii.hexValue? (hexDigit (b % 16)) = some (b % 16) := by
  have hdigit : ∀ d : UInt8, d < 16 → Ascii.hexValue? (hexDigit d) = some d :=
    forall_byte (by decide +kernel)
  refine ⟨hdigit _ ?_, hdigit _ ?_⟩
  · have hb := b.toNat_lt
    rw [UInt8.lt_iff_toNat_lt, UInt8.toNat_div]
    show b.toNat / 16 < 16
    omega
  · rw [UInt8.lt_iff_toNat_lt, UInt8.toNat_mod]
    show b.toNat % 16 < 16
    omega

/-- The digits that are written for a byte denote it. -/
theorem hexadecimal_hexDigit (b : UInt8) :
    hexadecimal [hexDigit (b / 16), hexDigit (b % 16)] = b := by
  have hb := b.toNat_lt
  obtain ⟨hhigh, hlow⟩ := hexValue?_hexDigit b
  simp only [hexadecimal, hexadecimal.hexValue, hhigh, hlow, List.foldl_cons, List.foldl_nil,
    Option.getD_some]
  refine UInt8.toNat_inj.mp ?_
  simp only [UInt8.toNat_add, UInt8.toNat_mul, UInt8.toNat_div, UInt8.toNat_mod,
    UInt8.reduceToNat]
  omega

theorem stringLiteral_hex (b : UInt8) (bs : List UInt8) :
    stringLiteral (Ascii.backslash :: Ascii.lowerX :: hexDigit (b / 16) :: hexDigit (b % 16) :: bs)
      = (stringLiteral bs).map fun found => (b :: found.1, 4 + found.2) := by
  obtain ⟨hhigh, hlow⟩ := hexValue?_hexDigit b
  have hdigits : hexDigits (hexDigit (b / 16) :: hexDigit (b % 16) :: bs)
      = [hexDigit (b / 16), hexDigit (b % 16)] := by
    simp [hexDigits, hhigh, hlow]
  have hescape : escape (Ascii.lowerX :: hexDigit (b / 16) :: hexDigit (b % 16) :: bs)
      = ([b], 3) := by
    rw [escape, if_pos rfl, hdigits]
    show ([hexadecimal _], 3) = _
    rw [hexadecimal_hexDigit]
  rw [stringLiteral, if_neg (by decide), if_pos rfl, hescape]
  rfl

/-- What is written for a byte is read as the byte. -/
theorem Escapes.stringLiteral_append (h : Escapes b bytes) (bs : List UInt8) :
    stringLiteral (bytes ++ bs)
      = (stringLiteral bs).map fun found => (b :: found.1, bytes.length + found.2) := by
  cases h with
  | plain hquote _ hescape => exact stringLiteral_plain hquote hescape bs
  | letter hhex _ hvalue => exact hvalue ▸ stringLiteral_letter hhex bs
  | hex _ => exact stringLiteral_hex b bs

theorem stringLiteral_escapeBytes (content rest : List UInt8) :
    stringLiteral (encode (Text.escapeBytes content) ++ Ascii.doubleQuote :: rest)
      = some (content, (encode (Text.escapeBytes content)).length + 1) := by
  induction content with
  | nil => simp [Text.escapeBytes, encode, stringLiteral]
  | cons b content ih =>
    have hcons : encode (Text.escapeBytes (b :: content))
        = encode (Text.escapeByte b) ++ encode (Text.escapeBytes content) := by
      simp [Text.escapeBytes]
    rw [hcons, List.append_assoc, (escapes_escapeByte b).stringLiteral_append, ih,
      List.length_append, Nat.add_assoc]
    rfl

/-- A string is read by the escapes that are written for its bytes. -/
theorem spells_string (content : List UInt8) :
    Spells lx (encode ("\"" ++ Text.escapeBytes content ++ "\"")) .stringConst
      (.string content) := by
  have hquote : encode "\"" = [Ascii.doubleQuote] := by decide +kernel
  refine ⟨Ascii.doubleQuote, encode (Text.escapeBytes content) ++ [Ascii.doubleQuote], ?_,
    fun rest _ => ?_⟩
  · rw [Text.Utf8.encode_append, Text.Utf8.encode_append, hquote]
    rfl
  · rw [itemAt_doubleQuote, List.append_assoc, List.singleton_append, stringLiteral_escapeBytes,
      List.length_append]
    rfl

end Munch

/-! ## Tokens of a written source -/

namespace Token

open Munch

/-- What is read again where it is written: a keyword, an operator, a byte with a meaning of its
own, a name that is no keyword, a number that is not too large, any string, and a printable
character, a tab, a newline or a carriage return. -/
inductive Rereads : TokenKind → TokenValue → Prop
  | keyword {k : TokenKind} (h : k ∈ Lexicon.standardKeywords) : Rereads k .none
  | operator {k : TokenKind} (h : k ∈ Lexicon.standardOperators) : Rereads k .none
  | punctuation {b : UInt8} (h : TokenKind.ofByte b ≠ .other (Ascii.toChar b)) :
      Rereads (.ofByte b) .none
  | identifier {b : UInt8} {bs : List UInt8} (hb : Ascii.isWordStart b = true)
      (hbs : ∀ c ∈ bs, Ascii.isWordPart c = true) (hlength : (b :: bs).length ≤ 512)
      (hword : ∀ kind ∈ Lexicon.standardKeywords, kind.describe ≠ Ascii.text (b :: bs)) :
      Rereads .identifier (.identifier (Ascii.text (b :: bs)))
  | int {n : Nat} (h : n ≤ Run.maxInt) : Rereads .intConst (.int n)
  | string (content : List UInt8) : Rereads .stringConst (.string content)
  | char {b : UInt8} (h : Shown b) : Rereads .charConst (.char b)

/-- The text of a token that is read again spells it. -/
theorem Rereads.spells {t : Token} (h : Rereads t.kind t.value) :
    Spells .standard (encode t.text) t.kind t.value := by
  obtain ⟨kind, value, position⟩ := t
  cases h with
  | keyword h => exact spells_keyword h
  | operator h => exact spells_operator (List.mem_append_left _ h)
  | punctuation h => exact spells_operator (List.mem_append_right _ (ofByte_mem_punctuation h))
  | identifier hb hbs hlength hword => exact spells_identifier hb hbs hlength hword
  | int h => exact spells_int h
  | string content => exact spells_string content
  | char h => exact spells_char h

/-- What a token is, without its place. -/
def content (t : Token) : TokenKind × TokenValue :=
  (t.kind, t.value)

/-- Behind the first of some tokens there is a space in front of the others, if there are any. -/
theorem encode_spaced_cons (t : Token) (tokens : List Token) : ∃ gap,
    encode (" ".intercalate ((t :: tokens).map text)) =
      encode t.text ++ (gap ++ encode (" ".intercalate (tokens.map text))) ∧
    (∀ b ∈ gap, Ascii.isBlank b = true) ∧
    Parted (gap ++ encode (" ".intercalate (tokens.map text))) := by
  cases tokens with
  | nil =>
    refine ⟨[], ?_, List.forall_mem_nil _, parted_nil⟩
    rw [List.map_singleton, String.intercalate_singleton, List.nil_append, List.map_nil,
      String.intercalate_nil, show encode "" = [] by rfl, List.append_nil]
  | cons u tokens =>
    have hspace : encode " " = [32] := by decide +kernel
    refine ⟨[32], ?_, List.forall_mem_singleton.mpr rfl, parted_space _⟩
    rw [List.map_cons, List.map_cons, String.intercalate_cons_cons, Text.Utf8.encode_append,
      Text.Utf8.encode_append, hspace, List.append_assoc]

/-- **Tokens that are written with spaces between them are scanned again.** -/
theorem exists_scan_spaced {lx : Lexicon} {tokens : List Token}
    (h : ∀ t ∈ tokens, Spells lx (encode t.text) t.kind t.value) (length : Nat) :
    ∃ lexemes, scan lx length (encode (" ".intercalate (tokens.map text))) = .ok lexemes ∧
      lexemes.map (fun l => (l.kind, l.value)) = tokens.map content ++ [(.eof, .none)] := by
  induction tokens with
  | nil => exact ⟨[⟨.eof, .none, length⟩], by simp [encode, scan], rfl⟩
  | cons t tokens ih =>
    obtain ⟨ht, htokens⟩ := List.forall_mem_cons.mp h
    obtain ⟨lexemes, hscan, hcontent⟩ := ih htokens
    obtain ⟨gap, hbytes, hgap, hparted⟩ := encode_spaced_cons t tokens
    refine ⟨⟨t.kind, t.value, length - (encode (" ".intercalate ((t :: tokens).map text))).length⟩
      :: lexemes, ?_, congrArg (t.content :: ·) hcontent⟩
    rw [hbytes, ht.scan hparted, scan_blanks hgap, hscan]
    rfl

/-- No comment opens between them. -/
theorem nesting_spaced {lx : Lexicon} {tokens : List Token}
    (h : ∀ t ∈ tokens, Spells lx (encode t.text) t.kind t.value) :
    nesting lx (encode (" ".intercalate (tokens.map text))) = 0 := by
  induction tokens with
  | nil => simp [encode, nesting]
  | cons t tokens ih =>
    obtain ⟨ht, htokens⟩ := List.forall_mem_cons.mp h
    obtain ⟨gap, hbytes, hgap, hparted⟩ := encode_spaced_cons t tokens
    rw [hbytes, ht.nesting hparted, nesting_blanks hgap, ih htokens]

/-- **Tokens that are written with spaces between them are the tokens of that source**, followed
by its end: each has its kind and its value again. -/
theorem ofSource_spaced {tokens : List Token} (h : ∀ t ∈ tokens, Rereads t.kind t.value) :
    (ofSource .standard (encode (" ".intercalate (tokens.map text)))).map (List.map content)
      = .ok (tokens.map content ++ [(.eof, .none)]) := by
  have hspells : ∀ t ∈ tokens, Spells .standard (encode t.text) t.kind t.value := fun t ht =>
    (h t ht).spells
  obtain ⟨lexemes, hscan, hcontent⟩ := exists_scan_spaced hspells
    (encode (" ".intercalate (tokens.map text))).length
  have hnesting := nesting_spaced hspells
  rw [ofSource_eq_located (by omega), hscan, ← hcontent]
  simp [located, Except.map, content, Function.comp_def]

/-- Two slashes, a brace and a dash are no comments with spaces between them, and a byte that is
no text is read from its digits. -/
theorem ofSource_spaced_slashes :
    let tokens : List Token := [⟨.slash, .none, .start⟩, ⟨.slash, .none, .start⟩,
      ⟨.openCurly, .none, .start⟩, ⟨.dash, .none, .start⟩, ⟨.intConst, .int 7, .start⟩,
      ⟨.arrow, .none, .start⟩, ⟨.stringConst, .string [10, 34, 255], .start⟩,
      ⟨.charConst, .char 39, .start⟩]
    " ".intercalate (tokens.map text) = "/ / \x7b - 7 -> \"\\n\\\"\\xff\" '\\''" ∧
      (ofSource .standard (encode "/ / \x7b - 7 -> \"\\n\\\"\\xff\" '\\''")).map (List.map content)
        = .ok (tokens.map content ++ [(.eof, .none)]) := by
  intro tokens
  have htext : " ".intercalate (tokens.map text)
      = "/ / \x7b - 7 -> \"\\n\\\"\\xff\" '\\''" := by
    decide +kernel
  have hrereads : ∀ t ∈ tokens, Rereads t.kind t.value := by
    have hslash : Rereads .slash .none := .punctuation (b := 47) (by decide)
    have hbrace : Rereads .openCurly .none := .punctuation (b := 123) (by decide)
    have hdash : Rereads .dash .none := .punctuation (b := 45) (by decide)
    simp only [tokens, List.forall_mem_cons]
    exact ⟨hslash, hslash, hbrace, hdash, .int (n := 7) (by decide), .operator (by decide),
      .string _, .char (.inl (by decide)), List.forall_mem_nil _⟩
  exact ⟨htext, htext ▸ ofSource_spaced hrereads⟩

end Token

end Braced

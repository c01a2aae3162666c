import Braced.Proofs.Position
import Braced.Proofs.Token.Literal
import Braced.Proofs.Token.Runs

/-!
# Braced.Proofs.Token.Scan

Reading a source through runs is the same as taking as many bytes as belong
together at each place.

A reader with nothing open passes what begins at the next byte
(`Reader.resume_item`), and is then again a reader with nothing open; so its
tokens are those of `Munch.scan`.  Comments are the one thing that is counted on
the way, so this holds as long as the count does (`Munch.nesting`).
-/

namespace Braced

open Munch

/-! ## Symbols -/

namespace Munch

variable {bs : List UInt8}

theorem prefix_symbols : symbols bs <+: bs := by
  induction bs with
  | nil => exact List.prefix_rfl
  | cons b bs ih =>
    unfold symbols
    split
    · exact List.nil_prefix
    · exact List.cons_prefix_cons.mpr ⟨rfl, ih⟩

/-- Where an operator has to end does not depend on where it starts. -/
theorem symbols_drop {n : Nat} (h : n ≤ (symbols bs).length) :
    symbols (bs.drop n) = (symbols bs).drop n := by
  induction bs generalizing n with
  | nil => simp [symbols]
  | cons b bs ih =>
    cases n with
    | zero => rfl
    | succ n =>
      cases hstops : stops (b :: bs) with
      | false =>
        have hsymbols : symbols (b :: bs) = b :: symbols bs := by simp [symbols, hstops]
        rw [hsymbols] at h ⊢
        exact ih (by simpa using h)
      | true => simp [symbols, hstops] at h

theorem newline_not_mem_symbols : Ascii.newline ∉ symbols bs := by
  induction bs with
  | nil => simp [symbols]
  | cons b bs ih =>
    cases hstops : stops (b :: bs) with
    | false =>
      have hb : Ascii.newline ≠ b := by
        rintro rfl
        cases hstops
      simp [symbols, hstops, hb, ih]
    | true => simp [symbols, hstops]

end Munch

/-! ## What begins at a byte -/

namespace Reader

variable {lx : Lexicon} {here start : Position} {read : List Token} {b : UInt8} {bs : List UInt8}

/-- The tokens of the rest of a source, by what begins at its first byte. -/
def resumeItem (lx : Lexicon) (here : Position) (read : List Token) (b : UInt8) (bs : List UInt8) :
    Item → Except Diagnostic (List Token)
  | .gap more => skip lx (here.after b) read more bs
  | .token kind value more => skip lx (here.after b) (⟨kind, value, here⟩ :: read) more bs
  | .fault fault => .error ⟨fault, here⟩

/-- Of the symbols at the front the first token can be read alone. -/
theorem resume_first_symbol {kind : TokenKind} {n : Nat} (hn : n ≤ (symbols bs).length)
    (htokens : Run.symbolTokens lx here (symbols bs) = ⟨kind, .none, here⟩ ::
      Run.symbolTokens lx (here.right n) ((symbols bs).drop n)) :
    (within .idle here read).resume lx bs = skip lx here (⟨kind, .none, here⟩ :: read) n bs := by
  have hplace : here.afterAll (bs.take n) = here.right n := by
    have hsymbols : symbols bs <+: bs := prefix_symbols
    have htake : bs.take n = (symbols bs).take n := by
      rw [List.prefix_iff_eq_take.mp hsymbols, List.take_take, Nat.min_eq_left hn]
    have hnewline : Ascii.newline ∉ (symbols bs).take n := fun h =>
      newline_not_mem_symbols (List.mem_of_mem_take h)
    rw [htake, Position.afterAll_eq_right _ hnewline, List.length_take_of_le hn]
  have hlength : (symbols bs).length = n + ((symbols bs).drop n).length := by
    rw [List.length_drop]
    omega
  calc (within .idle here read).resume lx bs
      = skip lx here ((Run.symbolTokens lx here (symbols bs)).reverse ++ read)
          (symbols bs).length bs := resume_idle_symbols
    _ = skip lx (here.right n) ((Run.symbolTokens lx (here.right n)
          ((symbols bs).drop n)).reverse ++ ⟨kind, .none, here⟩ :: read)
          ((symbols bs).drop n).length (bs.drop n) := by
        rw [hlength, skip_add, hplace, htokens]
        simp
    _ = (within .idle (here.right n) (⟨kind, .none, here⟩ :: read)).resume lx (bs.drop n) := by
        rw [← symbols_drop hn, ← resume_idle_symbols]
    _ = skip lx here (⟨kind, .none, here⟩ :: read) n bs := by
        rw [skip, hplace]

/-- Of a run of symbols the first operator can be read alone. -/
theorem resume_operator (hstops : stops (b :: bs) = false) :
    (within .idle here read).resume lx (b :: bs) =
      resumeItem lx here read b bs (operatorItem lx b bs) := by
  have hsymbols : symbols (b :: bs) = b :: symbols bs := by simp [symbols, hstops]
  have hfound := Lexicon.longestOperator_eq_longestIn lx (symbols (b :: bs))
  simp only [operatorItem]
  cases hlongest : longestIn (symbols (b :: bs)) lx.operators with
  | none =>
    rw [hlongest, hsymbols] at hfound
    have htokens : Run.symbolTokens lx here (symbols (b :: bs)) = ⟨.ofByte b, .none, here⟩ ::
        Run.symbolTokens lx (here.right 1) ((symbols (b :: bs)).drop 1) := by
      rw [hsymbols, Run.symbolTokens, hfound]
      rfl
    exact resume_first_symbol (by simp [hsymbols]) htokens
  | some found =>
    obtain ⟨kind, n⟩ := found
    have hlong : Lexicon.IsLongest lx.operators (symbols (b :: bs)) (symbols (b :: bs)).length
        (longestIn (symbols (b :: bs)) lx.operators) := Lexicon.isLongest_longestIn
    rw [hlongest] at hlong hfound
    obtain ⟨hpos, hle, -, -⟩ := hlong
    obtain ⟨m, rfl⟩ := Nat.exists_eq_add_one.mpr hpos
    have htokens : Run.symbolTokens lx here (symbols (b :: bs)) = ⟨kind, .none, here⟩ ::
        Run.symbolTokens lx (here.right (m + 1)) ((symbols (b :: bs)).drop (m + 1)) := by
      rw [hsymbols] at hfound ⊢
      rw [Run.symbolTokens, hfound]
      rfl
    exact resume_first_symbol hle htokens

/-! ## Words and numbers -/

theorem isDigit_of_mem_takeWhile {d : UInt8} (h : d ∈ bs.takeWhile Ascii.isDigit) :
    Ascii.isDigit d = true :=
  List.all_eq_true.mp List.all_takeWhile d h

theorem ne_dot_of_isDigit {d : UInt8} (h : Ascii.isDigit d = true) : d ≠ Ascii.dot := by
  rintro rfl
  cases h

theorem numberToken_digits {digits : List UInt8} (h : ∀ d ∈ digits, Ascii.isDigit d = true) :
    Run.numberToken start digits =
      if Ascii.decimal digits ≤ Run.maxInt then
        .ok ⟨.intConst, .int (Ascii.decimal digits), start⟩
      else .error ⟨.unreadableNumber (Ascii.text digits), start⟩ := by
  have hne : ∀ d ∈ digits, decide (d ≠ Ascii.dot) = true := fun d hd =>
    decide_eq_true (ne_dot_of_isDigit (h d hd))
  have htake := @List.takeWhile_append_of_pos _ _ digits [] hne
  have hdrop := @List.dropWhile_append_of_pos _ _ digits [] hne
  simp only [List.append_nil, List.takeWhile_nil, List.dropWhile_nil] at htake hdrop
  simp only [Run.numberToken, htake, hdrop]

theorem numberToken_fraction {digits fraction : List UInt8}
    (h : ∀ d ∈ digits, Ascii.isDigit d = true) :
    Run.numberToken start (digits ++ Ascii.dot :: fraction) =
      .ok ⟨.floatConst, .float (Binary64.ofDecimal (Ascii.decimal (digits ++ fraction))
        fraction.length), start⟩ := by
  have hne : ∀ d ∈ digits, decide (d ≠ Ascii.dot) = true := fun d hd =>
    decide_eq_true (ne_dot_of_isDigit (h d hd))
  simp only [Run.numberToken, List.takeWhile_append_of_pos hne, List.dropWhile_append_of_pos hne]
  simp

/-- A number is read by its digits and its fraction. -/
theorem resume_numberItem (hb : Ascii.isDigit b = true) :
    (within .idle here read).resume lx (b :: bs) =
      resumeItem lx here read b bs
        (numberItem (b :: bs.takeWhile Ascii.isDigit) (bs.dropWhile Ascii.isDigit)) := by
  have hwhole : Ascii.dot ∉ [b] := by
    simpa using (ne_dot_of_isDigit hb).symm
  have hdigits : ∀ d ∈ b :: bs.takeWhile Ascii.isDigit, Ascii.isDigit d = true := by
    intro d hd
    obtain rfl | hd := List.mem_cons.mp hd
    · exact hb
    · exact isDigit_of_mem_takeWhile hd
  rw [resume_starts (opens_of_isDigit hb) (ofByte?_of_isDigit hb), resume_number hwhole]
  simp only [numeral, numberItem]
  cases fractionOf (bs.dropWhile Ascii.isDigit) with
  | none =>
    have htoken := @numberToken_digits here _ hdigits
    simp only [List.reverse_singleton, List.singleton_append, Option.elim_none, List.append_nil,
      htoken]
    split <;> rfl
  | some fraction =>
    have htoken := @numberToken_fraction here _ fraction hdigits
    rw [List.cons_append] at htoken
    have hlength : (b :: bs.takeWhile Ascii.isDigit).length + fraction.length =
        (bs.takeWhile Ascii.isDigit ++ Ascii.dot :: fraction).length := by
      simp
      omega
    simp only [List.reverse_singleton, List.singleton_append, Option.elim_some, htoken,
      Except.bind, resumeItem, hlength]

/-- A word is read by its letters, digits and underscores. -/
theorem resume_wordItem (hdigit : Ascii.isDigit b = false) (hb : Ascii.isWordStart b = true) :
    (within .idle here read).resume lx (b :: bs) =
      resumeItem lx here read b bs (wordItem lx (b :: bs.takeWhile Ascii.isWordPart)) := by
  have hpart : Ascii.isWordPart b = true := by simp [Ascii.isWordPart, hb]
  have hkind : RunKind.ofByte? b = some .word := by simp [RunKind.ofByte?, hdigit, hb]
  rw [resume_starts (opens_of_isWordPart hpart) hkind, resume_word]
  simp only [wordItem, Run.wordToken, List.reverse_singleton, List.singleton_append]
  split
  · rfl
  · cases lx.keyword? (Ascii.text (b :: bs.takeWhile Ascii.isWordPart)) <;> rfl

/-- What begins at a byte is read alone, if no more comments are open at once than are
counted. -/
theorem resume_item (hdepth : depthAt b bs < 2 ^ 32) :
    (within .idle here read).resume lx (b :: bs) =
      resumeItem lx here read b bs (itemAt lx b bs) := by
  unfold itemAt
  by_cases hblank : Ascii.isBlank b = true
  · rw [if_pos hblank, resume_blank hblank]
    exact skip_zero.symm
  rw [if_neg hblank]
  by_cases hline : b = Ascii.slash ∧ bs.head? = some Ascii.slash
  · have hstep : (within .idle here read).step lx b bs.head? =
        .ok (within .lineComment (here.after b) read) := by
      obtain ⟨rfl, hahead⟩ := hline
      rw [hahead]
      rfl
    rw [if_pos hline, resume_cons hstep, resume_lineComment]
    rfl
  rw [if_neg hline]
  by_cases hblock : b = Ascii.openBrace ∧ bs.head? = some Ascii.dash
  · rw [depthAt, if_pos hblock] at hdepth
    rw [if_pos hblock]
    obtain ⟨rfl, hahead⟩ := hblock
    obtain ⟨bs, rfl⟩ := List.head?_eq_some_iff.mp hahead
    rw [List.tail_cons] at hdepth
    rw [resume_bracket rfl, List.tail_cons]
    refine (resume_blockComment here hdepth).trans ?_
    cases commentLength 0 bs with
    | none => rfl
    | some n => simp [resumeItem, Nat.add_comm 1]
  rw [if_neg hblock]
  by_cases hchar : b = Ascii.singleQuote
  · have hstep : (within .idle here read).step lx b bs.head? =
        .ok (within (.char here .value) (here.after b) read) := by
      subst hchar
      rfl
    rw [if_pos hchar, resume_cons hstep, resume_char]
    cases charLiteral bs <;> rfl
  rw [if_neg hchar]
  by_cases hstring : b = Ascii.doubleQuote
  · have hstep : (within .idle here read).step lx b bs.head? =
        .ok (within (.string here [] .plain) (here.after b) read) := by
      subst hstring
      rfl
    rw [if_pos hstring, resume_cons hstep, resume_string]
    cases stringLiteral bs <;> rfl
  rw [if_neg hstring]
  by_cases hdigit : Ascii.isDigit b = true
  · rw [if_pos hdigit, resume_numberItem hdigit]
  rw [if_neg hdigit]
  by_cases hword : Ascii.isWordStart b = true
  · rw [if_pos hword, resume_wordItem (by simpa using hdigit) hword]
  rw [if_neg hword]
  have hopens : opens b bs.head? = false := by
    simp only [opens, hchar, hstring, decide_false, Bool.false_or]
    grind
  have hstops : stops (b :: bs) = false := by
    simp [stops, Ascii.isWordPart, hblank, hopens, hdigit, hword]
  exact resume_operator hstops

/-- A token is taken over, and reading goes on behind it. -/
theorem resume_token {kind : TokenKind} {value : TokenValue} {more : Nat}
    (hitem : itemAt lx b bs = .token kind value more) :
    (within .idle here read).resume lx (b :: bs) =
      skip lx (here.after b) (⟨kind, value, here⟩ :: read) more bs := by
  have hdepth : depthAt b bs < 2 ^ 32 := by
    rw [depthAt_of_token hitem]
    exact Nat.two_pow_pos 32
  rw [resume_item hdepth, hitem, resumeItem]

end Reader

/-! ## Kinds and values -/

namespace Munch

/-- The kind and the value of a token that begins at byte `b` in front of `bs`. -/
inductive TokenAt (lx : Lexicon) (b : UInt8) (bs : List UInt8) : TokenKind → TokenValue → Prop
  | char (value : UInt8) : TokenAt lx b bs .charConst (.char value)
  | string (content : List UInt8) : TokenAt lx b bs .stringConst (.string content)
  | int (value : Nat) : TokenAt lx b bs .intConst (.int value)
  | float (value : Binary64) : TokenAt lx b bs .floatConst (.float value)
  | keyword {word : String} {kind : TokenKind} (h : lx.keyword? word = some kind) :
      TokenAt lx b bs kind .none
  | identifier (h : Ascii.isWordStart b = true) :
      TokenAt lx b bs .identifier (.identifier (Ascii.text (b :: bs.takeWhile Ascii.isWordPart)))
  | operator {text : List UInt8} {kind : TokenKind}
      (h : Lexicon.find? text lx.operators = some kind) : TokenAt lx b bs kind .none
  | byte : TokenAt lx b bs (.ofByte b) .none

variable {lx : Lexicon} {b : UInt8} {bs : List UInt8} {kind : TokenKind} {value : TokenValue}
  {more : Nat}

theorem tokenAt_of_numberItem {digits rest : List UInt8}
    (h : numberItem digits rest = .token kind value more) : TokenAt lx b bs kind value := by
  unfold numberItem at h
  split at h
  · split at h
    · cases h
      exact .int _
    · cases h
  · cases h
    exact .float _

theorem tokenAt_of_wordItem (hb : Ascii.isWordStart b = true)
    (h : wordItem lx (b :: bs.takeWhile Ascii.isWordPart) = .token kind value more) :
    TokenAt lx b bs kind value := by
  unfold wordItem at h
  split at h
  · cases h
  split at h
  · next hword =>
    cases h
    exact .keyword hword
  · cases h
    exact .identifier hb

theorem tokenAt_of_operatorItem (h : operatorItem lx b bs = .token kind value more) :
    TokenAt lx b bs kind value := by
  unfold operatorItem at h
  split at h
  · next n hlongest =>
    cases h
    have hfound : Lexicon.IsLongest lx.operators (symbols (b :: bs)) (symbols (b :: bs)).length
        (longestIn (symbols (b :: bs)) lx.operators) := Lexicon.isLongest_longestIn
    rw [hlongest] at hfound
    exact .operator hfound.2.2.1
  · cases h
    exact .byte

/-- What a token can be where it begins. -/
theorem tokenAt_of_itemAt (h : itemAt lx b bs = .token kind value more) :
    TokenAt lx b bs kind value := by
  unfold itemAt at h
  split at h
  · cases h
  split at h
  · cases h
  split at h
  · split at h <;> cases h
  split at h
  · split at h <;> cases h
    exact .char _
  split at h
  · split at h <;> cases h
    exact .string _
  split at h
  · exact tokenAt_of_numberItem h
  split at h
  · next hb => exact tokenAt_of_wordItem hb h
  · exact tokenAt_of_operatorItem h

end Munch

/-! ## Places -/

namespace Munch

variable {source before bs : List UInt8} {b : UInt8}

/-- What is left to be read tells the place. -/
theorem placeOf_eq (hsource : source = before ++ bs) :
    placeOf source (source.length - bs.length) = Position.start.afterAll before := by
  simp [placeOf, hsource]

theorem placeOf_eq_counted (source : List UInt8) (k : Nat) :
    placeOf source k = Position.counted (source.take k) :=
  Position.afterAll_start _

/-- An offset is that of the first token, or one behind it. -/
theorem mem_offsets_map {r : Except (Fault × Nat) (List Lexeme)} {l : Lexeme} {k : Nat}
    (h : k ∈ offsets (r.map (l :: ·))) : k = l.offset ∨ k ∈ offsets r := by
  cases r with
  | error e => exact .inr h
  | ok lexemes => exact List.mem_cons.mp h

end Munch

/-! ## A whole source -/

namespace Reader

variable {lx : Lexicon} {bs : List UInt8}

/-- **A reader with nothing open takes the items one by one**: its tokens are those
that it has read before and those that are scanned in the rest of the source. -/
theorem resume_eq_scan {source before : List UInt8} (hsource : source = before ++ bs)
    (hnesting : nesting lx bs < 2 ^ 32) (read : List Token) :
    (within .idle (Position.start.afterAll before) read).resume lx bs =
      (located source (scan lx source.length bs)).map (read.reverse ++ ·) := by
  -- Behind an item the reader has passed `more` bytes besides the first one.
  have hskip : ∀ {b : UInt8} {bs before : List UInt8} {read : List Token} {more : Nat},
      skip lx ((Position.start.afterAll before).after b) read more bs =
        (within .idle (Position.start.afterAll (before ++ b :: bs.take more)) read).resume lx
          (bs.drop more) := by
    intro b bs before read more
    rw [Position.afterAll_append]
    rfl
  have hrest : ∀ {b : UInt8} {bs before : List UInt8} {more : Nat}, source = before ++ b :: bs →
      source = (before ++ b :: bs.take more) ++ bs.drop more := by
    intro b bs before more h
    simp [h]
  have hplace := placeOf_eq hsource
  induction bs using scan.induct lx source.length generalizing before read with
  | case1 =>
    have hend : placeOf source source.length = Position.start.afterAll before := hplace
    rw [scan]
    simp [finish, within, Mode.idle, Run.close, located, Except.map, hend]
  | case2 b bs more hitem ih =>
    rw [nesting_of_gap hitem, Nat.max_lt] at hnesting
    rw [resume_item hnesting.1, scan_of_gap hitem, hitem, resumeItem, hskip]
    exact ih (hrest hsource) hnesting.2 read (placeOf_eq (hrest hsource))
  | case3 b bs kind value more hitem ih =>
    rw [nesting_of_token hitem] at hnesting
    rw [resume_token hitem, scan_of_token hitem, hskip,
      ih (hrest hsource) hnesting _ (placeOf_eq (hrest hsource))]
    cases scan lx source.length (bs.drop more) with
    | error e => rfl
    | ok lexemes => simp [located, Except.map, ← hplace]
  | case4 b bs fault hitem =>
    rw [nesting_of_fault hitem] at hnesting
    rw [resume_item hnesting, scan_of_fault hitem, hitem, resumeItem, ← hplace]
    rfl

/-- The end of a source is the last of its tokens. -/
theorem finish_ok {r : Reader} {tokens : List Token} (h : r.finish lx = .ok tokens) :
    ∃ inner, tokens = inner ++ [⟨.eof, .none, r.here⟩] := by
  unfold finish at h
  split at h
  · next run _ =>
    cases hclose : Run.close lx run with
    | error d =>
      rw [hclose] at h
      cases h
    | ok ts =>
      rw [hclose] at h
      cases h
      exact ⟨_, rfl⟩
  · cases h
    exact ⟨_, rfl⟩
  all_goals cases h

/-- What comments are open ends somewhere, or it is the fault that is reported. -/
theorem resume_comments (start here : Position) (read : List Token) (depth : UInt32) :
    (∃ n, (within (.comments start depth) here read).resume lx bs = skip lx here read n bs) ∨
      (within (.comments start depth) here read).resume lx bs =
        .error ⟨.unterminatedComment, start⟩ := by
  induction hn : bs.length using Nat.strongRecOn generalizing bs here depth with
  | ind n ih =>
  by_cases hdepth : depth = 0
  · exact .inl ⟨0, by rw [Mode.comments, if_pos hdepth, skip_zero]⟩
  have hmode : Mode.comments start depth = .blockComment start depth := if_neg hdepth
  rw [hmode]
  cases bs with
  | nil => exact .inr rfl
  | cons b bs =>
    rw [List.length_cons] at hn
    have hbracket : ∀ {c : UInt8} {rest : List UInt8} (depth' : UInt32), bs = c :: rest →
        (within (.blockComment start depth) here read).step lx b (some c) =
          .ok ((within (.blockComment start depth) here read).nextBracket b
            (.comments start depth') []) →
        (∃ n, (within (.blockComment start depth) here read).resume lx (b :: bs) =
          skip lx here read n (b :: bs)) ∨
        (within (.blockComment start depth) here read).resume lx (b :: bs) =
          .error ⟨.unterminatedComment, start⟩ := by
      rintro c rest depth' rfl hstep
      have hlength : rest.length < n := by
        rw [← hn, List.length_cons]
        omega
      rw [resume_bracket hstep]
      obtain ⟨more, hrest⟩ | hfault := ih _ hlength _ depth' rfl
      · exact .inl ⟨more + 2, hrest⟩
      · exact .inr hfault
    by_cases hopen : b = Ascii.openBrace ∧ bs.head? = some Ascii.dash
    · obtain ⟨rfl, hahead⟩ := hopen
      obtain ⟨rest, hbs⟩ := List.head?_eq_some_iff.mp hahead
      exact hbracket _ hbs rfl
    by_cases hclose : b = Ascii.dash ∧ bs.head? = some Ascii.closeBrace
    · obtain ⟨rfl, hahead⟩ := hclose
      obtain ⟨rest, hbs⟩ := List.head?_eq_some_iff.mp hahead
      exact hbracket _ hbs rfl
    have hstep : (within (.blockComment start depth) here read).step lx b bs.head? =
        .ok (within (.comments start depth) (here.after b) read) := by
      simp [within, step, commentStep, hopen, hclose, next, hmode]
    have hlength : bs.length < n := by omega
    rw [resume_cons hstep]
    obtain ⟨more, hrest⟩ | hfault := ih _ hlength _ depth rfl
    · exact .inl ⟨more + 1, hrest⟩
    · exact .inr hfault

/-- What is true of every token that begins at a byte, and of the end of a source, is true of
all tokens of a source. -/
theorem forall_of_resume {P : Token → Prop}
    (hitem : ∀ b bs kind value place, TokenAt lx b bs kind value → P ⟨kind, value, place⟩)
    (hend : ∀ place, P ⟨.eof, .none, place⟩) {here : Position} {read tokens : List Token}
    (hread : ∀ t ∈ read, P t) (h : (within .idle here read).resume lx bs = .ok tokens) :
    ∀ t ∈ tokens, P t := by
  induction hn : bs.length using Nat.strongRecOn generalizing bs here read with
  | ind n ih =>
  cases bs with
  | nil =>
    cases h
    intro t ht
    rcases List.mem_append.mp ht with ht | ht
    · exact hread t (by simpa [within] using ht)
    · exact List.mem_singleton.mp ht ▸ hend here
  | cons b bs =>
    have hskip : ∀ {place : Position} {read : List Token} (more : Nat), (∀ t ∈ read, P t) →
        skip lx place read more bs = .ok tokens → ∀ t ∈ tokens, P t := by
      intro place read more hread h
      refine ih _ ?_ hread h rfl
      rw [← hn, List.length_drop, List.length_cons]
      omega
    by_cases hopen : b = Ascii.openBrace ∧ bs.head? = some Ascii.dash
    · -- however deep comments nest, the reader gets behind them
      obtain ⟨rfl, hahead⟩ := hopen
      obtain ⟨rest, rfl⟩ := List.head?_eq_some_iff.mp hahead
      rw [resume_bracket rfl] at h
      obtain ⟨more, hrest⟩ | hfault := resume_comments here _ read 1
      · exact hskip (more + 1) hread (hrest.symm.trans h)
      · cases hfault.symm.trans h
    · rw [resume_item (by rw [depthAt, if_neg hopen]; decide)] at h
      cases hitem' : itemAt lx b bs with
      | gap more =>
        rw [hitem'] at h
        exact hskip more hread h
      | token kind value more =>
        rw [hitem'] at h
        exact hskip more (List.forall_mem_cons.mpr
          ⟨hitem _ _ _ _ _ (tokenAt_of_itemAt hitem'), hread⟩) h
      | fault fault =>
        rw [hitem'] at h
        cases h

end Reader

namespace Token

variable {lx : Lexicon} {source : List UInt8}

/-- The tokens of a source are those that are scanned in it, with their places. -/
theorem ofSource_eq_located (h : nesting lx source < 2 ^ 32) :
    ofSource lx source = located source (scan lx source.length source) := by
  have hscan := Reader.resume_eq_scan (List.nil_append source).symm h []
  calc ofSource lx source
      = (located source (scan lx source.length source)).map ([].reverse ++ ·) := hscan
    _ = located source (scan lx source.length source) := by
        cases located source (scan lx source.length source) <;> rfl

theorem forall_ofSource {P : Token → Prop}
    (hitem : ∀ b bs kind value place, TokenAt lx b bs kind value → P ⟨kind, value, place⟩)
    (hend : ∀ place, P ⟨.eof, .none, place⟩) {tokens : List Token}
    (h : ofSource lx source = .ok tokens) : ∀ t ∈ tokens, P t :=
  Reader.forall_of_resume hitem hend (List.forall_mem_nil _) h

/-- The tokens of a source are its lexemes with their places. -/
theorem lexemes_of_ofSource (hnesting : nesting lx source < 2 ^ 32) {tokens : List Token}
    (h : ofSource lx source = .ok tokens) :
    ∃ lexemes, scan lx source.length source = .ok lexemes ∧
      tokens = lexemes.map fun l => ⟨l.kind, l.value, placeOf source l.offset⟩ := by
  rw [ofSource_eq_located hnesting] at h
  cases hscan : scan lx source.length source with
  | error e =>
    rw [hscan] at h
    cases h
  | ok lexemes =>
    rw [hscan] at h
    exact ⟨lexemes, rfl, (Except.ok.inj h).symm⟩

end Token

/-- Brackets that open so many comments, one inside of the other. -/
def Munch.openings (n : Nat) : List UInt8 :=
  (List.replicate n [Ascii.openBrace, Ascii.dash]).flatten

namespace Munch

theorem openings_succ (n : Nat) :
    openings (n + 1) = Ascii.openBrace :: Ascii.dash :: openings n := rfl

theorem length_openings (n : Nat) : (openings n).length = 2 * n := by
  induction n with
  | zero => rfl
  | succ n ih =>
    rw [openings_succ, List.length_cons, List.length_cons, ih]
    omega

theorem newline_not_mem_openings (n : Nat) : Ascii.newline ∉ openings n := by
  simp [openings, Ascii.newline, Ascii.openBrace, Ascii.dash]

theorem commentLength_openings (inner n : Nat) (bs : List UInt8) :
    commentLength inner (openings n ++ bs) =
      (commentLength (inner + n) bs).map (2 * n + ·) := by
  induction n generalizing inner with
  | zero => simp [openings]
  | succ n ih =>
    have hopen : commentLength inner (openings (n + 1) ++ bs) =
        (commentLength (inner + 1) (openings n ++ bs)).map (2 + ·) := by
      cases inner <;> simp [openings_succ, commentLength]
    rw [hopen, ih, Nat.add_assoc, Nat.add_comm 1]
    cases commentLength (inner + (n + 1)) bs with
    | none => rfl
    | some more =>
      simp only [Option.map_some, Option.some.injEq]
      omega

end Munch

theorem Reader.resume_openings {lx : Lexicon} (start here : Position) (read : List Token)
    (rest : List UInt8) {depth n : Nat} (hpos : 0 < depth) (hle : depth + n ≤ 2 ^ 32) :
    (within (.comments start (UInt32.ofNat depth)) here read).resume lx (openings n ++ rest) =
      (within (.comments start (UInt32.ofNat (depth + n))) (here.afterAll (openings n))
        read).resume lx rest := by
  induction n generalizing depth here with
  | zero => rfl
  | succ n ih =>
    have hnext : 0 < depth + 1 := Nat.add_pos_right depth Nat.one_pos
    rw [comments_ofNat start hpos (by omega), openings_succ, List.cons_append, List.cons_append,
      resume_bracket rfl, ← ofNat_succ, ih _ hnext (by omega), Nat.add_assoc, Nat.add_comm 1]
    rfl

/-- Behind `2 ^ 32` brackets that open comments none is open by the count, and the place is
the first one again, so a source goes on as if it began there. It can end there, where the
scanner finds a comment that is not closed: with this many open comments the two ways of
reading part. -/
theorem Token.ofSource_openings (lx : Lexicon) :
    (∀ rest, ofSource lx (openings (2 ^ 32) ++ rest) = ofSource lx rest) ∧
    ofSource lx (openings (2 ^ 32)) = .ok [⟨.eof, .none, .start⟩] ∧
    scan lx (2 ^ 33) (openings (2 ^ 32)) = .error (.unterminatedComment, 0) := by
  obtain ⟨n, hn⟩ : ∃ n, n + 1 = 2 ^ 32 := ⟨2 ^ 32 - 1, rfl⟩
  have hrest : ∀ rest, ofSource lx (openings (2 ^ 32) ++ rest) = ofSource lx rest := by
    intro rest
    have hplace : Position.start.afterAll (openings (n + 1)) = .start := by
      rw [Position.afterAll_eq_right _ (newline_not_mem_openings _), length_openings, hn]
      rfl
    have hdepth : Mode.comments .start (UInt32.ofNat (1 + n)) = .idle := by
      rw [Nat.add_comm, hn]
      rfl
    rw [← hn, openings_succ]
    show (Reader.within .idle .start []).resume lx _ = _
    rw [List.cons_append, List.cons_append, Reader.resume_bracket rfl]
    refine (Reader.resume_openings .start _ [] rest Nat.one_pos (by omega)).trans ?_
    rw [hdepth]
    exact congrArg (fun place => (Reader.within .idle place []).resume lx rest) hplace
  refine ⟨hrest, ?_, ?_⟩
  · have hend := hrest []
    rw [List.append_nil] at hend
    rw [hend]
    rfl
  · have hitem : itemAt lx Ascii.openBrace (Ascii.dash :: openings n) =
        .fault .unterminatedComment := by
      have hlength := commentLength_openings 0 n []
      rw [List.append_nil, commentLength, Option.map_none] at hlength
      rw [itemAt, if_neg (by decide), if_neg (by simp [Ascii.openBrace, Ascii.slash]),
        if_pos ⟨rfl, rfl⟩, List.tail_cons, hlength]
    have hlength := length_openings (n + 1)
    rw [← hn, openings_succ, scan_of_fault hitem, ← openings_succ, hlength]
    congr
    omega

end Braced

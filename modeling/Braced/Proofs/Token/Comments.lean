import Braced.Proofs.Text.Lines
import Braced.Proofs.Token.Places
import Mathlib.Data.List.TakeWhile

/-!
# Braced.Proofs.Token.Comments

Comments are blank space.

`Munch.blankComments` is a source with its comments blanked out: each byte of a comment
is a space there, but for the newlines.  Nothing else of a source changes, so what begins
at a byte outside of comments is the same as before (`Munch.itemAt_blankComments`), a
comment is as many blanks as it has bytes, and no place moves.
-/

namespace Braced

open Munch

namespace Munch

/-! ## Comments and literals of a source -/

/-- What opens at a byte of a source that lies outside of comments and literals.  The
number says how many more bytes belong to it. -/
inductive Opening
  | comment (more : Nat)
  | literal (more : Nat)
  /-- A comment or a literal that is never closed. -/
  | unclosed
  /-- Neither a comment nor a literal. -/
  | code
  deriving DecidableEq, Repr

/-- What opens at byte `b` in front of `bs`. -/
def openingAt (b : UInt8) (bs : List UInt8) : Opening :=
  if b = Ascii.slash ∧ bs.head? = some Ascii.slash then
    .comment (bs.takeWhile (· ≠ Ascii.newline)).length
  else if b = Ascii.openBrace ∧ bs.head? = some Ascii.dash then
    (commentLength 0 bs.tail).elim .unclosed fun n => .comment (1 + n)
  else if b = Ascii.singleQuote then (charLiteral bs).elim .unclosed fun found => .literal found.2
  else if b = Ascii.doubleQuote then (stringLiteral bs).elim .unclosed fun found => .literal found.2
  else .code

/-- The byte that stands for a byte of a comment: a space, but a newline stays. -/
def blankByte (b : UInt8) : UInt8 := if b = Ascii.newline then b else 32

/-- A source with its comments blanked out.  What follows a comment or a literal that is
never closed is left as it is. -/
def blankComments : List UInt8 → List UInt8
  | [] => []
  | b :: bs =>
    match openingAt b bs with
    | .comment more => (b :: bs.take more).map blankByte ++ blankComments (bs.drop more)
    | .literal more => b :: bs.take more ++ blankComments (bs.drop more)
    | .unclosed => b :: bs
    | .code => b :: blankComments bs
termination_by bs => bs.length
decreasing_by all_goals simp; try omega

section

variable {b : UInt8} {bs : List UInt8} {more : Nat}

theorem blankComments_of_comment (h : openingAt b bs = .comment more) :
    blankComments (b :: bs) =
      (b :: bs.take more).map blankByte ++ blankComments (bs.drop more) := by
  rw [blankComments, h]

end

/-! ## Newlines and places -/

theorem isBlank_blankByte (b : UInt8) : Ascii.isBlank (blankByte b) = true := by
  unfold blankByte
  split
  · next hb => rw [hb]; rfl
  · rfl

section

variable {lx : Lexicon} {b : UInt8} {bs : List UInt8} {more : Nat}

theorem itemAt_singleQuote (bs : List UInt8) :
    itemAt lx Ascii.singleQuote bs =
      (charLiteral bs).elim (.fault .unterminatedChar) fun found =>
        .token .charConst (.char found.1) found.2 := by
  rw [itemAt, if_neg (by decide), if_neg (by simp [Ascii.singleQuote, Ascii.slash]),
    if_neg (by simp [Ascii.singleQuote, Ascii.openBrace]), if_pos rfl]
  cases charLiteral bs <;> rfl

theorem itemAt_doubleQuote (bs : List UInt8) :
    itemAt lx Ascii.doubleQuote bs =
      (stringLiteral bs).elim (.fault .unterminatedString) fun found =>
        .token .stringConst (.string found.1) found.2 := by
  rw [itemAt, if_neg (by decide), if_neg (by simp [Ascii.doubleQuote, Ascii.slash]),
    if_neg (by simp [Ascii.doubleQuote, Ascii.openBrace]), if_neg (by decide), if_pos rfl]
  cases stringLiteral bs <;> rfl

/-- What is known of a byte at which neither a comment nor a literal opens. -/
theorem not_opens (h : opens b bs.head? = false) :
    ¬ (b = Ascii.slash ∧ bs.head? = some Ascii.slash) ∧
      ¬ (b = Ascii.openBrace ∧ bs.head? = some Ascii.dash) ∧
      b ≠ Ascii.singleQuote ∧ b ≠ Ascii.doubleQuote := by
  simp only [opens, Bool.or_eq_false_iff, Bool.and_eq_false_imp, decide_eq_true_eq,
    decide_eq_false_iff_not] at h
  exact ⟨fun hline => h.1.2 hline.1 hline.2, fun hblock => h.2 hblock.1 hblock.2, h.1.1.1, h.1.1.2⟩

/-- In code a blank, a number, a word or an operator is read. -/
theorem itemAt_of_not_opens (lx : Lexicon) (h : opens b bs.head? = false) :
    itemAt lx b bs =
      if Ascii.isBlank b then .gap 0
      else if Ascii.isDigit b then
        numberItem (b :: bs.takeWhile Ascii.isDigit) (bs.dropWhile Ascii.isDigit)
      else if Ascii.isWordStart b then wordItem lx (b :: bs.takeWhile Ascii.isWordPart)
      else operatorItem lx b bs := by
  obtain ⟨hline, hblock, hchar, hstring⟩ := not_opens h
  rw [itemAt, if_neg hline, if_neg hblock, if_neg hchar, if_neg hstring]

/-! ## Looking ahead -/

section

variable {p : UInt8 → Bool} (hp : ∀ b ahead, p b = true → opens b ahead = false)
  (hspace : p 32 = false)

include hp hspace

end

theorem isDigit_not_opens (b : UInt8) (ahead : Option UInt8) (h : Ascii.isDigit b = true) :
    opens b ahead = false :=
  Reader.opens_of_isDigit h

theorem isWordPart_not_opens (b : UInt8) (ahead : Option UInt8) (h : Ascii.isWordPart b = true) :
    opens b ahead = false :=
  opens_of_isWordPart h

/-- Neither a comment nor a literal opens at any of the first `n` bytes. -/
def Plain : (n : Nat) → List UInt8 → Prop
  | 0, _ => True
  | _ + 1, [] => True
  | n + 1, b :: bs => opens b bs.head? = false ∧ Plain n bs

theorem Plain.add {m n : Nat} (h : Plain m bs) (h' : Plain n (bs.drop m)) : Plain (m + n) bs := by
  induction m generalizing bs with
  | zero => simpa using h'
  | succ m ih =>
    cases bs with
    | nil => rw [Nat.add_right_comm]; trivial
    | cons b bs => rw [Nat.add_right_comm]; exact ⟨h.1, ih h.2 h'⟩

end

/-! ## The scanner -/

variable {lx : Lexicon}

/-- Blanks are passed. -/
theorem scan_blanks {blanks : List UInt8} (h : ∀ b ∈ blanks, Ascii.isBlank b = true) (length : Nat)
    (bs : List UInt8) : scan lx length (blanks ++ bs) = scan lx length bs := by
  induction blanks with
  | nil => rfl
  | cons b blanks ih =>
    rw [List.cons_append, scan_of_isBlank (h b (List.mem_cons_self ..))]
    exact ih fun c hc => h c (List.mem_cons_of_mem _ hc)

theorem nesting_blanks {blanks : List UInt8} (h : ∀ b ∈ blanks, Ascii.isBlank b = true)
    (bs : List UInt8) : nesting lx (blanks ++ bs) = nesting lx bs := by
  induction blanks with
  | nil => rfl
  | cons b blanks ih =>
    rw [List.cons_append, nesting_of_isBlank (h b (List.mem_cons_self ..))]
    exact ih fun c hc => h c (List.mem_cons_of_mem _ hc)

/-- The items of `bs` are those of `cs`, at the same places, but that blanks may stand in `cs`
where `bs` has a comment. -/
inductive Blanked (lx : Lexicon) : (cs bs : List UInt8) → Prop
  | same (bs : List UInt8) : Blanked lx bs bs
  | gap {blanks cs bs : List UInt8} {b : UInt8} {more : Nat}
      (hblanks : ∀ c ∈ blanks, Ascii.isBlank c = true) (hitem : itemAt lx b bs = .gap more)
      (hrest : Blanked lx cs (bs.drop more)) : Blanked lx (blanks ++ cs) (b :: bs)
  | token {cs bs : List UInt8} {b : UInt8} {kind : TokenKind} {value : TokenValue} {more : Nat}
      (hlength : cs.length = bs.length) (hitem : itemAt lx b cs = .token kind value more)
      (hitem' : itemAt lx b bs = .token kind value more)
      (hrest : Blanked lx (cs.drop more) (bs.drop more)) : Blanked lx (b :: cs) (b :: bs)
  | fault {cs bs : List UInt8} {b : UInt8} {fault : Fault} (hlength : cs.length = bs.length)
      (hopens : opens b cs.head? = false) (hitem : itemAt lx b cs = .fault fault)
      (hitem' : itemAt lx b bs = .fault fault) : Blanked lx (b :: cs) (b :: bs)

/-- No comment comes in with the blanks. -/
theorem Blanked.nesting_le {cs bs : List UInt8} (h : Blanked lx cs bs) :
    nesting lx cs ≤ nesting lx bs := by
  induction h with
  | same => exact Nat.le_refl _
  | gap hblanks hitem _ ih =>
    rw [nesting_blanks hblanks, nesting_of_gap hitem]
    exact Nat.le_trans ih (Nat.le_max_right ..)
  | token _ hitem hitem' _ ih => rwa [nesting_of_token hitem, nesting_of_token hitem']
  | fault _ hopens hitem _ =>
    rw [nesting_of_fault hitem, depthAt, if_neg (not_opens hopens).2.1]
    exact Nat.zero_le _

end Munch

/-! ## A whole source -/

namespace Token

variable {lx : Lexicon} {source : List UInt8}

end Token

/-! ## Too many open comments -/

namespace Munch

/-- Brackets that close so many comments. -/
def closings (n : Nat) : List UInt8 :=
  (List.replicate n [Ascii.dash, Ascii.closeBrace]).flatten

theorem closings_succ (n : Nat) :
    closings (n + 1) = Ascii.dash :: Ascii.closeBrace :: closings n := rfl

theorem length_closings (n : Nat) : (closings n).length = 2 * n := by
  induction n with
  | zero => rfl
  | succ n ih =>
    rw [closings_succ, List.length_cons, List.length_cons, ih]
    omega

theorem newline_not_mem_closings (n : Nat) : Ascii.newline ∉ closings n := by
  simp [closings, Ascii.newline, Ascii.dash, Ascii.closeBrace]

theorem commentLength_closings (inner : Nat) :
    commentLength inner (closings (inner + 1)) = some (2 * (inner + 1)) := by
  induction inner with
  | zero => rw [closings_succ, commentLength, if_neg (by decide), if_pos ⟨rfl, rfl⟩]
  | succ inner ih =>
    rw [closings_succ, commentLength, if_neg (by simp [Ascii.dash, Ascii.openBrace]),
      if_pos ⟨rfl, rfl⟩, List.tail_cons, ih, Option.map_some]
    congr 1
    omega

theorem commentLength_plain {inner : Nat} {b : UInt8} (hopen : b ≠ Ascii.openBrace)
    (hclose : b ≠ Ascii.dash) (bs : List UInt8) :
    commentLength inner (b :: bs) = (commentLength inner bs).map (1 + ·) := by
  cases inner <;> rw [commentLength, if_neg fun h => hopen h.1, if_neg fun h => hclose h.1]

/-- The text ` x//` in `n` comments, one inside of the other. -/
def nestedWord (n : Nat) : List UInt8 :=
  openings n ++ ([32, 120, 47, 47] ++ closings n)

/-- The outermost comment is all of the text. -/
theorem blankComments_nestedWord (n : Nat) :
    ∀ b ∈ blankComments (nestedWord (n + 1)), Ascii.isBlank b = true := by
  have hinside : commentLength n ([32, 120, 47, 47] ++ closings (n + 1)) =
      some (4 + 2 * (n + 1)) := by
    simp only [List.cons_append, List.nil_append]
    rw [commentLength_plain (by decide) (by decide), commentLength_plain (by decide) (by decide),
      commentLength_plain (by decide) (by decide), commentLength_plain (by decide) (by decide),
      commentLength_closings]
    simp only [Option.map_some, Option.some.injEq]
    omega
  have hlength : commentLength 0 (openings n ++ ([32, 120, 47, 47] ++ closings (n + 1))) =
      some (2 * n + (4 + 2 * (n + 1))) := by
    rw [commentLength_openings, Nat.zero_add, hinside, Option.map_some]
  have hopening : openingAt Ascii.openBrace
      (Ascii.dash :: (openings n ++ ([32, 120, 47, 47] ++ closings (n + 1)))) =
      .comment (1 + (2 * n + (4 + 2 * (n + 1)))) := by
    rw [openingAt, if_neg (by simp [Ascii.openBrace, Ascii.slash]), if_pos ⟨rfl, rfl⟩,
      List.tail_cons, hlength, Option.elim_some]
  have hall : (Ascii.dash :: (openings n ++ ([32, 120, 47, 47] ++ closings (n + 1)))).length ≤
      1 + (2 * n + (4 + 2 * (n + 1))) := by
    simp only [List.length_cons, List.length_append, length_openings, length_closings,
      List.length_nil]
    omega
  rw [nestedWord, openings_succ, List.cons_append, List.cons_append,
    blankComments_of_comment hopening, List.drop_eq_nil_of_le hall, blankComments,
    List.append_nil]
  intro b hb
  obtain ⟨c, -, rfl⟩ := List.mem_map.mp hb
  exact isBlank_blankByte c

end Munch

namespace Token

/-- A word with a line comment behind it, up to the end of the source. -/
theorem ofSource_word {rest : List UInt8} (h : Ascii.newline ∉ rest) :
    ∃ place, ofSource .standard ([32, 120, 47, 47] ++ rest) =
      .ok [⟨.identifier, .identifier "x", ⟨1, 2⟩⟩, ⟨.eof, .none, place⟩] := by
  have hword : itemAt .standard 120 (47 :: 47 :: rest) =
      .token .identifier (.identifier "x") 0 := rfl
  -- to the end of the source all belongs to the comment
  have hline : itemAt .standard 47 (47 :: rest) = .gap (47 :: rest).length := by
    have hnewline : Ascii.newline ∉ 47 :: rest :=
      List.not_mem_cons_of_ne_of_not_mem (by decide) h
    have hall := List.takeWhile_eq_self_iff.mpr (Text.ne_of_not_mem hnewline)
    exact congrArg (fun bs => Item.gap bs.length) hall
  have hdepth : depthAt 47 (47 :: rest) = 0 := if_neg fun hopen => absurd hopen.1 (by decide)
  apply Exists.intro
  show (Reader.within .idle .start []).resume .standard (32 :: 120 :: 47 :: 47 :: rest) = _
  rw [Reader.resume_blank rfl, Reader.resume_token hword, Reader.skip_zero,
    Reader.resume_item (by rw [hdepth]; exact Nat.two_pow_pos 32), hline]
  show (Reader.within .idle _ _).resume .standard ((47 :: rest).drop (47 :: rest).length) = _
  rw [List.drop_length]
  rfl

/-- In `2 ^ 32` comments, one inside of the other, none counts as open, so the word there is a
token.  Blanked out, the same text has no token: it is with this many open comments that
comments stop being blank space. -/
theorem ofSource_nestedWord :
    (∃ place, ofSource .standard (nestedWord (2 ^ 32)) =
      .ok [⟨.identifier, .identifier "x", ⟨1, 2⟩⟩, ⟨.eof, .none, place⟩]) ∧
    ∃ place, ofSource .standard (blankComments (nestedWord (2 ^ 32))) =
      .ok [⟨.eof, .none, place⟩] := by
  obtain ⟨n, hn⟩ : ∃ n, n + 1 = 2 ^ 32 := ⟨2 ^ 32 - 1, rfl⟩
  constructor
  · rw [nestedWord, (ofSource_openings .standard).1]
    exact ofSource_word (newline_not_mem_closings _)
  · rw [← hn]
    exact ⟨_, ofSource_blanks (blankComments_nestedWord n)⟩

end Token

end Braced

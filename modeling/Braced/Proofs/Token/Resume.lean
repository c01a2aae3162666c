import Braced.Proofs.Token.Munch

/-!
# Braced.Proofs.Token.Resume

What a reader makes of the rest of a source when a comment or a literal is open:
it passes as many bytes as belong to it, and is then between two tokens again.
-/

namespace Braced

open Munch

/-! ## Bytes with which something opens -/

namespace Munch

variable {b : UInt8} {ahead : Option UInt8}

theorem opens_cases (h : opens b ahead = true) :
    b = Ascii.singleQuote ∨ b = Ascii.doubleQuote ∨ b = Ascii.slash ∨ b = Ascii.openBrace := by
  simp only [opens, Bool.or_eq_true, Bool.and_eq_true, decide_eq_true_eq] at h
  grind

theorem opens_of_isWordPart (h : Ascii.isWordPart b = true) : opens b ahead = false := by
  cases hopens : opens b ahead with
  | false => rfl
  | true => obtain rfl | rfl | rfl | rfl := opens_cases hopens <;> exact absurd h (by decide)

theorem opens_of_isBlank (h : Ascii.isBlank b = true) : opens b ahead = false := by
  cases hopens : opens b ahead with
  | false => rfl
  | true => obtain rfl | rfl | rfl | rfl := opens_cases hopens <;> exact absurd h (by decide)

end Munch

namespace Reader

variable {lx : Lexicon} {here : Position} {read : List Token} {b : UInt8} {bs : List UInt8}

/-! ## The rest of a source -/

/-- The tokens of a source of which `bs` is left to be read, or its first fault. -/
def resume (lx : Lexicon) (r : Reader) (bs : List UInt8) : Except Diagnostic (List Token) :=
  match r.readAll lx bs with
  | .ok r' => r'.finish lx
  | .error d => .error d

/-- A reader that has passed all of the bytes that it has made use of. -/
def within (mode : Mode) (here : Position) (read : List Token) : Reader :=
  ⟨mode, here, false, read⟩

/-- Like `resume` with nothing open, after `n` more bytes have been passed. -/
def skip (lx : Lexicon) (here : Position) (read : List Token) (n : Nat) (bs : List UInt8) :
    Except Diagnostic (List Token) :=
  (within .idle (here.afterAll (bs.take n)) read).resume lx (bs.drop n)

@[simp] theorem resume_nil (r : Reader) : r.resume lx [] = r.finish lx := rfl

@[simp] theorem skip_zero : skip lx here read 0 bs = (within .idle here read).resume lx bs := by
  simp [skip]

@[simp] theorem skip_succ (n : Nat) :
    skip lx here read (n + 1) (b :: bs) = skip lx (here.after b) read n bs := rfl

theorem skip_add (m n : Nat) :
    skip lx here read (m + n) bs =
      skip lx (here.afterAll (bs.take m)) read n (bs.drop m) := by
  simp [skip, List.take_add, Position.afterAll_append]

/-- A byte has the effect of one step. -/
theorem resume_cons {r r' : Reader} (h : r.step lx b bs.head? = .ok r') :
    r.resume lx (b :: bs) = r'.resume lx bs := by
  simp only [resume, readAll, h]

/-- The first fault is the one that is reported. -/
theorem resume_cons_error {r : Reader} {d : Diagnostic} (h : r.step lx b bs.head? = .error d) :
    r.resume lx (b :: bs) = .error d := by
  simp only [resume, readAll, h]

/-- The second byte of a bracket is passed. -/
theorem resume_bracket {mode mode' : Mode} {c : UInt8}
    (h : (within mode here read).step lx b (some c) =
      .ok ((within mode here read).nextBracket b mode' [])) :
    (within mode here read).resume lx (b :: c :: bs) =
      (within mode' ((here.after b).after c) read).resume lx bs := by
  rw [resume_cons h]
  exact resume_cons rfl

/-- What a byte means with which neither a comment nor a literal opens. -/
theorem codeStep_of_not_opens (r : Reader) (run : Option Run) {ahead : Option UInt8}
    (h : opens b ahead = false) :
    r.codeStep lx run b ahead =
      match RunKind.ofByte? b, run with
      | none, _ => (Run.close lx run).map (r.next b .idle)
      | some kind, none => .ok (r.next b (.code (some ⟨kind, r.here, [b]⟩)) [])
      | some kind, some current =>
        if current.accepts b ahead then
          .ok (r.next b (.code (some { current with gathered := b :: current.gathered })) [])
        else (current.tokens lx).map (r.next b (.code (some ⟨kind, r.here, [b]⟩))) := by
  simp only [opens, Bool.or_eq_false_iff, Bool.and_eq_false_iff, decide_eq_false_iff_not] at h
  obtain ⟨⟨⟨hchar, hstring⟩, hslash⟩, hbrace⟩ := h
  have hblock : ¬ (b = Ascii.openBrace ∧ ahead = some Ascii.dash) := by grind
  have hline : ¬ (b = Ascii.slash ∧ ahead = some Ascii.slash) := by grind
  unfold codeStep
  rw [if_neg hblock, if_neg hline, if_neg hchar]
  exact if_neg hstring

/-! ## Blanks and comments -/

theorem ofByte?_of_isBlank (h : Ascii.isBlank b = true) : RunKind.ofByte? b = none := by
  simp only [Ascii.isBlank, Bool.or_eq_true, beq_iff_eq] at h
  obtain (((rfl | rfl) | rfl) | rfl) | rfl := h <;> rfl

/-- A blank is passed. -/
theorem resume_blank (h : Ascii.isBlank b = true) :
    (within .idle here read).resume lx (b :: bs) =
      (within .idle (here.after b) read).resume lx bs := by
  have hstep : (within .idle here read).codeStep lx none b bs.head? =
      .ok (within .idle (here.after b) read) := by
    rw [codeStep_of_not_opens _ _ (opens_of_isBlank h), ofByte?_of_isBlank h]
    rfl
  exact resume_cons hstep

/-- Behind blanks that go up to the end of a source nothing more is read. -/
theorem resume_blanks (h : ∀ b ∈ bs, Ascii.isBlank b = true) :
    (within .idle here read).resume lx bs =
      .ok (read.reverse ++ [⟨.eof, .none, here.afterAll bs⟩]) := by
  induction bs generalizing here with
  | nil => simp [finish, within, Mode.idle, Run.close, Except.map]
  | cons b bs ih =>
    obtain ⟨hb, hbs⟩ := List.forall_mem_cons.mp h
    rw [resume_blank hb, ih hbs, Position.afterAll_cons]

/-- A line comment ends in front of the next newline. -/
theorem resume_lineComment :
    (within .lineComment here read).resume lx bs =
      skip lx here read (bs.takeWhile (· ≠ Ascii.newline)).length bs := by
  induction bs generalizing here with
  | nil => simp [within, finish, Mode.idle, Run.close, Except.map]
  | cons b bs ih =>
    by_cases hb : b = Ascii.newline
    · have hstep : (within .lineComment here read).step lx b bs.head? =
          .ok (within .idle (here.after b) read) := by
        simp [within, step, next, hb]
      rw [resume_cons hstep, List.takeWhile_cons_of_neg (by simpa using hb), List.length_nil,
        skip_zero, resume_blank (by rw [hb]; rfl)]
    · have hstep : (within .lineComment here read).step lx b bs.head? =
          .ok (within .lineComment (here.after b) read) := by
        simp [within, step, next, hb]
      rw [resume_cons hstep, List.takeWhile_cons_of_pos (by simpa using hb), List.length_cons,
        skip_succ, ih]

theorem ofNat_succ (n : Nat) : UInt32.ofNat (n + 1) = UInt32.ofNat n + 1 :=
  UInt32.ofNat_add n 1

/-- As many comments are open as are counted, where that many can be counted. -/
theorem comments_ofNat (start : Position) {n : Nat} (hpos : 0 < n) (hlt : n < 2 ^ 32) :
    Mode.comments start (UInt32.ofNat n) = .blockComment start (UInt32.ofNat n) := by
  refine if_neg fun h => ?_
  have hzero := congrArg UInt32.toNat h
  rw [UInt32.toNat_ofNat_of_lt' hlt] at hzero
  exact Nat.ne_of_gt hpos hzero

/-- A bracketed comment ends with the bracket that closes it, if no more comments are open
at once than are counted. -/
theorem resume_blockComment (start : Position) {inner : Nat} (h : commentDepth inner bs < 2 ^ 32) :
    (within (.blockComment start (UInt32.ofNat (inner + 1))) here read).resume lx bs =
      match commentLength inner bs with
      | some n => skip lx here read n bs
      | none => .error ⟨.unterminatedComment, start⟩ := by
  fun_induction commentLength inner bs generalizing here with
  | case1 => rfl
  | case2 inner b bs hopen ih =>
    rw [commentDepth_open hopen] at h
    have hinner := lt_commentDepth (inner + 1) bs.tail
    have hmode : Mode.comments start (UInt32.ofNat (inner + 1) + 1) =
        .blockComment start (UInt32.ofNat (inner + 2)) :=
      ofNat_succ (inner + 1) ▸ comments_ofNat start (Nat.succ_pos _) (by omega)
    obtain ⟨rfl, hahead⟩ := hopen
    obtain ⟨bs, rfl⟩ := List.head?_eq_some_iff.mp hahead
    rw [List.tail_cons] at ih h ⊢
    rw [resume_bracket rfl, hmode, ih h]
    cases commentLength (inner + 1) bs with
    | none => rfl
    | some n => simp [Nat.add_comm 2]
  | case3 b bs hopen hclose =>
    obtain ⟨rfl, hahead⟩ := hclose
    obtain ⟨bs, rfl⟩ := List.head?_eq_some_iff.mp hahead
    exact resume_bracket rfl
  | case4 b bs hopen hclose inner ih =>
    rw [commentDepth, if_neg hopen, if_pos hclose] at h
    have hmode : Mode.comments start (UInt32.ofNat (inner + 2) - 1) =
        .blockComment start (UInt32.ofNat (inner + 1)) := by
      rw [ofNat_succ, UInt32.add_sub_cancel]
      exact comments_ofNat start (Nat.succ_pos _) (by omega)
    obtain ⟨rfl, hahead⟩ := hclose
    obtain ⟨bs, rfl⟩ := List.head?_eq_some_iff.mp hahead
    rw [List.tail_cons] at ih h ⊢
    rw [resume_bracket rfl, hmode, ih (by omega)]
    cases commentLength inner bs with
    | none => rfl
    | some n => simp [Nat.add_comm 2]
  | case5 inner b bs hopen hclose ih =>
    rw [commentDepth_inside hopen hclose] at h
    have hstep : (within (.blockComment start (UInt32.ofNat (inner + 1))) here read).step lx b
          bs.head? =
        .ok (within (.blockComment start (UInt32.ofNat (inner + 1))) (here.after b) read) := by
      simp [within, step, commentStep, hopen, hclose, next]
    rw [resume_cons hstep, ih h]
    cases commentLength inner bs with
    | none => rfl
    | some n => simp [Nat.add_comm 1]

end Reader

end Braced

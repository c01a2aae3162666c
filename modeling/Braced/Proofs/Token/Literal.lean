import Braced.Proofs.Token.Resume

/-!
# Braced.Proofs.Token.Literal

What a reader makes of the rest of a source when a character or a string literal
is open.  The stages of a literal last for one byte each, so a literal is read
by the bytes behind its quote alone.
-/

namespace Braced.Reader

open Munch

variable {lx : Lexicon} {here start : Position} {read : List Token} {b : UInt8} {bs : List UInt8}

/-! ## Character literals -/

theorem resume_char_close (value : UInt8) :
    (within (.char start (.close value)) here read).resume lx bs =
      if bs.head? = some Ascii.singleQuote then
        skip lx here (⟨.charConst, .char value, start⟩ :: read) 1 bs
      else .error ⟨.unterminatedChar, start⟩ := by
  cases bs with
  | nil => rfl
  | cons b bs =>
    by_cases hb : b = Ascii.singleQuote
    · subst hb
      exact resume_cons rfl
    · have hstep : (within (.char start (.close value)) here read).step lx b bs.head? =
          .error ⟨.unterminatedChar, start⟩ := by
        simp [within, step, charStep, hb]
      rw [resume_cons_error hstep]
      simp [hb]

theorem resume_char_escape :
    (within (.char start .escape) here read).resume lx bs =
      match bs with
      | c :: close :: _ =>
        if c ≠ Ascii.newline ∧ close = Ascii.singleQuote then
          skip lx here (⟨.charConst, .char (unescape c), start⟩ :: read) 2 bs
        else .error ⟨.unterminatedChar, start⟩
      | _ => .error ⟨.unterminatedChar, start⟩ := by
  cases bs with
  | nil => rfl
  | cons c bs =>
    by_cases hc : c = Ascii.newline
    · have hstep : (within (.char start .escape) here read).step lx c bs.head? =
          .error ⟨.unterminatedChar, start⟩ := by
        simp [within, step, charStep, hc]
      rw [resume_cons_error hstep]
      cases bs <;> simp [hc]
    · have hstep : (within (.char start .escape) here read).step lx c bs.head? =
          .ok (within (.char start (.close (unescape c))) (here.after c) read) := by
        simp [within, step, charStep, hc, next]
      rw [resume_cons hstep, resume_char_close]
      cases bs with
      | nil => rfl
      | cons close bs => simp [hc]

/-- A character literal is one byte or one escape, and a quote. -/
theorem resume_char :
    (within (.char start .value) here read).resume lx bs =
      match charLiteral bs with
      | some (value, n) => skip lx here (⟨.charConst, .char value, start⟩ :: read) n bs
      | none => .error ⟨.unterminatedChar, start⟩ := by
  cases bs with
  | nil => rfl
  | cons b bs =>
    simp only [charLiteral]
    by_cases hnewline : b = Ascii.newline
    · have hstep : (within (.char start .value) here read).step lx b bs.head? =
          .error ⟨.unterminatedChar, start⟩ := by
        simp [within, step, charStep, hnewline]
      rw [resume_cons_error hstep, if_pos hnewline]
    rw [if_neg hnewline]
    by_cases hescape : b = Ascii.backslash
    · have hstep : (within (.char start .value) here read).step lx b bs.head? =
          .ok (within (.char start .escape) (here.after b) read) := by
        simp [within, step, charStep, hescape, next, Ascii.backslash, Ascii.newline]
      rw [resume_cons hstep, resume_char_escape, if_pos hescape]
      cases bs with
      | nil => rfl
      | cons c bs =>
        cases bs with
        | nil => rfl
        | cons close bs =>
          by_cases hclose : c ≠ Ascii.newline ∧ close = Ascii.singleQuote
          · simp only [if_pos hclose, skip_succ]
          · simp only [if_neg hclose]
    · have hstep : (within (.char start .value) here read).step lx b bs.head? =
          .ok (within (.char start (.close b)) (here.after b) read) := by
        simp [within, step, charStep, hescape, hnewline, next]
      rw [resume_cons hstep, resume_char_close, if_neg hescape]
      split <;> rfl

/-! ## Escapes in string literals -/

/-- An escape that takes no more digits is over. -/
theorem resume_string_settled {content : List UInt8} {stage : StringStage}
    (hstage : stage = .hex ∨ ∃ first, stage = .hexSecond first)
    (h : ∀ b ∈ bs.head?, Ascii.hexValue? b = none) :
    (within (.string start content stage) here read).resume lx bs =
      (within (.string start (stage.settled content) .plain) here read).resume lx bs := by
  cases bs with
  | nil => rfl
  | cons b bs =>
    have hvalue : Ascii.hexValue? b = none := h b rfl
    have hstep : (within (.string start content stage) here read).step lx b bs.head? =
        (within (.string start (stage.settled content) .plain) here read).step lx b bs.head? := by
      obtain rfl | ⟨first, rfl⟩ := hstage <;>
        simp [within, step, stringStep, StringStage.step, hvalue, StringStage.settled, next]
    simp only [resume, readAll, hstep]

/-- Behind the letter of a hexadecimal escape up to two digits belong to it. -/
theorem resume_string_hex (content : List UInt8) :
    (within (.string start content .hex) here read).resume lx bs =
      match hexDigits bs with
      | [] => (within (.string start (Ascii.lowerX :: Ascii.backslash :: content) .plain) here
          read).resume lx bs
      | digits => (within (.string start (hexadecimal digits :: content) .plain)
          (here.afterAll (bs.take digits.length)) read).resume lx (bs.drop digits.length) := by
  cases bs with
  | nil => rfl
  | cons b bs =>
    cases hb : Ascii.hexValue? b with
    | none =>
      rw [resume_string_settled (.inl rfl) (by simpa using hb)]
      simp [hexDigits, hb, StringStage.settled]
    | some first =>
      have hstep : (within (.string start content .hex) here read).step lx b bs.head? =
          .ok (within (.string start content (.hexSecond first)) (here.after b) read) := by
        simp [within, step, stringStep, StringStage.step, hb, next]
      rw [resume_cons hstep]
      cases bs with
      | nil => simp [hexDigits, hb, finish, within]
      | cons c bs =>
        cases hc : Ascii.hexValue? c with
        | none =>
          rw [resume_string_settled (.inr ⟨first, rfl⟩) (by simpa using hc)]
          simp [hexDigits, hb, hc, StringStage.settled, hexadecimal, hexadecimal.hexValue]
        | some second =>
          have hstep : (within (.string start content (.hexSecond first)) (here.after b)
              read).step lx c bs.head? = .ok (within (.string start
                ((16 * first + second) :: content) .plain) ((here.after b).after c) read) := by
            simp [within, step, stringStep, StringStage.step, hc, next]
          rw [resume_cons hstep]
          simp [hexDigits, hb, hc, hexadecimal, hexadecimal.hexValue]

/-- What an escape stands for is content. -/
theorem resume_string_escape (content : List UInt8) :
    (within (.string start content .escape) here read).resume lx bs =
      (within (.string start ((escape bs).1.reverse ++ content) .plain)
        (here.afterAll (bs.take (escape bs).2)) read).resume lx (bs.drop (escape bs).2) := by
  cases bs with
  | nil => rfl
  | cons b bs =>
    by_cases hb : b = Ascii.lowerX
    · have hstep : (within (.string start content .escape) here read).step lx b bs.head? =
          .ok (within (.string start content .hex) (here.after b) read) := by
        simp [within, step, stringStep, StringStage.step, hb, next]
      rw [resume_cons hstep, resume_string_hex]
      cases h : hexDigits bs with
      | nil => simp [escape, hb, h]
      | cons digit digits => simp [escape, hb, h, Nat.add_comm 1]
    · have hstep : (within (.string start content .escape) here read).step lx b bs.head? =
          .ok (within (.string start (unescape b :: content) .plain) (here.after b) read) := by
        simp [within, step, stringStep, StringStage.step, hb, next]
      rw [resume_cons hstep]
      simp [escape, hb]

/-! ## String literals -/

/-- A string literal ends with the next quote that no escape takes. -/
theorem resume_string (content : List UInt8) :
    (within (.string start content .plain) here read).resume lx bs =
      match stringLiteral bs with
      | some (more, n) =>
        skip lx here (⟨.stringConst, .string (content.reverse ++ more), start⟩ :: read) n bs
      | none => .error ⟨.unterminatedString, start⟩ := by
  fun_induction stringLiteral bs generalizing here content with
  | case1 => rfl
  | case2 bs =>
    have hstep : (within (.string start content .plain) here read).step lx Ascii.doubleQuote
        bs.head? = .ok (within .idle (here.after Ascii.doubleQuote)
          (⟨.stringConst, .string content.reverse, start⟩ :: read)) := by
      simp [within, step, stringStep, StringStage.step, StringStage.plainByte, next,
        StringStage.settled]
    rw [resume_cons hstep]
    simp
  | case3 bs hquote ih =>
    have hstep : (within (.string start content .plain) here read).step lx Ascii.backslash
        bs.head? = .ok (within (.string start content .escape) (here.after Ascii.backslash)
          read) := by
      simp [within, step, stringStep, StringStage.step, StringStage.plainByte, next, hquote,
        StringStage.settled]
    rw [resume_cons hstep, resume_string_escape, ih]
    cases stringLiteral (bs.drop (escape bs).2) with
    | none => rfl
    | some found =>
      obtain ⟨more, n⟩ := found
      have hlength : 1 + (escape bs).2 + n = (escape bs).2 + n + 1 := by omega
      simp [hlength, skip_add]
  | case4 b bs hquote hescape ih =>
    have hstep : (within (.string start content .plain) here read).step lx b bs.head? =
        .ok (within (.string start (b :: content) .plain) (here.after b) read) := by
      simp [within, step, stringStep, StringStage.step, StringStage.plainByte, next, hquote,
        hescape, StringStage.settled]
    rw [resume_cons hstep, ih]
    cases stringLiteral bs with
    | none => rfl
    | some found => simp [Nat.add_comm 1]

end Braced.Reader

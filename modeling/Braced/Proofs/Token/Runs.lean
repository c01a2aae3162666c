import Braced.Proofs.Token.Longest
import Braced.Proofs.Token.Resume

/-!
# Braced.Proofs.Token.Runs

What a reader makes of the rest of a source when a run is in progress.  A run
takes the bytes that go on with it (`resume_goes_on`) and becomes tokens in front
of the first one that does not (`resume_ends`); for each kind of run this says how
many bytes it takes.
-/

namespace Braced

open Munch

/-- The run ends in front of these bytes. -/
def Run.Ends (run : Run) : List UInt8 → Prop
  | [] => True
  | b :: bs => opens b bs.head? = true ∨ run.accepts b bs.head? = false

namespace Reader

variable {lx : Lexicon} {here start : Position} {read : List Token} {b : UInt8} {bs : List UInt8}

/-! ## The bytes of a run -/

/-- A byte starts a run. -/
theorem resume_starts {kind : RunKind} (hopens : opens b bs.head? = false)
    (hkind : RunKind.ofByte? b = some kind) :
    (within .idle here read).resume lx (b :: bs) =
      (within (.code (some ⟨kind, here, [b]⟩)) (here.after b) read).resume lx bs := by
  have hstep : (within .idle here read).codeStep lx none b bs.head? =
      .ok (within (.code (some ⟨kind, here, [b]⟩)) (here.after b) read) := by
    rw [codeStep_of_not_opens _ _ hopens, hkind]
    rfl
  exact resume_cons hstep

/-- A byte goes on with the run in progress. -/
theorem resume_goes_on {run : Run} {kind : RunKind} (hopens : opens b bs.head? = false)
    (hkind : RunKind.ofByte? b = some kind) (haccepts : run.accepts b bs.head? = true) :
    (within (.code (some run)) here read).resume lx (b :: bs) =
      (within (.code (some { run with gathered := b :: run.gathered })) (here.after b)
        read).resume lx bs := by
  have hstep : (within (.code (some run)) here read).codeStep lx (some run) b bs.head? =
      .ok (within (.code (some { run with gathered := b :: run.gathered })) (here.after b)
        read) := by
    rw [codeStep_of_not_opens _ _ hopens, hkind]
    simp [haccepts, within, next]
  exact resume_cons hstep

/-- What opens with a byte first closes the run in progress. -/
theorem codeStep_of_opens {ahead : Option UInt8} (h : opens b ahead = true) :
    ∃ (mode : Position → Mode) (passing : Bool),
      ∀ (before : Mode) (here : Position) (read : List Token) (run : Option Run),
        (within before here read).codeStep lx run b ahead =
          (Run.close lx run).map fun ts =>
            ⟨mode here, here.after b, passing, ts.reverse ++ read⟩ := by
  by_cases hblock : b = Ascii.openBrace ∧ ahead = some Ascii.dash
  · refine ⟨fun here => .blockComment here 1, true, ?_⟩
    intro before here read run
    unfold codeStep
    rw [if_pos hblock]
    rfl
  by_cases hline : b = Ascii.slash ∧ ahead = some Ascii.slash
  · refine ⟨fun _ => .lineComment, false, ?_⟩
    intro before here read run
    unfold codeStep
    rw [if_neg hblock, if_pos hline]
    rfl
  by_cases hchar : b = Ascii.singleQuote
  · refine ⟨fun here => .char here .value, false, ?_⟩
    intro before here read run
    unfold codeStep
    rw [if_neg hblock, if_neg hline, if_pos hchar]
    rfl
  · have hstring : b = Ascii.doubleQuote := by
      simp only [opens, Bool.or_eq_true, Bool.and_eq_true, decide_eq_true_eq] at h
      grind
    refine ⟨fun here => .string here [] .plain, false, ?_⟩
    intro before here read run
    unfold codeStep
    rw [if_neg hblock, if_neg hline, if_neg hchar, if_pos hstring]
    rfl

/-- Where a run ends, a byte has the effect that it has behind the run's tokens. -/
theorem codeStep_ends {run : Run} (h : run.Ends (b :: bs)) :
    (within (.code (some run)) here read).codeStep lx (some run) b bs.head? =
      (run.tokens lx).bind fun ts =>
        (within .idle here (ts.reverse ++ read)).codeStep lx none b bs.head? := by
  cases hopens : opens b bs.head? with
  | true =>
    obtain ⟨mode, passing, hstep⟩ := @codeStep_of_opens lx _ _ hopens
    simp only [hstep, Run.close]
    cases run.tokens lx <;> simp [Except.map, Except.bind]
  | false =>
    have haccepts : run.accepts b bs.head? = false := by
      obtain h | h := h
      · rw [hopens] at h
        cases h
      · exact h
    simp only [codeStep_of_not_opens _ _ hopens, Run.close]
    cases RunKind.ofByte? b <;> cases hts : run.tokens lx <;>
      simp [haccepts, hts, Except.map, Except.bind, next, within]

/-- A run that ends becomes tokens. -/
theorem resume_ends {run : Run} (h : run.Ends bs) :
    (within (.code (some run)) here read).resume lx bs =
      (run.tokens lx).bind fun ts => (within .idle here (ts.reverse ++ read)).resume lx bs := by
  cases bs with
  | nil =>
    simp only [resume_nil, finish, within, Run.close, Mode.idle]
    cases run.tokens lx <;> simp [Except.map, Except.bind]
  | cons b bs =>
    have hstep : (within (.code (some run)) here read).step lx b bs.head? = _ := codeStep_ends h
    simp only [resume, readAll, hstep]
    cases run.tokens lx <;> rfl

/-- A run that ends may become a single token. -/
theorem resume_ends_single {run : Run} {token : Except Diagnostic Token} (h : run.Ends bs)
    (htokens : run.tokens lx = token.map ([·])) :
    (within (.code (some run)) here read).resume lx bs =
      token.bind fun t => (within .idle here (t :: read)).resume lx bs := by
  rw [resume_ends h, htokens]
  cases token <;> rfl

/-! ## Words -/

theorem ofByte?_of_isWordPart (h : Ascii.isWordPart b = true) :
    ∃ kind, RunKind.ofByte? b = some kind := by
  unfold RunKind.ofByte?
  by_cases hdigit : Ascii.isDigit b = true
  · exact ⟨.number, if_pos hdigit⟩
  · have hstart : Ascii.isWordStart b = true := by simpa [Ascii.isWordPart, hdigit] using h
    exact ⟨.word, by rw [if_neg hdigit, if_pos hstart]⟩

/-- A word takes all of the letters, digits and underscores that follow. -/
theorem resume_word (gathered : List UInt8) :
    (within (.code (some ⟨.word, start, gathered⟩)) here read).resume lx bs =
      (Run.wordToken lx start (gathered.reverse ++ bs.takeWhile Ascii.isWordPart)).bind fun t =>
        skip lx here (t :: read) (bs.takeWhile Ascii.isWordPart).length bs := by
  induction bs generalizing here gathered with
  | nil =>
    have hends : (⟨.word, start, gathered⟩ : Run).Ends [] := trivial
    rw [resume_ends_single hends rfl]
    simp
  | cons b bs ih =>
    by_cases hb : Ascii.isWordPart b = true
    · obtain ⟨kind, hkind⟩ := ofByte?_of_isWordPart hb
      have haccepts : (⟨.word, start, gathered⟩ : Run).accepts b bs.head? = true := hb
      rw [resume_goes_on (opens_of_isWordPart hb) hkind haccepts, ih,
        List.takeWhile_cons_of_pos hb]
      simp
    · have hends : (⟨.word, start, gathered⟩ : Run).Ends (b :: bs) :=
        .inr (by simpa [Run.accepts] using hb)
      rw [resume_ends_single hends rfl, List.takeWhile_cons_of_neg hb]
      simp

/-! ## Numbers -/

theorem ofByte?_of_isDigit (h : Ascii.isDigit b = true) : RunKind.ofByte? b = some .number :=
  if_pos h

theorem opens_of_isDigit {ahead : Option UInt8} (h : Ascii.isDigit b = true) :
    opens b ahead = false :=
  opens_of_isWordPart (by simp [Ascii.isWordPart, h])

/-- A number that has its point takes all of the digits that follow. -/
theorem resume_fraction {gathered : List UInt8} (hpoint : Ascii.dot ∈ gathered) :
    (within (.code (some ⟨.number, start, gathered⟩)) here read).resume lx bs =
      (Run.numberToken start (gathered.reverse ++ bs.takeWhile Ascii.isDigit)).bind fun t =>
        skip lx here (t :: read) (bs.takeWhile Ascii.isDigit).length bs := by
  induction bs generalizing here gathered with
  | nil =>
    have hends : (⟨.number, start, gathered⟩ : Run).Ends [] := trivial
    rw [resume_ends_single hends rfl]
    simp
  | cons b bs ih =>
    by_cases hb : Ascii.isDigit b = true
    · have haccepts : (⟨.number, start, gathered⟩ : Run).accepts b bs.head? = true := by
        simp [Run.accepts, hb]
      rw [resume_goes_on (opens_of_isDigit hb) (ofByte?_of_isDigit hb) haccepts,
        ih (List.mem_cons_of_mem _ hpoint), List.takeWhile_cons_of_pos hb]
      simp
    · have hends : (⟨.number, start, gathered⟩ : Run).Ends (b :: bs) :=
        .inr (by simp [Run.accepts, hb, hpoint])
      rw [resume_ends_single hends rfl, List.takeWhile_cons_of_neg hb]
      simp

theorem numeral_of_isDigit (h : Ascii.isDigit b = true) : numeral (b :: bs) = b :: numeral bs := by
  simp [numeral, List.takeWhile_cons_of_pos h, List.dropWhile_cons_of_pos h]

/-- A number takes all of the digits that follow, and one fraction. -/
theorem resume_number {gathered : List UInt8} (hwhole : Ascii.dot ∉ gathered) :
    (within (.code (some ⟨.number, start, gathered⟩)) here read).resume lx bs =
      (Run.numberToken start (gathered.reverse ++ numeral bs)).bind fun t =>
        skip lx here (t :: read) (numeral bs).length bs := by
  induction bs generalizing here gathered with
  | nil =>
    have hends : (⟨.number, start, gathered⟩ : Run).Ends [] := trivial
    rw [resume_ends_single hends rfl]
    simp [numeral, fractionOf]
  | cons b bs ih =>
    by_cases hb : Ascii.isDigit b = true
    · have haccepts : (⟨.number, start, gathered⟩ : Run).accepts b bs.head? = true := by
        simp [Run.accepts, hb]
      have hwhole' : Ascii.dot ∉ b :: gathered := by
        refine List.not_mem_cons_of_ne_of_not_mem ?_ hwhole
        rintro rfl
        exact absurd hb (by decide)
      rw [resume_goes_on (opens_of_isDigit hb) (ofByte?_of_isDigit hb) haccepts, ih hwhole',
        numeral_of_isDigit hb]
      simp
    have hnumeral : numeral (b :: bs) = (fractionOf (b :: bs)).elim [] (Ascii.dot :: ·) := by
      simp [numeral, List.takeWhile_cons_of_neg hb, List.dropWhile_cons_of_neg hb]
    by_cases hpoint : b = Ascii.dot ∧ bs.head?.any Ascii.isDigit = true
    · have haccepts : (⟨.number, start, gathered⟩ : Run).accepts b bs.head? = true := by
        simp [Run.accepts, hpoint, hwhole]
      obtain ⟨rfl, -⟩ := id hpoint
      rw [resume_goes_on rfl rfl haccepts, resume_fraction (List.mem_cons_self ..), hnumeral,
        fractionOf, if_pos hpoint]
      simp
    · have hends : (⟨.number, start, gathered⟩ : Run).Ends (b :: bs) :=
        .inr (by simpa [Run.accepts, hb, hwhole] using hpoint)
      rw [resume_ends_single hends rfl, hnumeral, fractionOf, if_neg hpoint]
      simp

/-! ## Symbols -/

theorem ofByte?_eq_symbol_iff :
    RunKind.ofByte? b = some .symbol ↔ Ascii.isBlank b = false ∧ Ascii.isWordPart b = false := by
  unfold RunKind.ofByte? Ascii.isWordPart
  cases Ascii.isDigit b <;> cases Ascii.isWordStart b <;> cases Ascii.isBlank b <;> simp

theorem stops_cons_eq_false_iff :
    stops (b :: bs) = false ↔ RunKind.ofByte? b = some .symbol ∧ opens b bs.head? = false := by
  rw [ofByte?_eq_symbol_iff, stops, Bool.or_eq_false_iff, Bool.or_eq_false_iff]

/-- A run of symbols goes on up to the next place where an operator has to end. -/
theorem resume_symbols (gathered : List UInt8) :
    (within (.code (some ⟨.symbol, start, gathered⟩)) here read).resume lx bs =
      skip lx here ((Run.symbolTokens lx start (gathered.reverse ++ symbols bs)).reverse ++ read)
        (symbols bs).length bs := by
  induction bs generalizing here gathered with
  | nil =>
    have hends : (⟨.symbol, start, gathered⟩ : Run).Ends [] := trivial
    rw [resume_ends hends]
    simp [Run.tokens, Except.bind, symbols]
  | cons b bs ih =>
    cases hstops : stops (b :: bs) with
    | false =>
      obtain ⟨hkind, hopens⟩ := stops_cons_eq_false_iff.mp hstops
      have haccepts : (⟨.symbol, start, gathered⟩ : Run).accepts b bs.head? = true := by
        simp [Run.accepts, hkind]
      rw [resume_goes_on hopens hkind haccepts, ih, symbols, hstops]
      simp
    | true =>
      have hends : (⟨.symbol, start, gathered⟩ : Run).Ends (b :: bs) := by
        cases hopens : opens b bs.head? with
        | true => exact .inl hopens
        | false =>
          refine .inr ?_
          have hkind : RunKind.ofByte? b ≠ some .symbol := by
            intro hkind
            rw [stops_cons_eq_false_iff.mpr ⟨hkind, hopens⟩] at hstops
            cases hstops
          simp [Run.accepts, hkind]
      rw [resume_ends hends, symbols, hstops]
      simp [Run.tokens, Except.bind]

/-- With nothing open the symbols at the front become tokens, if there are any. -/
theorem resume_idle_symbols :
    (within .idle here read).resume lx bs =
      skip lx here ((Run.symbolTokens lx here (symbols bs)).reverse ++ read)
        (symbols bs).length bs := by
  cases bs with
  | nil => simp [symbols, Run.symbolTokens]
  | cons b bs =>
    cases hstops : stops (b :: bs) with
    | false =>
      obtain ⟨hkind, hopens⟩ := stops_cons_eq_false_iff.mp hstops
      rw [resume_starts hopens hkind, resume_symbols, symbols, hstops]
      simp
    | true =>
      rw [symbols, hstops]
      simp [Run.symbolTokens]

end Reader

end Braced

import Braced.Proofs.Token.Places

/-!
# Braced.Proofs.Token.LineEnds

A source can be read in pieces that end with a line.

A newline means the same to a reader as the end of the source, but that reading goes on
behind it: no byte in front of it makes more of it (`Reader.step_newline_ahead`), and
where the source could end nothing is open behind it (`Reader.step_newline`).  So what
follows is read by itself, and all of its places move down by the lines in front of it.
-/

namespace Braced

open Munch

/-! ## Places further down -/

namespace Position

/-- The place that many lines further down, in the same column. -/
def down (p : Position) (lines : Nat) : Position :=
  ⟨p.line + UInt32.ofNat lines, p.column⟩

variable (p : Position) (lines : Nat)

theorem after_down (b : UInt8) : (p.down lines).after b = (p.after b).down lines := by
  unfold after
  split
  · simp [down, UInt32.add_assoc, UInt32.add_comm 1]
  · rfl

theorem afterAll_down (bs : List UInt8) :
    (p.down lines).afterAll bs = (p.afterAll bs).down lines := by
  induction bs generalizing p with
  | nil => rfl
  | cons b bs ih => rw [afterAll_cons, after_down, ih, afterAll_cons]

/-- Behind a newline a source goes on as it began, further down. -/
theorem afterAll_line (line : List UInt8) :
    start.afterAll (line ++ [Ascii.newline]) = start.down (line.count Ascii.newline + 1) := by
  rw [afterAll_start, counted_append_singleton, after, if_pos rfl]
  simp [counted, lineOf, down, start, UInt32.add_assoc]

end Position

/-- Where the tokens of a source stand, or its first fault. -/
def Token.places : Except Diagnostic (List Token) → List Position
  | .ok tokens => tokens.map (·.position)
  | .error d => [d.position]

theorem Munch.places_located (source : List UInt8) (r : Except (Fault × Nat) (List Lexeme)) :
    Token.places (located source r) = (offsets r).map (placeOf source) := by
  cases r with
  | error found => rfl
  | ok lexemes => simp [located, Token.places, offsets, Function.comp_def]

/-- The token that many lines further down. -/
def Token.down (t : Token) (lines : Nat) : Token :=
  { t with position := t.position.down lines }

/-- The fault that many lines further down. -/
def Diagnostic.down (d : Diagnostic) (lines : Nat) : Diagnostic :=
  { d with position := d.position.down lines }

/-! ## Readers -/

namespace Reader

variable {lx : Lexicon} {r r' : Reader} {b : UInt8} {ahead : Option UInt8} {bs : List UInt8}

/-- A newline ahead means no more to a byte than the end of the source. -/
theorem step_newline_ahead (lx : Lexicon) (r : Reader) (b : UInt8) :
    r.step lx b (some Ascii.newline) = r.step lx b none := by
  have hdash : some Ascii.newline ≠ some Ascii.dash := by decide
  have hslash : some Ascii.newline ≠ some Ascii.slash := by decide
  have hbrace : some Ascii.newline ≠ some Ascii.closeBrace := by decide
  have haccepts : ∀ run : Run, run.accepts b (some Ascii.newline) = run.accepts b none :=
    fun _ => rfl
  have hcode : ∀ run, r.codeStep lx run b (some Ascii.newline) = r.codeStep lx run b none := by
    intro run
    simp only [codeStep, haccepts, hdash, hslash, reduceCtorEq, and_false]
  have hcomment : ∀ start depth,
      r.commentStep start depth b (some Ascii.newline) = r.commentStep start depth b none := by
    intro start depth
    simp only [commentStep, hdash, hbrace, reduceCtorEq, and_false]
  simp only [step, hcode, hcomment]

/-- What `r'` is behind the byte `b`: the byte has been passed, and the one behind it is to
be passed with it only if there is one. -/
structure Passes (r : Reader) (b : UInt8) (ahead : Option UInt8) (r' : Reader) : Prop where
  here : r'.here = r.here.after b
  passing : ahead = none → r'.passing = false

section

variable (hr : r.passing = false)

include hr

theorem passes_next (mode : Mode) (ts : List Token) : r.Passes b ahead (r.next b mode ts) :=
  ⟨rfl, fun _ => hr⟩

/-- A byte that ends a run is passed like any other, with the tokens of the run. -/
theorem passes_of_close {found : Except Diagnostic (List Token)} {mode : Mode}
    (h : found.map (r.next b mode) = .ok r') : r.Passes b ahead r' := by
  cases found with
  | error d => cases h
  | ok ts =>
    cases h
    exact passes_next hr mode ts

theorem codeStep_passes {run : Option Run} (h : r.codeStep lx run b ahead = .ok r') :
    r.Passes b ahead r' := by
  unfold codeStep at h
  split at h
  · next hopen =>
    cases hclose : Run.close lx run with
    | error d =>
      rw [hclose] at h
      cases h
    | ok ts =>
      rw [hclose] at h
      cases h
      exact ⟨rfl, fun hnone => absurd (hopen.2.symm.trans hnone) (by simp)⟩
  split at h
  · exact passes_of_close hr h
  split at h
  · exact passes_of_close hr h
  split at h
  · exact passes_of_close hr h
  split at h
  · exact passes_of_close hr h
  · cases h
    exact passes_next hr _ _
  split at h
  · cases h
    exact passes_next hr _ _
  · exact passes_of_close hr h

theorem commentStep_passes (start : Position) (depth : UInt32) :
    r.Passes b ahead (r.commentStep start depth b ahead) := by
  unfold commentStep
  split
  · next hopen => exact ⟨rfl, fun hnone => absurd (hopen.2.symm.trans hnone) (by simp)⟩
  split
  · next hclose => exact ⟨rfl, fun hnone => absurd (hclose.2.symm.trans hnone) (by simp)⟩
  · exact passes_next hr _ _

theorem charStep_passes {start : Position} {stage : CharStage}
    (h : r.charStep start stage b = .ok r') : r.Passes b ahead r' := by
  unfold charStep at h
  split at h
  · split at h
    · cases h
      exact passes_next hr _ _
    · cases h
  · split at h
    · cases h
    split at h
    · cases h
      exact passes_next hr _ _
    · cases h
      exact passes_next hr _ _
  · split at h
    · cases h
    · cases h
      exact passes_next hr _ _

theorem stringStep_passes (start : Position) (content : List UInt8) (stage : StringStage) :
    r.Passes b ahead (r.stringStep start content stage b) := by
  unfold stringStep
  split
  · exact passes_next hr _ _
  · exact passes_next hr _ _

end

theorem step_passes (h : r.step lx b ahead = .ok r') : r.Passes b ahead r' := by
  unfold step at h
  split at h
  · cases h
    exact ⟨rfl, fun _ => rfl⟩
  next hpassing =>
  have hr : r.passing = false := by simpa using hpassing
  split at h
  · exact codeStep_passes hr h
  · cases h
    exact passes_next hr _ _
  · cases h
    exact commentStep_passes hr _ _
  · exact charStep_passes hr h
  · cases h
    exact stringStep_passes hr _ _ _

/-- At the end of a source nothing is left to be passed. -/
theorem readAll_passes (hr : bs = [] → r.passing = false) (h : r.readAll lx bs = .ok r') :
    r'.here = r.here.afterAll bs ∧ r'.passing = false := by
  induction bs generalizing r with
  | nil =>
    cases h
    exact ⟨rfl, hr rfl⟩
  | cons b bs ih =>
    unfold readAll at h
    split at h
    · next r₁ hstep =>
      obtain ⟨hhere, hpassing⟩ := step_passes hstep
      obtain ⟨hhere', hpassing'⟩ := ih (fun hnil => hpassing (by rw [hnil]; rfl)) h
      exact ⟨by rw [hhere', hhere, Position.afterAll_cons], hpassing'⟩
    · cases h

/-- What stands in front of a newline is read as if it were all of the source. -/
theorem readAll_append_newline (r : Reader) (bs rest : List UInt8) :
    r.readAll lx (bs ++ Ascii.newline :: rest) =
      (r.readAll lx bs).bind fun r' => r'.readAll lx (Ascii.newline :: rest) := by
  induction bs generalizing r with
  | nil => rfl
  | cons b bs ih =>
    have hstep : r.step lx b (bs ++ Ascii.newline :: rest).head? = r.step lx b bs.head? := by
      cases bs with
      | nil => exact step_newline_ahead lx r b
      | cons c bs => rfl
    rw [List.cons_append, readAll, hstep, readAll]
    cases r.step lx b bs.head? with
    | error d => rfl
    | ok r₁ => exact ih r₁

/-- **Behind a newline nothing is open,** where the source could have ended in front of it. -/
theorem step_newline {tokens : List Token} (ahead : Option UInt8) (hr : r.passing = false)
    (h : r.finish lx = .ok tokens) :
    ∃ inner, tokens = inner ++ [⟨.eof, .none, r.here⟩] ∧
      r.step lx Ascii.newline ahead
        = .ok (within .idle (r.here.after Ascii.newline) inner.reverse) := by
  obtain ⟨mode, here, passing, read⟩ := r
  obtain rfl : passing = false := hr
  cases mode with
  | code run =>
    cases hclose : Run.close lx run with
    | error d =>
      simp only [finish, hclose] at h
      cases h
    | ok ts =>
      simp only [finish, hclose] at h
      cases h
      refine ⟨read.reverse ++ ts, rfl, ?_⟩
      have hopens : opens Ascii.newline ahead = false := opens_of_isBlank rfl
      show codeStep lx _ run Ascii.newline ahead = _
      rw [codeStep_of_not_opens _ _ hopens, ofByte?_of_isBlank rfl, hclose]
      simp [Except.map, next, within]
  | lineComment =>
    cases h
    refine ⟨read.reverse, rfl, ?_⟩
    simp [step, next, within]
  | blockComment start depth => cases h
  | char start stage => cases h
  | string start content stage => cases h

end Reader

/-! ## Scanning -/

namespace Munch

variable {lx : Lexicon} {bs : List UInt8}

/-- What was read, with that many more bytes in front of it. -/
def behind (more : Nat) (r : Except (Fault × Nat) (List Lexeme)) :
    Except (Fault × Nat) (List Lexeme) :=
  (r.mapError fun found => (found.1, more + found.2)).map
    (List.map fun l => { l with offset := more + l.offset })

/-- What is scanned does not depend on how many bytes stand in front of it. -/
theorem scan_behind (lx : Lexicon) {length : Nat} (more : Nat) (h : bs.length ≤ length) :
    scan lx (more + length) bs = behind more (scan lx length bs) := by
  induction bs using scan.induct lx length with
  | case1 =>
    simp only [scan]
    rfl
  | case2 b bs n hitem ih =>
    rw [scan_of_gap hitem, scan_of_gap hitem]
    refine ih (Nat.le_trans ?_ h)
    simp only [List.length_drop, List.length_cons]
    omega
  | case3 b bs kind value n hitem ih =>
    have hrest : (bs.drop n).length ≤ length := by
      simp only [List.length_drop, List.length_cons] at h ⊢
      omega
    have hoffset : more + length - (b :: bs).length = more + (length - (b :: bs).length) :=
      Nat.add_sub_assoc h more
    rw [scan_of_token hitem, scan_of_token hitem, ih hrest, hoffset]
    cases scan lx length (bs.drop n) <;> rfl
  | case4 b bs fault hitem =>
    rw [scan_of_fault hitem, scan_of_fault hitem, Nat.add_sub_assoc h more]
    rfl

/-- As many lines are added as there are, where they can be counted. -/
theorem placeOf_down {rest : List UInt8} (line : List UInt8) (offset : Nat)
    (h : Position.lineOf (line ++ Ascii.newline :: rest) < 2 ^ 32) :
    ((placeOf rest offset).down (line.count Ascii.newline + 1)).line.toNat =
      (placeOf rest offset).line.toNat + (line.count Ascii.newline + 1) := by
  have hwhole : Position.lineOf (line ++ Ascii.newline :: rest) =
      Position.lineOf rest + (line.count Ascii.newline + 1) := by
    simp only [Position.lineOf, List.count_append, List.count_cons_self]
    omega
  have htake : Position.lineOf (rest.take offset) ≤ Position.lineOf rest :=
    Nat.add_le_add_left ((List.take_sublist offset rest).count_le _) 1
  have hsum : Position.lineOf (rest.take offset) + (line.count Ascii.newline + 1) < 2 ^ 32 := by
    omega
  rw [placeOf_eq_counted]
  simp only [Position.down, Position.counted, ← UInt32.ofNat_add]
  rw [UInt32.toNat_ofNat_of_lt' hsum,
    UInt32.toNat_ofNat_of_lt' (Nat.lt_of_le_of_lt (Nat.le_add_right ..) hsum)]

/-- What is read behind a line has its places further down. -/
theorem located_behind (line rest : List UInt8) (r : Except (Fault × Nat) (List Lexeme)) :
    located (line ++ Ascii.newline :: rest) (behind (line.length + 1) r) =
      ((located rest r).mapError (·.down (line.count Ascii.newline + 1))).map
        (List.map (·.down (line.count Ascii.newline + 1))) := by
  have hplace : ∀ offset, placeOf (line ++ Ascii.newline :: rest) (line.length + 1 + offset) =
      (placeOf rest offset).down (line.count Ascii.newline + 1) := by
    intro offset
    have htake : (line ++ Ascii.newline :: rest).take (line.length + 1 + offset) =
        (line ++ [Ascii.newline]) ++ rest.take offset := by
      have hline : line.take (line.length + (offset + 1)) = line :=
        List.take_of_length_le (Nat.le_add_right ..)
      simp [List.take_append, Nat.add_assoc, Nat.add_comm 1 offset, hline]
    rw [placeOf, htake, Position.afterAll_append, Position.afterAll_line, Position.afterAll_down,
      placeOf]
  cases r with
  | error found =>
    show Except.error _ = Except.error _
    rw [hplace]
    rfl
  | ok lexemes =>
    show Except.ok _ = Except.ok _
    simp [Token.down, hplace]

end Munch

/-! ## Lines of a source -/

namespace Token

variable {lx : Lexicon} {line : List UInt8} {tokens : List Token}

/-- **A source is read in pieces that end with a line.**  Behind lines that are free of
faults and a newline a source is read as if it began there: its tokens are those of the
lines without the end, and then those of the rest, in the same columns, with as many lines
in front of them as there are newlines; or else it has the first fault of the rest.  This is
a sum of numbers, unless the source is nothing but `2 ^ 32 - 1` newlines, behind which the
count of lines is zero. -/
theorem ofSource_append_newline (h : ofSource lx line = .ok tokens) (rest : List UInt8)
    (hlength : (line ++ Ascii.newline :: rest).length < 2 ^ 32) :
    (∃ inner place, tokens = inner ++ [⟨.eof, .none, place⟩] ∧
      ofSource lx (line ++ Ascii.newline :: rest) =
        ((ofSource lx rest).mapError (·.down (line.count Ascii.newline + 1))).map fun later =>
          inner ++ later.map (·.down (line.count Ascii.newline + 1))) ∧
    (line ++ Ascii.newline :: rest ≠ List.replicate (2 ^ 32 - 1) Ascii.newline →
      ∀ p ∈ places (ofSource lx rest), (p.down (line.count Ascii.newline + 1)).line.toNat =
        p.line.toNat + (line.count Ascii.newline + 1)) := by
  have hwhole : (line ++ Ascii.newline :: rest).length = line.length + 1 + rest.length := by
    simp
    omega
  have hnesting : nesting lx rest < 2 ^ 32 := nesting_lt lx (by omega)
  refine ⟨?_, fun hlines p hp => ?_⟩
  · unfold ofSource at h
    split at h
    · next r hread =>
      obtain ⟨hhere, hpassing⟩ := Reader.readAll_passes (fun _ => rfl) hread
      obtain ⟨inner, rfl, hnewline⟩ := Reader.step_newline rest.head? hpassing h
      refine ⟨inner, _, rfl, ?_⟩
      have hplace : r.here.after Ascii.newline
          = Position.start.afterAll (line ++ [Ascii.newline]) := by
        rw [hhere, Position.afterAll_append]
        rfl
      have hsource : line ++ Ascii.newline :: rest = (line ++ [Ascii.newline]) ++ rest := by simp
      calc ofSource lx (line ++ Ascii.newline :: rest)
          = Reader.start.resume lx (line ++ Ascii.newline :: rest) := rfl
        _ = r.resume lx (Ascii.newline :: rest) := by
            rw [Reader.resume, Reader.readAll_append_newline, hread]
            rfl
        _ = (Reader.within .idle (Position.start.afterAll (line ++ [Ascii.newline]))
              inner.reverse).resume lx rest := by
            rw [Reader.resume_cons hnewline, hplace]
        _ = (located (line ++ Ascii.newline :: rest)
              (scan lx (line.length + 1 + rest.length) rest)).map (inner ++ ·) := by
            rw [Reader.resume_eq_scan hsource hnesting, List.reverse_reverse, hwhole]
        _ = _ := by
            rw [scan_behind lx _ (Nat.le_refl _), located_behind, ← ofSource_eq_located hnesting]
            cases ofSource lx rest <;> rfl
    · cases h
  · obtain hexact | hall := Position.lineOf_lt_or hlength
    · rw [ofSource_eq_located hnesting, places_located] at hp
      obtain ⟨offset, -, rfl⟩ := List.mem_map.mp hp
      exact placeOf_down line offset hexact
    · exact absurd hall hlines

theorem ofSource_of_toOption {source : List UInt8}
    (h : (ofSource lx source).toOption = some tokens) : ofSource lx source = .ok tokens := by
  cases hsource : ofSource lx source with
  | error d =>
    rw [hsource] at h
    cases h
  | ok found =>
    rw [hsource] at h
    exact congrArg _ (Option.some.inj h)

/-- Behind the lines of `//"⏎"⏎"`, where a comment ends with its line and a literal goes over
two lines, ` :=` stands in the fourth line. -/
theorem ofSource_append_newline_literal :
    ofSource .standard [47, 47, 34, 10, 34, 10, 34] =
      .ok [⟨.stringConst, .string [10], ⟨2, 1⟩⟩, ⟨.eof, .none, ⟨3, 2⟩⟩] ∧
    ofSource .standard ([47, 47, 34, 10, 34, 10, 34] ++ Ascii.newline :: [32, 58, 61]) =
      .ok [⟨.stringConst, .string [10], ⟨2, 1⟩⟩, ⟨.colonAssign, .none, ⟨4, 2⟩⟩,
        ⟨.eof, .none, ⟨4, 4⟩⟩] := by
  have hlines := @ofSource_of_toOption .standard
    [⟨.stringConst, .string [10], ⟨2, 1⟩⟩, ⟨.eof, .none, ⟨3, 2⟩⟩] [47, 47, 34, 10, 34, 10, 34]
    (by decide +kernel)
  have hrest := @ofSource_of_toOption .standard
    [⟨.colonAssign, .none, ⟨1, 2⟩⟩, ⟨.eof, .none, ⟨1, 4⟩⟩] [32, 58, 61] (by decide +kernel)
  obtain ⟨⟨inner, place, htokens, hread⟩, -⟩ :=
    ofSource_append_newline hlines [32, 58, 61] (by decide)
  obtain rfl : inner = [⟨.stringConst, .string [10], ⟨2, 1⟩⟩] := by
    simpa using (congrArg List.dropLast htokens).symm
  refine ⟨hlines, ?_⟩
  rw [hread, hrest]
  rfl

/-- The end of a source of `n` newlines is in line `n + 1` only up to `n = 2 ^ 32 - 2`: with one
more newline its line is zero. -/
theorem ofSource_newlines (lx : Lexicon) (n : Nat) :
    ofSource lx (List.replicate n Ascii.newline) =
      .ok [⟨.eof, .none, ⟨UInt32.ofNat (1 + n), 1⟩⟩] ∧
    UInt32.ofNat (1 + (2 ^ 32 - 1)) = 0 := by
  have hblank : ∀ b ∈ List.replicate n Ascii.newline, Ascii.isBlank b = true := by
    intro b hb
    rw [List.eq_of_mem_replicate hb]
    rfl
  have hcolumn : (List.replicate n Ascii.newline).takeWhile (· ≠ Ascii.newline) = [] := by
    cases n <;> simp [List.replicate_succ]
  refine ⟨?_, rfl⟩
  rw [ofSource_blanks hblank, Position.counted, Position.lineOf, Position.columnOf,
    List.reverse_replicate, hcolumn, List.count_replicate_self]
  rfl

end Token

end Braced

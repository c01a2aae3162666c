import Braced.Binary64.Shortest
import Braced.Proofs.Target.ReadBack

/-!
# Braced.Proofs.Target.Fraction

What is written for a floating-point number.

Its digits have a point or an exponent among them, so they are never taken for those of
an integer (`Binary64.isFraction_literalText`).
-/

namespace Braced

open Target

namespace Decimal

/-! ## Digits -/

/-- A numeral that begins with a digit and has something in it besides digits. -/
def IsFractional (cs : List Char) : Prop :=
  ∃ c rest, cs = c :: rest ∧ c.isDigit = true ∧ isNumeral c rest = true ∧
    rest.all isIntChar = false

/-- Digits go on with a numeral that goes on behind a digit. -/
theorem isNumeral_digits_append {cs : List Char}
    (hcs : ∀ d : Char, d.isDigit = true → isNumeral d cs = true) :
    ∀ {before : Char} {ds : List Char}, before.isDigit = true → (∀ c ∈ ds, c.isDigit = true) →
      isNumeral before (ds ++ cs) = true
  | before, [], hbefore, _ => hcs before hbefore
  | before, d :: ds, _, hds => by
    have hd := hds d (List.mem_cons_self ..)
    have hrest := isNumeral_digits_append hcs hd fun c hc => hds c (List.mem_cons_of_mem _ hc)
    simp [isNumeral, numeralGoesOn, Char.isAlphanum, hd, hrest]

/-- Digits, and behind them what makes a numeral a fraction. -/
theorem isFractional_append {ds : List Char} {mark : Char} {cs : List Char} (hds : ds ≠ [])
    (hdigits : ∀ c ∈ ds, c.isDigit = true) (hmark : isIntChar mark = false)
    (hcs : ∀ d : Char, d.isDigit = true → isNumeral d (mark :: cs) = true) :
    IsFractional (ds ++ mark :: cs) := by
  obtain ⟨d, ds, rfl⟩ := List.exists_cons_of_ne_nil hds
  refine ⟨d, ds ++ mark :: cs, rfl, hdigits d (List.mem_cons_self ..), ?_, by simp [hmark]⟩
  exact isNumeral_digits_append hcs (hdigits d (List.mem_cons_self ..))
    fun c hc => hdigits c (List.mem_cons_of_mem _ hc)

/-- A point between digits. -/
theorem isFractional_point {ds fs : List Char} (hds : ds ≠ []) (hfs : fs ≠ [])
    (hdigits : ∀ c ∈ ds, c.isDigit = true) (hfraction : ∀ c ∈ fs, c.isDigit = true) :
    IsFractional (ds ++ '.' :: fs) := by
  refine isFractional_append hds hdigits rfl fun d _ => ?_
  have hnumeral : isNumeral '.' fs = true := isNumeral_digits hfraction (.inr hfs)
  simp [isNumeral, numeralGoesOn, hnumeral]

variable (d : Decimal)

theorem isDigit_of_mem_digitText : ∀ c ∈ d.digitText, c.isDigit = true :=
  fun _ hc => Nat.isDigit_of_mem_toDigits (by omega) (by omega) hc

theorem digitText_ne_nil : d.digitText ≠ [] :=
  Nat.toDigits_ne_nil

theorem isDigit_of_mem_replicate {n : Nat} : ∀ c ∈ List.replicate n '0', c.isDigit = true := by
  rintro c hc
  rw [(List.mem_replicate.mp hc).2]
  rfl

/-! ## The layouts -/

/-- A number with digits behind the point. -/
theorem isFractional_positional (h : d.exponent < 0) : IsFractional d.positional.toList := by
  have hplace : d.pointPlace = d.digitText.length + d.exponent := rfl
  have hdigits := d.isDigit_of_mem_digitText
  rw [positional]
  split
  · have hfraction : ∀ c ∈ List.replicate (-d.pointPlace).toNat '0' ++ d.digitText,
        c.isDigit = true := by
      intro c hc
      obtain hc | hc := List.mem_append.mp hc
      · exact isDigit_of_mem_replicate c hc
      · exact hdigits c hc
    simpa using @isFractional_point ['0'] _ (by simp) (by simp [d.digitText_ne_nil])
      (by simp) hfraction
  split
  · have hwhole : d.digitText.take d.pointPlace.toNat ≠ [] := by
      rw [ne_eq, List.take_eq_nil_iff, not_or]
      exact ⟨by omega, d.digitText_ne_nil⟩
    have hfraction : d.digitText.drop d.pointPlace.toNat ≠ [] := by
      rw [ne_eq, List.drop_eq_nil_iff]
      omega
    simpa using isFractional_point hwhole hfraction
      (fun c hc => hdigits c (List.mem_of_mem_take hc))
      (fun c hc => hdigits c (List.mem_of_mem_drop hc))
  · omega

/-- A whole number, with a zero behind the point. -/
theorem isFractional_whole (h : 0 ≤ d.exponent) :
    IsFractional (d.positional ++ ".0").toList := by
  have hplace : d.pointPlace = d.digitText.length + d.exponent := rfl
  have hpos := List.length_pos_iff.mpr d.digitText_ne_nil
  have hwhole : ∀ c ∈ d.digitText
      ++ List.replicate (d.pointPlace.toNat - d.digitText.length) '0', c.isDigit = true := by
    intro c hc
    obtain hc | hc := List.mem_append.mp hc
    · exact d.isDigit_of_mem_digitText c hc
    · exact isDigit_of_mem_replicate c hc
  have hfractional := @isFractional_point _ ['0'] (by simp [d.digitText_ne_nil]) (by simp)
    hwhole (by simp)
  have hlayout : d.positional = String.ofList (d.digitText
      ++ List.replicate (d.pointPlace.toNat - d.digitText.length) '0') := by
    rw [positional]
    split
    · omega
    split
    · omega
    · rfl
  simpa [hlayout] using hfractional

/-- A number with an exponent. -/
theorem isFractional_scientific : IsFractional d.scientific.toList := by
  have hdigits := d.isDigit_of_mem_digitText
  obtain ⟨c, cs, hexponent, hnumeral, -⟩ := toList_toString_int (d.pointPlace - 1)
  have hfirst : d.digitText.take 1 ≠ [] := by
    rw [ne_eq, List.take_eq_nil_iff, not_or]
    exact ⟨by omega, d.digitText_ne_nil⟩
  have hfirst' : ∀ c ∈ d.digitText.take 1, c.isDigit = true :=
    fun c hc => hdigits c (List.mem_of_mem_take hc)
  have hfraction' : ∀ c ∈ d.digitText.drop 1, c.isDigit = true :=
    fun c hc => hdigits c (List.mem_of_mem_drop hc)
  have hbehind : ∀ e : Char, isNumeral e ('e' :: c :: cs) = true := fun e => by
    simpa [isNumeral, numeralGoesOn] using hnumeral
  have hlayout : d.scientific.toList = d.digitText.take 1
      ++ ((if (d.digitText.drop 1).isEmpty then [] else '.' :: d.digitText.drop 1)
        ++ 'e' :: c :: cs) := by
    have hrepr : (d.pointPlace - 1).repr.toList = c :: cs := hexponent
    rw [scientific]
    split <;> simp [hrepr]
  rw [hlayout]
  split
  · exact isFractional_append hfirst hfirst' rfl fun e _ => hbehind e
  · next hempty =>
    obtain ⟨f, fs, hf⟩ := List.exists_cons_of_ne_nil (mt List.isEmpty_iff.mpr hempty)
    rw [hf] at hfraction' ⊢
    have hdigit := hfraction' f (List.mem_cons_self ..)
    have hrest := isNumeral_digits_append (fun e _ => hbehind e) hdigit
      fun c hc => hfraction' c (List.mem_cons_of_mem _ hc)
    refine isFractional_append hfirst hfirst' rfl fun e _ => ?_
    simpa [isNumeral, numeralGoesOn, Char.isAlphanum, hdigit] using hrest

end Decimal

namespace Binary64

/-- A fraction may have a sign. -/
theorem isFraction_of_isFractional {cs : List Char} (h : Decimal.IsFractional cs) :
    isFraction cs = true ∧ isFraction ('-' :: cs) = true := by
  obtain ⟨c, rest, rfl, hc, hrest, hint⟩ := h
  have hall : (c :: rest).all isIntChar = false := by
    rw [List.all_cons, hint, Bool.and_false]
  have hnumeral : ∀ before : Char, isNumeral before (c :: rest) = true := fun before => by
    simp [isNumeral, numeralGoesOn, Char.isAlphanum, hc, hrest]
  have hsigned : isNumeral 'e' ('-' :: c :: rest) = true := hnumeral '-'
  have hstarts : startsNumeral (c :: rest) = true := by
    simp [startsNumeral, isIntChar, hc]
  constructor
  · simp only [isFraction, hstarts, hnumeral, hall, Bool.not_false, Bool.and_self, Bool.or_true]
  · simp only [isFraction, hsigned, List.all_cons (a := '-'), hall, Bool.and_false, Bool.not_false,
      Bool.and_true, startsNumeral]
    exact Bool.or_true _

/-- **What is written for a number is no integer.** -/
theorem isFraction_literalText (x : Binary64) : isFraction x.literalText.toList = true := by
  rw [literalText, signed]
  split
  · decide
  by_cases hinfinite : x.isInfinite
  · by_cases hnegative : x.isNegative
    · simp only [hinfinite, hnegative, if_true]
      decide
    · simp only [hinfinite, hnegative, if_true]
      decide
  have hfinite : Decimal.IsFractional
      (if x.shortest.digits ≠ 0 ∧ (x.shortest.pointPlace < -3 ∨ 16 < x.shortest.pointPlace) then
        x.shortest.scientific
      else if 0 ≤ x.shortest.exponent then x.shortest.positional ++ ".0"
      else x.shortest.positional).toList := by
    split
    · exact x.shortest.isFractional_scientific
    split
    · next h => exact x.shortest.isFractional_whole h
    · next h => exact x.shortest.isFractional_positional (by omega)
  obtain ⟨hunsigned, hsigned⟩ := isFraction_of_isFractional hfinite
  simp only [hinfinite]
  split
  · rw [String.toList_append]
    exact hsigned
  · exact hunsigned

end Binary64

end Braced

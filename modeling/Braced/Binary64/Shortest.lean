import Braced.Binary64

/-!
# Braced.Binary64.Shortest

The shortest decimal that reads back as a given number, and the two layouts in
which such decimals are written.

The reals that round to a finite number form an interval around it. On the
grid of the decimals with `n` digits only the number's two neighbours can lie
in that interval unless more of the grid does, so the neighbours are tried for
`n = 1, 2, …`. Seventeen digits always suffice. All comparisons are between
whole numbers.
-/

namespace Braced

/-- The number `digits · 10 ^ exponent`. -/
structure Decimal where
  digits : Nat
  exponent : Int
  deriving DecidableEq, Repr

namespace Decimal

/-- The digits as text. -/
def digitText (d : Decimal) : List Char :=
  Nat.toDigits 10 d.digits

/-- How many digits stand before the point; when negative, how many zeros
    follow the point first. -/
def pointPlace (d : Decimal) : Int :=
  d.digitText.length + d.exponent

/-- Written without an exponent, with a point only where digits follow it. -/
def positional (d : Decimal) : String :=
  let text := d.digitText
  let place := d.pointPlace
  if place ≤ 0 then
    "0." ++ String.ofList (List.replicate (-place).toNat '0' ++ text)
  else if place < text.length then
    String.ofList (text.take place.toNat) ++ "." ++ String.ofList (text.drop place.toNat)
  else
    String.ofList (text ++ List.replicate (place.toNat - text.length) '0')

/-- Written with one digit before the point and an exponent. -/
def scientific (d : Decimal) : String :=
  let text := d.digitText
  let fraction := text.drop 1
  String.ofList (text.take 1)
    ++ (if fraction.isEmpty then "" else "." ++ String.ofList fraction)
    ++ "e" ++ toString (d.pointPlace - 1)

/-- Moves zeros at the end of the digits into the exponent; `fuel` bounds how
    many. -/
def stripZeros (d : Decimal) : (fuel : Nat) → Decimal
  | 0 => d
  | fuel + 1 =>
    if d.digits ≠ 0 ∧ d.digits % 10 = 0 then
      stripZeros ⟨d.digits / 10, d.exponent + 1⟩ fuel
    else d

end Decimal

namespace Binary64

/-! ## The shortest decimal -/

/-- A positive finite number together with the ends of the interval of reals
    that round to it, all three as multiples of `2 ^ (scale - 1076)`. -/
structure Interval where
  low : Nat
  value : Nat
  high : Nat
  scale : Nat
  /-- Whether the ends round to the number too, as they do when its significand
      is even. -/
  closed : Bool
  deriving Repr

/-- The interval of a number. Just above a power of two the numbers below are
    twice as dense, so there the lower half of the interval is shorter. -/
def interval (x : Binary64) : Interval :=
  let m := x.significand
  let isPower := m = twoTo 52 ∧ 1 < x.exponentField
  ⟨4 * m - (if isPower then 1 else 2), 4 * m, 4 * m + 2, x.scale, m % 2 = 0⟩

/-- The greatest multiple of `10 ^ exponent` that is at most the number. -/
def Interval.floorOn (i : Interval) (exponent : Int) : Nat :=
  if 0 ≤ exponent then i.value * twoTo i.scale / (twoTo 1076 * tenTo exponent.toNat)
  else i.value * twoTo i.scale * tenTo (-exponent).toNat / twoTo 1076

/-- How a decimal compares with a multiple of the interval's unit. -/
def Interval.compareWith (i : Interval) (d : Decimal) (multiple : Nat) : Ordering :=
  if 0 ≤ d.exponent then
    compare (d.digits * tenTo d.exponent.toNat * twoTo 1076) (multiple * twoTo i.scale)
  else
    compare (d.digits * twoTo 1076) (multiple * twoTo i.scale * tenTo (-d.exponent).toNat)

/-- Whether a decimal rounds to the number. -/
def Interval.holds (i : Interval) (d : Decimal) : Bool :=
  let above := i.compareWith d i.low
  let below := i.compareWith d i.high
  if i.closed then above ≠ .lt && below ≠ .gt else above = .gt && below = .lt

/-- The nearer to the number of two decimals that are one unit of a grid apart.
    The upper one is taken when the number lies in the middle. -/
def Interval.nearer (i : Interval) (lower upper : Decimal) : Decimal :=
  match i.compareWith ⟨lower.digits + upper.digits, lower.exponent⟩ (2 * i.value) with
  | .gt => lower
  | _ => upper

/-- The decimal on the grid of `10 ^ exponent` that rounds to the number and is
    nearest to it, if there is one. -/
def Interval.onGrid? (i : Interval) (exponent : Int) : Option Decimal :=
  let lower : Decimal := ⟨i.floorOn exponent, exponent⟩
  let upper : Decimal := ⟨lower.digits + 1, exponent⟩
  match i.holds lower, i.holds upper with
  | true, true => some (i.nearer lower upper)
  | true, false => some lower
  | false, true => some upper
  | false, false => none

/-- Tries the grids from `10 ^ exponent` downwards; `fuel` is the number of
    grids left. -/
def Interval.firstGrid (i : Interval) (exponent : Int) : (fuel : Nat) → Decimal
  | 0 => ⟨i.floorOn exponent, exponent⟩
  | fuel + 1 =>
    match i.onGrid? exponent with
    | some d => d
    | none => i.firstGrid (exponent - 1) fuel

/-- The exponent of the number's first decimal digit. -/
def Interval.leadingExponent (i : Interval) : Int :=
  let num := i.value * twoTo i.scale
  let unit := twoTo 1076
  if unit ≤ num then ((Nat.toDigits 10 (num / unit)).length : Int) - 1
  else -((Nat.toDigits 10 ((unit - 1) / num)).length : Int)

/-- The decimal with the fewest digits among those that round to the absolute
    value of a finite number, and of these the nearest to it. -/
def shortest (x : Binary64) : Decimal :=
  if x.significand = 0 then ⟨0, 0⟩
  else
    let i := x.interval
    (i.firstGrid i.leadingExponent 17).stripZeros 17

/-! ## Text -/

/-- The text of a number, given the text of its absolute value when it is
    finite. -/
def signed (x : Binary64) (finite : Decimal → String) : String :=
  if x.isNaN then "NaN"
  else
    let unsigned := if x.isInfinite then "inf" else finite x.shortest
    if x.isNegative then "-" ++ unsigned else unsigned

/-- Without an exponent, and without a point in whole numbers. -/
def plainText (x : Binary64) : String :=
  x.signed Decimal.positional

/-- The layout that always shows that the number is not an integer: whole
    numbers end in `.0`, and an exponent is used below `10 ^ -4` and from
    `10 ^ 16` on. -/
def literalText (x : Binary64) : String :=
  x.signed fun d =>
    let place := d.pointPlace
    if d.digits ≠ 0 ∧ (place < -3 ∨ 16 < place) then d.scientific
    else if 0 ≤ d.exponent then d.positional ++ ".0"
    else d.positional

end Binary64

end Braced

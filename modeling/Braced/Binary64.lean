/-!
# Braced.Binary64

Floating point numbers of 64 bits, kept as their bits. Nothing is computed with
them: they are read from decimal text, carried along, and written as decimal
text, so equality of bits is the equality that counts.

A finite number is `± significand · 2 ^ scale` with a significand below
`2 ^ 53`. Reading rounds the exact quotient to the nearest such number, and a
half goes to the even significand.
-/

namespace Braced

/-- A number in the 64-bit binary format, by its bits. -/
structure Binary64 where
  bits : UInt64
  deriving DecidableEq, Repr, Inhabited

namespace Binary64

/-! ## Powers -/

def twoTo (n : Nat) : Nat :=
  Nat.pow 2 n

def tenTo (n : Nat) : Nat :=
  Nat.pow 10 n

/-! ## Taking a number apart -/

/-- The bits of positive infinity, above those of every finite number. -/
def infinityBits : Nat := 0x7FF * twoTo 52

/-- Whether the sign bit is set. -/
def isNegative (x : Binary64) : Bool :=
  twoTo 63 ≤ x.bits.toNat

/-- The bits without the sign, which order the numbers by absolute value. -/
def magnitude (x : Binary64) : Nat :=
  x.bits.toNat % twoTo 63

def isInfinite (x : Binary64) : Bool :=
  x.magnitude == infinityBits

def isNaN (x : Binary64) : Bool :=
  infinityBits < x.magnitude

/-- The biased exponent, which is zero for the numbers closest to zero. -/
def exponentField (x : Binary64) : Nat :=
  x.magnitude / twoTo 52

/-- The whole number that the power of two is multiplied by. -/
def significand (x : Binary64) : Nat :=
  let fraction := x.magnitude % twoTo 52
  if x.exponentField = 0 then fraction else twoTo 52 + fraction

/-- The exponent of the power of two, counted up from the least one, `-1074`. -/
def scale (x : Binary64) : Nat :=
  x.exponentField - 1

/-! ## Reading a decimal fraction -/

/-- The quotient of two numbers rounded to a whole number, a half to the even
    one. -/
def roundDiv (num den : Nat) : Nat :=
  let quotient := num / den
  let twice := 2 * (num % den)
  if twice < den then quotient
  else if den < twice then quotient + 1
  else quotient + quotient % 2

/-- The exponent `e`, counted up from `-1074`, for which `num / den` is a
    significand of full width times `2 ^ e`, or zero when the number is too
    small for that. -/
def scaleOf (num den : Nat) : Nat :=
  let estimate : Int := (num.log2 : Int) - den.log2 - 52
  let reached :=
    if 0 ≤ estimate then den * twoTo (52 + estimate.toNat) ≤ num
    else den * twoTo 52 ≤ num * twoTo (-estimate).toNat
  ((if reached then estimate else estimate - 1) + 1074).toNat

/-- The number nearest to `num / den`, for a positive `den`. What is too large
    for a finite number becomes infinity. -/
def ofRatio (num den : Nat) : Binary64 :=
  if num = 0 then ⟨0⟩
  else
    let scale := scaleOf num den
    let significand :=
      if scale < 1074 then roundDiv (num * twoTo (1074 - scale)) den
      else roundDiv num (den * twoTo (scale - 1074))
    -- the leading bit of a full significand is the last bit of the exponent field
    ⟨(min (significand + scale * twoTo 52) infinityBits).toUInt64⟩

/-- The number nearest to the decimal fraction that has `places` digits after
    its point and is `digits` without the point. -/
def ofDecimal (digits places : Nat) : Binary64 :=
  ofRatio digits (tenTo places)

end Binary64

end Braced

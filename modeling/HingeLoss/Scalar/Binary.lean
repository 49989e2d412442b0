/-!
# HingeLoss.Scalar.Binary

Binary interchange formats, exactly.  A non-negative value of a format is written as its
*magnitude*, the bit pattern without the sign, read as a number:

1. the low `fractionBits` bits are the fraction and the bits above them the biased exponent;
2. biased exponent zero marks the subnormals, whose exponent is `leastExponent`;
3. magnitudes grow with the values, and the one past the largest finite value is `infinity`.

`decode` takes a magnitude apart, and `nearest` rounds an exact quotient to the format: to nearest,
ties to the even fraction.
-/

namespace HingeLoss

/-- A binary format, given by the widths of its two fields. -/
structure BinaryFormat where
  fractionBits : Nat
  exponentBits : Nat
deriving DecidableEq, Repr

/-- `base ^ exponent`, and one for a negative exponent, where the opposite exponent gives the
denominator. -/
def wholePower (base : Nat) (exponent : Int) : Nat := Nat.pow base exponent.toNat

theorem wholePower_neg_natCast (b n : Nat) : wholePower b (-(n : Int)) = 1 := by
  rw [wholePower, Int.toNat_eq_zero.mpr (by omega), Nat.pow_eq, Nat.pow_zero]

theorem wholePower_pos {b : Nat} (hb : 0 < b) (e : Int) : 0 < wholePower b e := Nat.pow_pos hb

/-- A number `mantissa · 2 ^ exponent`. -/
structure Dyadic where
  /-- The factor in front of the power. -/
  mantissa : Nat
  exponent : Int
deriving DecidableEq, Repr

namespace BinaryFormat

/-- Single precision: 32 bits with the sign. -/
def single : BinaryFormat := ⟨23, 8⟩

/-- Double precision: 64 bits with the sign. -/
def double : BinaryFormat := ⟨52, 11⟩

/-- The exponent of the last fraction bit of a subnormal number. -/
def leastExponent (f : BinaryFormat) : Int :=
  2 - wholePower 2 (f.exponentBits - 1) - f.fractionBits

theorem single_leastExponent : single.leastExponent = -149 := by decide

theorem double_leastExponent : double.leastExponent = -1074 := by decide

/-- The magnitude of infinity.  Greater magnitudes are no numbers. -/
def infinity (f : BinaryFormat) : Nat :=
  (wholePower 2 f.exponentBits - 1) * wholePower 2 f.fractionBits

/-- The value of a finite magnitude. -/
def decode (f : BinaryFormat) (magnitude : Nat) : Dyadic :=
  let unit := wholePower 2 f.fractionBits
  let fraction := magnitude % unit
  let biased := magnitude / unit
  if biased = 0 then ⟨fraction, f.leastExponent⟩
  else ⟨unit + fraction, f.leastExponent + (biased - 1 : Nat)⟩

/-! ## Rounding -/

/-- The whole number nearest to a quotient, the even one on a tie. -/
def roundQuotient (num den : Nat) : Nat :=
  let q := num / den
  let r := num % den
  if 2 * r < den then q else if den < 2 * r then q + 1 else q + q % 2

/-- The exponent at which `num / den` fills the fraction of the format, or the least exponent. -/
def quotientExponent (f : BinaryFormat) (num den : Nat) : Int :=
  let guess : Int := (num.log2 : Int) - den.log2 - f.fractionBits
  let full := den * wholePower 2 f.fractionBits * wholePower 2 guess ≤ num * wholePower 2 (-guess)
  max (if full then guess else guess - 1) f.leastExponent

/-- The magnitude nearest to `num / den`: ties go to the even fraction, and what lies past the
largest finite value rounds to infinity. -/
def nearest (f : BinaryFormat) (num den : Nat) : Nat :=
  if num = 0 then 0
  else
    let e := f.quotientExponent num den
    -- a mantissa that rounds up to the next power of two carries into the exponent field
    let m := roundQuotient (num * wholePower 2 (-e)) (den * wholePower 2 e)
    min ((e - f.leastExponent).toNat * wholePower 2 f.fractionBits + m) f.infinity

/-- The magnitude nearest to a dyadic number. -/
def ofDyadic (f : BinaryFormat) (d : Dyadic) : Nat :=
  f.nearest (d.mantissa * wholePower 2 d.exponent) (wholePower 2 (-d.exponent))

/-- The magnitude nearest to `digits · 10 ^ exponent`.  Powers far outside the format are answered
without computing them. -/
def ofDecimal (f : BinaryFormat) (digits : Nat) (exponent : Int) : Nat :=
  let lead : Int := exponent + (Nat.toDigits 10 digits).length
  if digits = 0 then 0
  else if wholePower 2 f.exponentBits < lead then f.infinity
  else if lead < -((wholePower 2 f.exponentBits + f.fractionBits : Nat) : Int) then 0
  else f.nearest (digits * wholePower 10 exponent) (wholePower 10 (-exponent))

end BinaryFormat

end HingeLoss

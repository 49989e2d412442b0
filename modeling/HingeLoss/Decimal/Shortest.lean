import HingeLoss.Scalar.Double

/-!
# HingeLoss.Decimal.Shortest

The shortest decimal that identifies a binary number, and how numbers are written in terms, messages
and log lines.

1. the reals that round to a number form its *interval*: from halfway to the neighbour below to
   halfway to the neighbour above, both ends included when the fraction is even;
2. decimals of one digit, then two, and so on, are tried on the grid of the leading digit; the two
   grid points around the number are its candidates;
3. the first grid with a candidate in the interval wins, the nearer of two, the upper one on a tie.

All arithmetic is exact, on natural numbers.  A number is written with these digits, always
positionally, never with an exponent; whole numbers have no point, and a fraction has no trailing
zero.  The sign is written for negative numbers and for the zero below zero; infinity is `inf`, and
a value that is no number is `NaN` without a sign.
-/

namespace HingeLoss

/-- A number `digits · 10 ^ exponent`. -/
structure Decimal where
  digits : Nat
  exponent : Int
deriving DecidableEq, Repr

namespace Decimal

def compareDyadic (d : Decimal) (x : Dyadic) : Ordering :=
  compare (d.digits * wholePower 10 d.exponent * wholePower 2 (-x.exponent))
    (x.mantissa * wholePower 2 x.exponent * wholePower 10 (-d.exponent))

/-- The decimal digits of a number, the first one foremost. -/
def digitsOf (n : Nat) : List Char := Nat.toDigits 10 n

end Decimal

/-! ## The interval of a number -/

/-- The reals that round to one binary number. -/
structure RoundingInterval where
  /-- Halfway to the neighbour below. -/
  low : Dyadic
  /-- Halfway to the neighbour above. -/
  high : Dyadic
  /-- Whether both ends belong to the interval. -/
  closed : Bool

def RoundingInterval.contains (i : RoundingInterval) (d : Decimal) : Bool :=
  let below := d.compareDyadic i.low
  let above := d.compareDyadic i.high
  (below == .gt || (i.closed && below == .eq)) && (above == .lt || (i.closed && above == .eq))

/-- The interval of a finite magnitude.  Below a power of two the neighbour is half as far away. -/
def BinaryFormat.interval (f : BinaryFormat) (magnitude : Nat) : RoundingInterval :=
  let x := f.decode magnitude
  let unit := wholePower 2 f.fractionBits
  let narrow := magnitude % unit = 0 ∧ 1 < magnitude / unit
  { low := ⟨4 * x.mantissa - (if narrow then 1 else 2), x.exponent - 2⟩
    high := ⟨4 * x.mantissa + 2, x.exponent - 2⟩
    closed := x.mantissa % 2 = 0 }

/-! ## The search -/

/-- The least `k` with `x < 10 ^ k`, for a positive `x`. -/
def Dyadic.scale (x : Dyadic) : Int :=
  let num := x.mantissa * wholePower 2 x.exponent
  let den := wholePower 2 (-x.exponent)
  if den ≤ num then (Decimal.digitsOf (num / den)).length
  else 1 - (Decimal.digitsOf ((den - 1) / num)).length

/-- The greatest multiple of `10 ^ exponent` that is at most `x`. -/
def Dyadic.floorAt (x : Dyadic) (exponent : Int) : Decimal :=
  ⟨x.mantissa * wholePower 2 x.exponent * wholePower 10 (-exponent) /
    (wholePower 2 (-x.exponent) * wholePower 10 exponent), exponent⟩

/-- The candidate of the grid `10 ^ exponent`: the grid point next to `x` that lies in the
interval, the nearer of two and the upper one on a tie. -/
def Dyadic.candidate? (x : Dyadic) (i : RoundingInterval) (exponent : Int) : Option Decimal :=
  let lower := x.floorAt exponent
  let upper : Decimal := ⟨lower.digits + 1, exponent⟩
  -- the midpoint of the two grid points, in units of half a grid step
  let nearer := if Decimal.compareDyadic ⟨2 * lower.digits + 1, exponent⟩
      ⟨2 * x.mantissa, x.exponent⟩ = .gt then lower else upper
  match i.contains lower, i.contains upper with
  | true, true => some nearer
  | true, false => some lower
  | false, true => some upper
  | false, false => none

/-- The exact decimal value of a dyadic number. -/
def Dyadic.toDecimal (x : Dyadic) : Decimal :=
  ⟨x.mantissa * wholePower 2 x.exponent * wholePower 5 (-x.exponent), -((-x.exponent).toNat : Int)⟩

/-- Seventeen digits identify every double precision number, and fewer every single one. -/
def mostDigits : Nat := 17

/-- The shortest decimal that identifies a positive finite magnitude. -/
def BinaryFormat.shortest (f : BinaryFormat) (magnitude : Nat) : Decimal :=
  let x := f.decode magnitude
  let i := f.interval magnitude
  let k := x.scale
  ((List.range mostDigits).findSome? fun n => x.candidate? i (k - (n + 1 : Nat))).getD x.toDecimal

/-! ## Writing -/

def Decimal.positional (d : Decimal) : String :=
  let ds := Decimal.digitsOf d.digits
  let places := (-d.exponent).toNat
  if places = 0 then String.ofList (ds ++ List.replicate d.exponent.toNat '0')
  else
    -- one zero stands before the point when all digits come after it
    let padded := List.replicate (places + 1 - ds.length) '0' ++ ds
    let whole := padded.take (padded.length - places)
    let part := (padded.drop (padded.length - places)).reverse.dropWhile (· == '0') |>.reverse
    if part.isEmpty then String.ofList whole else String.ofList (whole ++ '.' :: part)

/-- The writing of a magnitude with a sign. -/
def BinaryFormat.text (f : BinaryFormat) (negative : Bool) (magnitude : Nat) : String :=
  if f.infinity < magnitude then "NaN"
  else
    let unsigned :=
      if magnitude = f.infinity then "inf"
      else if magnitude = 0 then "0"
      else (f.shortest magnitude).positional
    if negative then "-" ++ unsigned else unsigned

instance : ToString Single where
  toString a := BinaryFormat.single.text a.isNegative a.magnitude.toNat

instance : ToString Double where
  toString a := BinaryFormat.double.text a.isNegative a.magnitude.toNat

end HingeLoss

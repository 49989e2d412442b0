import HingeLoss.Scalar.Single

/-!
# HingeLoss.Scalar.Double

Double precision numbers, kept as their bit patterns.  Objectives and total movements are added up
in double precision; their terms are single precision values, widened exactly.
-/

namespace HingeLoss

structure Double where
  /-- The pattern: sign, eleven exponent bits, 52 fraction bits. -/
  bits : UInt64
deriving DecidableEq, Hashable, Inhabited, Repr

namespace Double

/-! ## The pattern -/

/-- The pattern without its sign. -/
@[inline] def magnitude (a : Double) : UInt64 := a.bits &&& 0x7fffffffffffffff

/-- Whether the sign bit is set. -/
@[inline] def isNegative (a : Double) : Bool := 0x8000000000000000 ≤ a.bits

/-- Whether the pattern stands for no number. -/
@[inline] def isNaN (a : Double) : Bool := 0x7ff0000000000000 < a.magnitude

@[inline] def isInfinite (a : Double) : Bool := a.magnitude == 0x7ff0000000000000

/-- The result of an undefined operation. -/
def nan : Double := ⟨0xfff8000000000000⟩

def infinity : Double := ⟨0x7ff0000000000000⟩

/-- The zero below zero, which leaves every other number as it is when added to it. -/
def negativeZero : Double := ⟨0x8000000000000000⟩

/-- The same value with the quiet bit set. -/
@[inline] def quiet (a : Double) : Double := ⟨a.bits ||| 0x0008000000000000⟩

/-- The number nearest to `digits · 10 ^ exponent`. -/
def ofDecimal (negative : Bool) (digits : Nat) (exponent : Int) : Double :=
  let m := UInt64.ofNat (BinaryFormat.double.ofDecimal digits exponent)
  ⟨if negative then m ||| 0x8000000000000000 else m⟩

instance : Zero Double := ⟨⟨0⟩⟩

instance : One Double := ⟨⟨0x3ff0000000000000⟩⟩

instance : NatCast Double where
  natCast n := ⟨UInt64.ofNat (BinaryFormat.double.nearest n 1)⟩

/-! ## Order -/

/-- The rank of a number: negative numbers count down from zero. -/
@[inline] def rank (a : Double) : Int :=
  if a.isNegative then -a.magnitude.toNat else a.magnitude.toNat

instance : LT Double where
  lt a b := a.isNaN = false ∧ b.isNaN = false ∧ a.rank < b.rank

instance : LE Double where
  le a b := a.isNaN = false ∧ b.isNaN = false ∧ a.rank ≤ b.rank

instance : DecidableLT Double := fun _ _ => inferInstanceAs (Decidable (_ ∧ _ ∧ _))

instance : DecidableLE Double := fun _ _ => inferInstanceAs (Decidable (_ ∧ _ ∧ _))

/-! ## Arithmetic -/

/-- The machine number with this pattern. -/
@[inline] def toFloat (a : Double) : Float := Float.ofBits a.bits

/-- The pattern of a machine number. -/
@[inline] def ofFloat (x : Float) : Double :=
  let a : Double := ⟨x.toBits⟩
  if a.isNaN then nan else a

/-- A rounded operation on numbers, extended to operands that are none. -/
@[inline] def lift (op : Float → Float → Float) (a b : Double) : Double :=
  if a.isNaN then a.quiet
  else if b.isNaN then b.quiet
  else ofFloat (op a.toFloat b.toFloat)

instance : Add Double := ⟨lift (· + ·)⟩

instance : Sub Double := ⟨lift (· - ·)⟩

instance : Mul Double := ⟨lift (· * ·)⟩

instance : Div Double := ⟨lift (· / ·)⟩

instance : Neg Double := ⟨fun a => ⟨a.bits ^^^ 0x8000000000000000⟩⟩

/-- The pattern with its sign cleared. -/
@[inline] def abs (a : Double) : Double := ⟨a.magnitude⟩

def pow (a b : Double) : Double := ofFloat (a.toFloat.pow b.toFloat)

instance : Scalar Double where
  decidableLT := inferInstance
  decidableLE := inferInstance
  abs := abs

/-! ## Between the precisions -/

/-- The same number in double precision. -/
def ofSingle (a : Single) : Double :=
  let sign : UInt64 := if a.isNegative then 0x8000000000000000 else 0
  let m := a.magnitude
  if m < 0x00800000 then
    ⟨sign ||| UInt64.ofNat (BinaryFormat.double.ofDyadic (BinaryFormat.single.decode m.toNat))⟩
  else if m < 0x7f800000 then
    -- the exponent bias grows from 127 to 1023
    ⟨sign ||| ((m.toUInt64 <<< 29) + 0x3800000000000000)⟩
  else if a.isNaN then
    let payload : UInt64 := (m.toUInt64 &&& 0x007fffff) <<< 29
    ⟨sign ||| 0x7ff8000000000000 ||| payload⟩
  else ⟨sign ||| 0x7ff0000000000000⟩

/-- The nearest number in single precision. -/
def toSingle (a : Double) : Single :=
  if a.isNaN then Single.nan
  else
    let sign : UInt32 := if a.isNegative then 0x80000000 else 0
    let m := if a.isInfinite then BinaryFormat.single.infinity
      else BinaryFormat.single.ofDyadic (BinaryFormat.double.decode a.magnitude.toNat)
    ⟨sign ||| UInt32.ofNat m⟩

/-- The greatest count, `2 ^ 64 - 1`. -/
def maxCount : Nat := UInt64.size - 1

/-- The whole part as a count: zero for negative values and for no number, and the greatest count
for everything above it. -/
def toCount (a : Double) : Nat :=
  if a.isNaN || a.isNegative then 0
  else if a.isInfinite then maxCount
  else
    let d := BinaryFormat.double.decode a.magnitude.toNat
    min (d.mantissa * wholePower 2 d.exponent / wholePower 2 (-d.exponent)) maxCount

end Double

end HingeLoss

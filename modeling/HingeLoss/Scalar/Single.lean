import HingeLoss.Scalar
import HingeLoss.Scalar.Binary

/-!
# HingeLoss.Scalar.Single

Single precision numbers, kept as their bit patterns.

1. two values are equal when their patterns are, so the sign of a zero and the payload of a value
   that is no number are part of the value;
2. negation and absolute value touch the sign bit only;
3. sums, products and quotients are rounded once to nearest; an operand that is no number is the
   result, the left one first, with its quiet bit set; an undefined result is `Single.nan`;
4. `<` and `≤` compare numbers: the two zeros are equal, and nothing compares with no number.
-/

namespace HingeLoss

structure Single where
  /-- The pattern: sign, eight exponent bits, 23 fraction bits. -/
  bits : UInt32
deriving DecidableEq, Hashable, Inhabited, Repr

namespace Single

/-! ## The pattern -/

/-- The pattern without its sign. -/
@[inline] def magnitude (a : Single) : UInt32 := a.bits &&& 0x7fffffff

/-- Whether the sign bit is set. -/
@[inline] def isNegative (a : Single) : Bool := 0x80000000 ≤ a.bits

/-- Whether the pattern stands for no number. -/
@[inline] def isNaN (a : Single) : Bool := 0x7f800000 < a.magnitude

@[inline] def isInfinite (a : Single) : Bool := a.magnitude == 0x7f800000

/-- Whether the pattern stands for a finite number. -/
@[inline] def isFinite (a : Single) : Bool := a.magnitude < 0x7f800000

/-- The result of an undefined operation. -/
def nan : Single := ⟨0xffc00000⟩

def infinity : Single := ⟨0x7f800000⟩

/-- The same value with the quiet bit set. -/
@[inline] def quiet (a : Single) : Single := ⟨a.bits ||| 0x00400000⟩

/-- The number nearest to `digits · 10 ^ exponent`. -/
def ofDecimal (negative : Bool) (digits : Nat) (exponent : Int) : Single :=
  let m := UInt32.ofNat (BinaryFormat.single.ofDecimal digits exponent)
  ⟨if negative then m ||| 0x80000000 else m⟩

instance : OfScientific Single where
  ofScientific m negative e := ofDecimal false m (if negative then -e else e)

instance : Zero Single := ⟨⟨0⟩⟩

instance : One Single := ⟨⟨0x3f800000⟩⟩

instance : NatCast Single where
  natCast n := ⟨UInt32.ofNat (BinaryFormat.single.nearest n 1)⟩

/-! ## Order -/

/-- The rank of a number: negative numbers count down from zero. -/
@[inline] def rank (a : Single) : Int :=
  if a.isNegative then -a.magnitude.toNat else a.magnitude.toNat

instance : LT Single where
  lt a b := a.isNaN = false ∧ b.isNaN = false ∧ a.rank < b.rank

instance : LE Single where
  le a b := a.isNaN = false ∧ b.isNaN = false ∧ a.rank ≤ b.rank

instance : DecidableLT Single := fun _ _ => inferInstanceAs (Decidable (_ ∧ _ ∧ _))

instance : DecidableLE Single := fun _ _ => inferInstanceAs (Decidable (_ ∧ _ ∧ _))

/-! ## Arithmetic -/

/-- The machine number with this pattern. -/
@[inline] def toFloat32 (a : Single) : Float32 := Float32.ofBits a.bits

/-- The pattern of a machine number. -/
@[inline] def ofFloat32 (x : Float32) : Single :=
  let a : Single := ⟨x.toBits⟩
  if a.isNaN then nan else a

/-- A rounded operation on numbers, extended to operands that are none. -/
@[inline] def lift (op : Float32 → Float32 → Float32) (a b : Single) : Single :=
  if a.isNaN then a.quiet
  else if b.isNaN then b.quiet
  else ofFloat32 (op a.toFloat32 b.toFloat32)

instance : Add Single := ⟨lift (· + ·)⟩

instance : Sub Single := ⟨lift (· - ·)⟩

instance : Mul Single := ⟨lift (· * ·)⟩

instance : Div Single := ⟨lift (· / ·)⟩

instance : Neg Single := ⟨fun a => ⟨a.bits ^^^ 0x80000000⟩⟩

/-- The pattern with its sign cleared. -/
@[inline] def abs (a : Single) : Single := ⟨a.magnitude⟩

/-- The rounded square root. -/
def sqrt (a : Single) : Single := if a.isNaN then a.quiet else ofFloat32 a.toFloat32.sqrt

def pow (a b : Single) : Single := ofFloat32 (a.toFloat32.pow b.toFloat32)

/-- The power of a number by a whole number, by repeated squaring from the low bit of the exponent.
Each product is rounded. -/
def powNat (a : Single) (n : Nat) : Single :=
  go 1 a n
where
  /-- The product of `acc` and the power `a ^ n`. -/
  go (acc a : Single) (n : Nat) : Single :=
    let acc := if n % 2 = 1 then acc * a else acc
    if n < 2 then acc else go acc (a * a) (n / 2)

instance : Scalar Single where
  decidableLT := inferInstance
  decidableLE := inferInstance
  abs := abs

end Single

end HingeLoss

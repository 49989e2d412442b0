import Mathlib
import HingeLoss.Proofs.Scalar.Nearest
import HingeLoss.Scalar.Double

/-!
# HingeLoss.Proofs.Scalar.Difference

A finite number less itself is zero, in double precision.

1. a pattern whose exponent field is not full stands for a zero or a finite number, and packing that
   number gives the pattern again (`pack_unpack_of_ne`);
2. for those the difference with itself is the positive zero (`sub_self_unpack`);
3. widening keeps single precision numbers finite (`Double.magnitude_ofSingle_lt`), so the distance
   of a finite value from itself is zero (`Double.abs_ofSingle_sub_self`), and so is a sum of such
   distances (`Double.isZero_foldl_add`).

What is known of packing and unpacking floats comes with the import of all of Mathlib only.
-/

namespace HingeLoss

open Float.Model
open UnpackedFloat (unpackExponent unpackMantissa unpackSign)

/-! ## Unpacked numbers -/

section Unpacked

variable {b : BitVec Format.binary64.numBits}

/-- A pattern whose exponent field is not full is what it is packed to when it is unpacked. -/
theorem pack_unpack_of_ne (h : unpackExponent b ≠ -1#_) :
    UnpackedFloat.pack Format.binary64 (UnpackedFloat.unpack Format.binary64 b) = b := by
  have hnumber : UnpackedFloat.isNaNBits b = false :=
    decide_eq_false fun hnan => h hnan.1
  rw [UnpackedFloat.pack_unpack, hnumber]
  rfl

/-- **A number that is not infinite, less itself, is the positive zero.** -/
theorem sub_self_unpack (h : unpackExponent b ≠ -1#_) :
    UnpackedFloat.sub Format.binary64 (UnpackedFloat.unpack Format.binary64 b)
      (UnpackedFloat.unpack Format.binary64 b) = .zero .positive := by
  have hfinite (s : UnpackedFloat.Sign) (m : Nat) (e : Int) (hm : 0 < m) :
      UnpackedFloat.sub Format.binary64 (.finite s m e hm) (.finite s m e hm) =
        .zero .positive := by
    simp [UnpackedFloat.sub, UnpackedFloat.normalize]
  simp only [UnpackedFloat.unpack, h, if_false]
  split
  · split
    · cases UnpackedFloat.Sign.ofBitVec (unpackSign b) <;> rfl
    · exact hfinite _ _ _ _
  · exact hfinite _ _ _ _

end Unpacked

/-! ## Rounding to double precision -/

namespace BinaryFormat

/-- A subnormal single precision number is finite in double precision, far from infinity. -/
theorem ofDyadic_decode_lt {m : Nat} (h : m < 0x00800000) :
    double.ofDyadic (single.decode m) < 0x7ff0000000000000 := by
  have hden : 0 < wholePower 2 (-(single.decode m).exponent) := wholePower_pos Nat.two_pos _
  have hsmall : (single.decode m).value < 2 ^ (0 : Int) := by
    have hm : (m : ℚ) < 2 ^ (149 : Int) := by exact_mod_cast h.trans (by norm_num)
    rw [decode_of_lt h, single_leastExponent, Dyadic.value]
    calc (m : ℚ) * 2 ^ (-149 : Int) < 2 ^ (149 : Int) * 2 ^ (-149 : Int) := by gcongr
      _ = 2 ^ (0 : Int) := (zpow_add₀ two_ne_zero _ _).symm
  rw [Dyadic.value_eq_div] at hsmall
  exact nearest_lt_infinity (f := double) hden hsmall (by decide)

end BinaryFormat

/-! ## Double precision -/

namespace Double

/-- The magnitude is the pattern without its first bit. -/
theorem toNat_magnitude (a : Double) : a.magnitude.toNat = a.bits.toNat % 2 ^ 63 := by
  rw [magnitude, UInt64.toNat_and]
  exact Nat.and_two_pow_sub_one_eq_mod _ 63

/-- A finite number has no full exponent field. -/
theorem unpackExponent_ne {a : Double} (h : a.magnitude < 0x7ff0000000000000) :
    @unpackExponent .binary64 a.bits.toBitVec ≠ -1#_ := by
  intro hfull
  have hnat := congrArg BitVec.toNat hfull
  have hones : (-1#_ : BitVec Format.binary64.exponentBits).toNat = 2047 := by decide
  rw [hones, UnpackedFloat.unpackExponent, BitVec.toNat_cast, BitVec.extractLsb_toNat,
    Nat.shiftRight_eq_div_pow] at hnat
  rw [UInt64.lt_iff_toNat_lt, toNat_magnitude] at h
  change a.bits.toNat / 2 ^ 52 % 2 ^ 11 = 2047 at hnat
  change a.bits.toNat % 2 ^ 63 < 0x7ff0000000000000 at h
  omega

/-- **A finite number less itself is zero.** -/
theorem sub_self {a : Double} (h : a.magnitude < 0x7ff0000000000000) : a - a = 0 := by
  have hnumber : a.isNaN = false := by
    rw [isNaN, decide_eq_false_iff_not, UInt64.not_lt]
    exact UInt64.le_of_lt h
  have hsub : a.toFloat - a.toFloat = Float.ofBits 0 := by
    have hfield := unpackExponent_ne h
    rw [← pack_unpack_of_ne hfield] at hfield
    have hunpack := sub_self_unpack hfield
    refine (congrArg (fun u => Float.ofModel (Float.Model.pack u)) hunpack).trans ?_
    rfl
  change lift (· - ·) a a = 0
  simp only [lift, hnumber, Bool.false_eq_true, if_false, hsub]
  rfl

/-- A sign bit is no part of the magnitude. -/
theorem magnitude_or {sign x : UInt64} (hsign : sign = 0 ∨ sign = 0x8000000000000000)
    (hx : x.toNat < 2 ^ 63) : (⟨sign ||| x⟩ : Double).magnitude = x := by
  refine UInt64.toNat_inj.mp ?_
  rw [toNat_magnitude, UInt64.toNat_or]
  cases hsign with
  | inl h =>
    rw [h, UInt64.toNat_zero, Nat.zero_or]
    exact Nat.mod_eq_of_lt hx
  | inr h =>
    rw [h]
    have hor : 2 ^ 63 + x.toNat = 2 ^ 63 ||| x.toNat := by
      simpa using Nat.two_pow_add_eq_or_of_lt hx 1
    change (2 ^ 63 ||| x.toNat) % 2 ^ 63 = x.toNat
    omega

/-- The pattern of a number that is not subnormal is widened without a carry. -/
theorem toNat_widen {m : UInt32} (h : m.toNat < 0x7f800000) :
    ((m.toUInt64 <<< 29) + 0x3800000000000000).toNat = m.toNat * 2 ^ 29 + 0x3800000000000000 := by
  rw [UInt64.toNat_add, UInt64.toNat_shiftLeft, UInt32.toNat_toUInt64]
  change (m.toNat <<< 29 % 2 ^ 64 + 0x3800000000000000) % 2 ^ 64 = _
  rw [Nat.shiftLeft_eq]
  omega

/-- **Widening keeps numbers finite.** -/
theorem magnitude_ofSingle_lt {v : Single} (h : v.isFinite = true) :
    (ofSingle v).magnitude < 0x7ff0000000000000 := by
  rw [Single.isFinite, decide_eq_true_eq] at h
  have hsign : (if v.isNegative = true then 0x8000000000000000 else 0 : UInt64) = 0 ∨
      (if v.isNegative = true then 0x8000000000000000 else 0 : UInt64) = 0x8000000000000000 := by
    split
    · exact .inr rfl
    · exact .inl rfl
  simp only [ofSingle]
  split
  · next hsmall =>
    have hlt := BinaryFormat.ofDyadic_decode_lt (UInt32.lt_iff_toNat_lt.mp hsmall)
    generalize BinaryFormat.double.ofDyadic _ = n at hlt
    have hn : (UInt64.ofNat n).toNat = n :=
      UInt64.toNat_ofNat_of_lt' (Nat.lt_trans hlt (by decide))
    rw [magnitude_or hsign (by omega), UInt64.lt_iff_toNat_lt, hn]
    exact hlt
  · have hm : v.magnitude.toNat < 0x7f800000 := UInt32.lt_iff_toNat_lt.mp h
    have hwide := toNat_widen hm
    rw [magnitude_or hsign (by omega), UInt64.lt_iff_toNat_lt, hwide]
    change _ < 0x7ff0000000000000
    omega

/-- The distance of a finite value from itself is zero. -/
theorem abs_ofSingle_sub_self {v : Single} (h : v.isFinite = true) :
    (ofSingle v - ofSingle v).abs = 0 := by
  rw [sub_self (magnitude_ofSingle_lt h)]
  rfl

/-- A sum of zeros that starts at a zero is a zero. -/
theorem isZero_foldl_add {α : Type} {f : α → Double} {l : List α} (h : ∀ x ∈ l, f x = 0)
    {a : Double} (ha : a = negativeZero ∨ a = 0) :
    Scalar.IsZero (l.foldl (fun s x => s + f x) a) := by
  induction l generalizing a with
  | nil =>
    rw [List.foldl_nil]
    cases ha with
    | inl ha => rw [ha]; decide
    | inr ha => rw [ha]; decide
  | cons x l ih =>
    rw [List.foldl_cons, h x List.mem_cons_self]
    have hsum : a + 0 = 0 := by
      cases ha with
      | inl ha => rw [ha]; rfl
      | inr ha => rw [ha]; rfl
    exact ih (fun y hy => h y (List.mem_cons_of_mem x hy)) (.inr hsum)

end Double

end HingeLoss

import Mathlib
import HingeLoss.Proofs.Scalar.Nearest

/-!
# HingeLoss.Proofs.Scalar.Whole

Whole numbers in single precision.

1. rounding gives back a number that has the exponent it is to have, however many zeros stand behind
   its mantissa (`roundWithAccuracy_exact`);
2. a whole number below `2 ^ 24` is such a number once its mantissa has been filled up
   (`targetExponent_whole`), so sums, differences and products that stay below are exact;
3. `Single.Reads` says so about bit patterns: what a pattern stands for is compared with a rational
   number.  Both zeros are patterns of the number zero.

What is known of packing and unpacking floats comes with the import of all of Mathlib only.
-/

namespace HingeLoss

open Float.Model
open UnpackedFloat

/-! ## Fields -/

section Fields

variable (spec : Format)

/-- The exponent field as a part of the pattern, read as a number. -/
theorem toNat_exponentField (b : BitVec spec.numBits) :
    (unpackExponent b).toNat =
      b.toNat / 2 ^ spec.mantissaBitsWithoutImplicit % 2 ^ spec.exponentBits := by
  have hwidth : spec.mantissaBitsWithoutImplicit + spec.exponentBits - 1 -
      spec.mantissaBitsWithoutImplicit + 1 = spec.exponentBits := by
    have := spec.he
    omega
  rw [unpackExponent, BitVec.toNat_cast, BitVec.extractLsb_toNat, Nat.shiftRight_eq_div_pow, hwidth]

theorem toNat_mantissaField (b : BitVec spec.numBits) :
    (unpackMantissa b).toNat = b.toNat % 2 ^ spec.mantissaBitsWithoutImplicit := by
  have hwidth : spec.mantissaBitsWithoutImplicit - 1 - 0 + 1 =
      spec.mantissaBitsWithoutImplicit := by
    have := spec.hm
    omega
  rw [unpackMantissa, BitVec.toNat_cast, BitVec.extractLsb_toNat, Nat.shiftRight_eq_div_pow,
    Nat.pow_zero, Nat.div_one, hwidth]

theorem toNat_signField (b : BitVec spec.numBits) : (unpackSign b).toNat =
    b.toNat / 2 ^ (spec.mantissaBitsWithoutImplicit + spec.exponentBits) % 2 := by
  rw [unpackSign, BitVec.toNat_cast, BitVec.extractLsb_toNat, Nat.shiftRight_eq_div_pow,
    Nat.sub_self]

end Fields

/-! ## Exact rounding -/

section Rounding

variable {spec : Format} {m n : Nat} {e : Int}

theorem log2_mul_two_pow (h : 0 < m) (k : Nat) : (m * 2 ^ k).log2 = m.log2 + k := by
  have hm : m ≠ 0 := Nat.ne_of_gt h
  rw [Nat.log2_eq_iff (Nat.mul_ne_zero hm (Nat.two_pow_pos k).ne'), Nat.pow_add,
    Nat.add_right_comm, Nat.pow_add]
  exact ⟨Nat.mul_le_mul_right _ (Nat.log2_self_le hm),
    Nat.mul_lt_mul_of_pos_right Nat.lt_log2_self (Nat.two_pow_pos k)⟩

theorem totalExponent_mul_two_pow (h : 0 < m) (e : Int) (k : Nat) :
    totalExponent (m * 2 ^ k) (e - k) = totalExponent m e := by
  rw [totalExponent, totalExponent, log2_mul_two_pow h]
  omega

/-- Zeros that are shifted out leave no trace. -/
theorem shiftRight_exact (m k : Nat) :
    ExtendedMantissa.ofMantissaAndAccuracy (m * 2 ^ k) .exact >>> k = ⟨m, false, false⟩ := by
  show k.repeat ExtendedMantissa.shiftRightOne ⟨m * 2 ^ k, false, false⟩ = _
  induction k generalizing m with
  | zero => simp [Nat.repeat]
  | succ k ih =>
    rw [Nat.repeat, Nat.pow_succ', ← Nat.mul_assoc, ih]
    simp [ExtendedMantissa.shiftRightOne]

theorem shiftToTargetExponent_exact (hm : 0 < m) (he : spec.targetExponent (totalExponent m e) = e)
    (k : Nat) :
    shiftToTargetExponent spec (m * 2 ^ k) (e - k) .exact = (⟨m, false, false⟩, e) := by
  have hshift : (e - (e - k)).toNat = k := by omega
  rw [shiftToTargetExponent, totalExponent_mul_two_pow hm, he, shiftToExponent, hshift,
    shiftRight_exact, Int.sub_add_cancel]

/-- **Rounding is exact** for a number that has its target exponent once the zeros behind its
mantissa are taken away. -/
theorem roundWithAccuracy_exact (s : Sign) (hm : 0 < m)
    (he : spec.targetExponent (totalExponent m e) = e) (k : Nat) :
    roundWithAccuracy spec s (m * 2 ^ k) (e - k) .exact = .finite s m e hm := by
  have hagain := shiftToTargetExponent_exact hm he 0
  rw [Nat.pow_zero, Nat.mul_one, Int.natCast_zero, Int.sub_zero] at hagain
  have hrounded : (⟨m, false, false⟩ : ExtendedMantissa).roundedMantissa = m := rfl
  simp only [roundWithAccuracy, shiftToTargetExponent_exact hm he k, hrounded, hagain]
  exact dif_neg (Nat.ne_of_gt hm)

end Rounding

/-! ## Whole numbers -/

/-- The zeros behind a whole number that fill up a mantissa of 24 bits. -/
def fillBits (n : Nat) : Nat := 23 - n.log2

section Whole

variable {n : Nat} {u v : UnpackedFloat} {a b : Int}

theorem log2_le_of_lt (h : n < 2 ^ 24) : n.log2 ≤ 23 := by
  obtain rfl | hpos := Nat.eq_zero_or_pos n
  · decide
  · have hlog := (Nat.log2_lt (Nat.ne_of_gt hpos)).mpr h
    omega

theorem fill_pos (h : 0 < n) : 0 < n * 2 ^ fillBits n := Nat.mul_pos h (Nat.two_pow_pos _)

theorem targetExponent_whole (hpos : 0 < n) (hlt : n < 2 ^ 24) (k : Nat) :
    Format.binary32.targetExponent (totalExponent (n * 2 ^ k) (-(k : Int))) =
      -(fillBits n : Int) := by
  have hlog := log2_le_of_lt hlt
  have hbits : (Format.binary32.mantissaBits : Int) = 24 := rfl
  have hleast : Format.binary32.minExponent = -149 := by decide
  rw [Format.targetExponent, totalExponent, log2_mul_two_pow hpos, hbits, hleast, fillBits]
  omega

/-- Bringing a whole number to another exponent adds zeros, if it changes anything. -/
theorem decreaseExponent_whole (n j k : Nat) :
    decreaseExponent (n * 2 ^ j) (-(j : Int)) (-(k : Int)) =
      (n * 2 ^ max j k, -((max j k : Nat) : Int)) := by
  have hshift : (-(j : Int) - -(k : Int)).toNat = k - j := by omega
  have hpower : max j k = j + (k - j) := by omega
  rw [decreaseExponent, hshift, Nat.shiftLeft_eq, Nat.mul_assoc, ← Nat.pow_add, ← hpower]
  exact Prod.ext rfl (by omega)

theorem roundWithAccuracy_whole (s : Sign) (hpos : 0 < n) (hlt : n < 2 ^ 24) {k : Nat}
    (hk : fillBits n ≤ k) :
    roundWithAccuracy .binary32 s (n * 2 ^ k) (-(k : Int)) .exact =
      .finite s (n * 2 ^ fillBits n) (-(fillBits n : Int)) (fill_pos hpos) := by
  have hexact := roundWithAccuracy_exact s (fill_pos hpos) (targetExponent_whole hpos hlt _)
    (k - fillBits n)
  rw [Nat.mul_assoc, ← Nat.pow_add, Nat.add_sub_cancel' hk] at hexact
  rw [← hexact]
  congr 1
  omega

theorem round_whole (s : Sign) (hpos : 0 < n) (hlt : n < 2 ^ 24) (k : Nat) :
    UnpackedFloat.round .binary32 s (n * 2 ^ k) (-(k : Int)) =
      .finite s (n * 2 ^ fillBits n) (-(fillBits n : Int)) (fill_pos hpos) := by
  simp only [UnpackedFloat.round, targetExponent_whole hpos hlt, decreaseExponent_whole]
  exact roundWithAccuracy_whole s hpos hlt (Nat.le_max_right ..)

/-- Unpacked numbers that are whole. -/
inductive IsWhole : UnpackedFloat → Int → Prop
  | zero (s : Sign) : IsWhole (.zero s) 0
  | finite (s : Sign) (n : Nat) (hpos : 0 < n) (hlt : n < 2 ^ 24) :
      IsWhole (.finite s (n * 2 ^ fillBits n) (-(fillBits n : Int)) (fill_pos hpos)) (s.apply n)

theorem signed_mul (s : Sign) (x y : Int) : s.apply (x * y) = s.apply x * y := by
  cases s with
  | positive => rfl
  | negative => exact (Int.neg_mul x y).symm

theorem signed_mul_signed (s s' : Sign) (x y : Int) :
    s.apply x * s'.apply y = (s * s').apply (x * y) := by
  cases s <;> cases s'
  · exact Int.neg_mul_neg x y
  · exact Int.neg_mul x y
  · exact Int.mul_neg x y
  · rfl

theorem signed_neg (s : Sign) (x : Int) : (-s).apply x = -s.apply x := by
  cases s with
  | positive => rfl
  | negative => exact (Int.neg_neg x).symm

theorem natAbs_signed (s : Sign) (n : Nat) : (s.apply n).natAbs = n := by
  cases s with
  | positive => exact Int.natAbs_natCast n
  | negative => exact Int.natAbs_neg n

theorem exists_signed {z : Int} (h : z ≠ 0) :
    ∃ (s : Sign) (n : Nat), 0 < n ∧ z = s.apply n := by
  have hpos : 0 < z.natAbs := Int.natAbs_pos.mpr h
  obtain hz | hz := Int.natAbs_eq z
  · exact ⟨.positive, z.natAbs, hpos, hz⟩
  · exact ⟨.negative, z.natAbs, hpos, hz⟩

theorem normalize_signed (spec : Format) (s s' : Sign) {m : Nat} (hm : 0 < m) (e : Int) :
    UnpackedFloat.normalize spec (s.apply m) e s' = UnpackedFloat.round spec s m e := by
  cases s with
  | positive =>
    have hcompare : compare (m : Int) 0 = .gt := Int.compare_eq_gt.mpr (by omega)
    show UnpackedFloat.normalize spec m e s' = _
    rw [UnpackedFloat.normalize, hcompare, Int.toNat_natCast]
  | negative =>
    have hcompare : compare (-(m : Int)) 0 = .lt := Int.compare_eq_lt.mpr (by omega)
    show UnpackedFloat.normalize spec (-(m : Int)) e s' = _
    rw [UnpackedFloat.normalize, hcompare, Int.neg_neg, Int.toNat_natCast]

/-- A whole number stays as it is, whatever its exponent. -/
theorem isWhole_normalize {z : Int} (h : z.natAbs < 2 ^ 24) (k : Nat) :
    IsWhole (UnpackedFloat.normalize .binary32 (z * 2 ^ k) (-(k : Int)) .positive) z := by
  obtain rfl | hz := eq_or_ne z 0
  · rw [Int.zero_mul]
    exact .zero .positive
  · obtain ⟨s, n, hpos, rfl⟩ := exists_signed hz
    rw [natAbs_signed] at h
    have hmantissa : s.apply n * 2 ^ k = s.apply (n * 2 ^ k : Nat) := by
      rw [← signed_mul]
      push_cast
      rfl
    rw [hmantissa, normalize_signed _ _ _ (Nat.mul_pos hpos (Nat.two_pow_pos k)),
      round_whole s hpos h]
    exact .finite s n hpos h

theorem IsWhole.add (hu : IsWhole u a) (hv : IsWhole v b) (h : (a + b).natAbs < 2 ^ 24) :
    IsWhole (UnpackedFloat.add .binary32 u v) (a + b) := by
  cases hu with
  | zero s =>
    rw [Int.zero_add]
    cases hv with
    | zero s' =>
      rw [UnpackedFloat.add]
      split <;> exact .zero _
    | finite s' n hpos hlt => exact .finite s' n hpos hlt
  | finite s n hpos hlt =>
    cases hv with
    | zero s' =>
      rw [Int.add_zero]
      exact .finite s n hpos hlt
    | finite s' n' hpos' hlt' =>
      obtain ⟨k, hk⟩ : ∃ k, k = max (fillBits n) (fillBits n') := ⟨_, rfl⟩
      have hmin : min (-(fillBits n : Int)) (-(fillBits n' : Int)) = -(k : Int) := by omega
      have hleft : max (fillBits n) k = k := by omega
      have hright : max (fillBits n') k = k := by omega
      have hsum := isWhole_normalize h k
      rw [Int.add_mul, ← signed_mul, ← signed_mul] at hsum
      simp only [UnpackedFloat.add, hmin, decreaseExponent_whole, hleft, hright]
      simpa using hsum

theorem IsWhole.neg (h : IsWhole u a) : IsWhole u.neg (-a) := by
  cases h with
  | zero s => exact .zero (-s)
  | finite s n hpos hlt =>
    rw [← signed_neg]
    exact .finite (-s) n hpos hlt

theorem sub_eq_add_neg (spec : Format) (u v : UnpackedFloat) :
    UnpackedFloat.sub spec u v = UnpackedFloat.add spec u v.neg := by
  cases u with
  | notANumber => rfl
  | infinity s => cases v <;> rfl
  | zero s => cases v <;> rfl
  | finite s m e hm =>
    cases v with
    | finite s' m' e' hm' =>
      simp only [UnpackedFloat.sub, UnpackedFloat.add, UnpackedFloat.neg, signed_neg,
        Int.sub_eq_add_neg]
    | _ => rfl

theorem IsWhole.sub (hu : IsWhole u a) (hv : IsWhole v b) (h : (a - b).natAbs < 2 ^ 24) :
    IsWhole (UnpackedFloat.sub .binary32 u v) (a - b) := by
  rw [sub_eq_add_neg, Int.sub_eq_add_neg]
  exact hu.add hv.neg h

theorem IsWhole.mul (hu : IsWhole u a) (hv : IsWhole v b) (h : (a * b).natAbs < 2 ^ 24) :
    IsWhole (UnpackedFloat.mul .binary32 u v) (a * b) := by
  cases hu with
  | zero s =>
    rw [Int.zero_mul]
    cases hv with
    | zero s' => exact .zero _
    | finite s' n hpos hlt => exact .zero _
  | finite s n hpos hlt =>
    cases hv with
    | zero s' =>
      rw [Int.mul_zero]
      exact .zero _
    | finite s' n' hpos' hlt' =>
      rw [signed_mul_signed] at h ⊢
      have hpos : 0 < n * n' := Nat.mul_pos hpos hpos'
      have hlt : n * n' < 2 ^ 24 := by rwa [← Int.natCast_mul, natAbs_signed] at h
      have hfill : fillBits (n * n') ≤ fillBits n + fillBits n' := by
        have hlog : n.log2 ≤ (n * n').log2 :=
          (Nat.le_log2 hpos.ne').mpr (Nat.le_trans (Nat.log2_self_le (by omega))
            (Nat.le_mul_of_pos_right n hpos'))
        have hlog' := log2_le_of_lt hlt'
        rw [fillBits, fillBits, fillBits]
        omega
      have hproduct := roundWithAccuracy_whole (s * s') hpos hlt hfill
      have hmantissa : n * 2 ^ fillBits n * (n' * 2 ^ fillBits n') =
          n * n' * 2 ^ (fillBits n + fillBits n') := by
        rw [Nat.pow_add, Nat.mul_mul_mul_comm]
      have hexponent : -(fillBits n : Int) + -(fillBits n' : Int) =
          -((fillBits n + fillBits n' : Nat) : Int) := by omega
      simp only [UnpackedFloat.mul, hmantissa, hexponent, hproduct]
      exact .finite (s * s') (n * n') hpos hlt

/-- A whole number other than zero has one form. -/
theorem IsWhole.eq (hu : IsWhole u a) (hv : IsWhole v a) (ha : a ≠ 0) : u = v := by
  cases hu with
  | zero s => contradiction
  | finite s n hpos hlt =>
    generalize hz : s.apply n = z at hv
    cases hv with
    | zero s' => exact absurd hz ha
    | finite s' n' hpos' hlt' =>
      obtain ⟨rfl, rfl⟩ : s = s' ∧ n = n' := by
        cases s <;> cases s' <;> simp [Sign.apply] at hz ⊢ <;> omega
      rfl

theorem toNat_one_append {w : Nat} (x : BitVec w) : (1#1 ++ x).toNat = 2 ^ w + x.toNat := by
  rw [BitVec.toNat_append, ← Nat.shiftLeft_add_eq_or_of_lt x.isLt]
  simp [Nat.shiftLeft_eq]

theorem log2_fill (hpos : 0 < n) (hlt : n < 2 ^ 24) : (n * 2 ^ fillBits n).log2 = 23 := by
  have hlog := log2_le_of_lt hlt
  rw [log2_mul_two_pow hpos, fillBits]
  omega

theorem fill_bounds (hpos : 0 < n) (hlt : n < 2 ^ 24) :
    2 ^ 23 ≤ n * 2 ^ fillBits n ∧ n * 2 ^ fillBits n < 2 ^ 24 :=
  (Nat.log2_eq_iff (fill_pos hpos).ne').mp (log2_fill hpos hlt)

/-- The fields of a whole number. -/
theorem pack_whole (s : Sign) (hpos : 0 < n) (hlt : n < 2 ^ 24) :
    pack .binary32 (.finite s (n * 2 ^ fillBits n) (-(fillBits n : Int)) (fill_pos hpos)) =
      packComponents .binary32 s (BitVec.ofNat 8 (150 - fillBits n))
        (BitVec.ofNat 23 (n * 2 ^ fillBits n)) := by
  have hfill : fillBits n ≤ 23 := Nat.sub_le ..
  have hbiased : (-(fillBits n : Int) + Format.binary32.exponentBias +
      Format.binary32.mantissaBitsWithoutImplicit).toNat = 150 - fillBits n := by
    show (-(fillBits n : Int) + 127 + 23).toNat = 150 - fillBits n
    omega
  simp only [UnpackedFloat.pack, hbiased, log2_fill hpos hlt]
  rw [if_neg (by omega)]
  rfl

/-- A whole number is packed without loss. -/
theorem IsWhole.unpack_pack (h : IsWhole u a) : unpack .binary32 (pack .binary32 u) = u := by
  cases h with
  | zero s => exact unpack_packedZero
  | finite s n hpos hlt =>
    have hfill : fillBits n ≤ 23 := Nat.sub_le ..
    have hexponent : (BitVec.ofNat 8 (150 - fillBits n)).toNat = 150 - fillBits n := by
      rw [BitVec.toNat_ofNat, Nat.mod_eq_of_lt (by omega)]
    have hfull : BitVec.ofNat 8 (150 - fillBits n) ≠ -1#8 := by
      rw [Ne, ← BitVec.toNat_inj, hexponent]
      show ¬ _ = 255
      omega
    have hnormal : BitVec.ofNat 8 (150 - fillBits n) ≠ 0#8 := by
      rw [Ne, ← BitVec.toNat_inj, hexponent]
      show ¬ _ = 0
      omega
    have hmantissa : (1#1 ++ BitVec.ofNat 23 (n * 2 ^ fillBits n)).toNat = n * 2 ^ fillBits n := by
      obtain ⟨hge, hlt'⟩ := fill_bounds hpos hlt
      rw [toNat_one_append, BitVec.toNat_ofNat]
      omega
    have hbias : (Format.binary32.exponentBias : Int) = 127 := rfl
    rw [pack_whole s hpos hlt, UnpackedFloat.unpack]
    simp only [unpackMantissa_packComponents, unpackExponent_packComponents,
      unpackSign_packComponents, Sign.ofBitVec_toBitVec, if_neg hfull, if_neg hnormal, hmantissa,
      hexponent]
    congr 1
    omega

end Whole

/-! ## Patterns -/

namespace Single

variable {a b c : Single} {p q : Rat}

/-- What a pattern stands for. -/
def unpacked (a : Single) : UnpackedFloat := unpack .binary32 a.bits.toBitVec

/-- Whether a pattern stands for a rational number that is whole and below `2 ^ 24`. -/
def Reads (a : Single) (q : Rat) : Prop := ∃ n : Int, IsWhole a.unpacked n ∧ q = n

theorem toNat_magnitude (a : Single) : a.magnitude.toNat = a.bits.toNat % 2 ^ 31 := by
  rw [magnitude, UInt32.toNat_and]
  exact Nat.and_two_pow_sub_one_eq_mod _ 31

theorem toNat_unpackExponent (a : Single) :
    (@unpackExponent .binary32 a.bits.toBitVec).toNat = a.bits.toNat / 2 ^ 23 % 2 ^ 8 :=
  toNat_exponentField .binary32 _

theorem toNat_unpackMantissa (a : Single) :
    (@unpackMantissa .binary32 a.bits.toBitVec).toNat = a.bits.toNat % 2 ^ 23 :=
  toNat_mantissaField .binary32 _

theorem toNat_unpackSign (a : Single) :
    (@unpackSign .binary32 a.bits.toBitVec).toNat = a.bits.toNat / 2 ^ 31 % 2 :=
  toNat_signField .binary32 _

theorem isNaN_eq (a : Single) : a.isNaN = @isNaNBits .binary32 a.bits.toBitVec := by
  have hfull : @unpackExponent .binary32 a.bits.toBitVec = -1#_ ↔
      a.bits.toNat / 2 ^ 23 % 2 ^ 8 = 255 := by
    rw [← BitVec.toNat_inj, toNat_unpackExponent]
    rfl
  have hempty : @unpackMantissa .binary32 a.bits.toBitVec = 0#_ ↔
      a.bits.toNat % 2 ^ 23 = 0 := by
    rw [← BitVec.toNat_inj, toNat_unpackMantissa]
    rfl
  rw [isNaN, isNaNBits, decide_eq_decide, hfull, Ne, hempty, UInt32.lt_iff_toNat_lt,
    toNat_magnitude]
  show 0x7f800000 < _ ↔ _
  omega

theorem pack_unpacked (h : a.isNaN = false) : pack .binary32 a.unpacked = a.bits.toBitVec := by
  rw [unpacked, pack_unpack, ← isNaN_eq, h]
  rfl

theorem isNaN_eq_false_of_unpacked (h : a.unpacked ≠ .notANumber) : a.isNaN = false := by
  by_contra hnan
  rw [isNaN_eq, Bool.not_eq_false, isNaNBits, decide_eq_true_eq] at hnan
  exact h (by rw [unpacked, UnpackedFloat.unpack, if_pos hnan.1, if_neg hnan.2])

theorem unpack_toFloat32 (h : a.isNaN = false) : a.toFloat32.toModel.unpack = a.unpacked :=
  congrArg (UnpackedFloat.unpack .binary32) (pack_unpacked h)

/-- An operation on patterns is the operation on what they stand for. -/
theorem lift_eq {op : Float32 → Float32 → Float32}
    {on : UnpackedFloat → UnpackedFloat → UnpackedFloat}
    (hop : ∀ x y, op x y = ⟨Float32.Model.pack (on x.toModel.unpack y.toModel.unpack)⟩)
    (ha : a.isNaN = false) (hb : b.isNaN = false) (hc : c.isNaN = false)
    (h : pack .binary32 (on a.unpacked b.unpacked) = c.bits.toBitVec) : lift op a b = c := by
  have hresult : ofFloat32 (op a.toFloat32 b.toFloat32) = c := by
    rw [hop, unpack_toFloat32 ha, unpack_toFloat32 hb]
    show (if (⟨UInt32.ofBitVec (pack .binary32 (on a.unpacked b.unpacked))⟩ : Single).isNaN = true
      then nan else ⟨UInt32.ofBitVec (pack .binary32 (on a.unpacked b.unpacked))⟩) = c
    rw [h]
    show (if c.isNaN = true then nan else c) = c
    rw [hc]
    rfl
  simp only [lift, ha, hb, Bool.false_eq_true, if_false, hresult]

theorem Reads.isNaN (h : a.Reads q) : a.isNaN = false :=
  isNaN_eq_false_of_unpacked fun hnan => by
    obtain ⟨n, hn, _⟩ := h
    rw [hnan] at hn
    cases hn

theorem Reads.of_lift {op : Float32 → Float32 → Float32}
    {on : UnpackedFloat → UnpackedFloat → UnpackedFloat}
    (hop : ∀ x y, op x y = ⟨Float32.Model.pack (on x.toModel.unpack y.toModel.unpack)⟩)
    (ha : a.Reads p) (hb : b.Reads q) {n : Int} (h : IsWhole (on a.unpacked b.unpacked) n) :
    (lift op a b).Reads n := by
  let c : Single := ⟨UInt32.ofBitVec (pack .binary32 (on a.unpacked b.unpacked))⟩
  have hc : IsWhole c.unpacked n := by
    show IsWhole (unpack .binary32 (pack .binary32 (on a.unpacked b.unpacked))) n
    rwa [h.unpack_pack]
  have hnumber : c.isNaN = false := Reads.isNaN ⟨n, hc, rfl⟩
  rw [lift_eq (c := c) hop ha.isNaN hb.isNaN hnumber rfl]
  exact ⟨n, hc, rfl⟩

theorem natAbs_lt_of_abs_lt {n : Int} (h : |(n : Rat)| < 2 ^ 24) : n.natAbs < 2 ^ 24 := by
  have hint : |n| < 2 ^ 24 := by exact_mod_cast h
  rw [Int.abs_eq_natAbs] at hint
  omega

/-- Sums that stay small are exact. -/
theorem Reads.add (ha : a.Reads p) (hb : b.Reads q) (h : |p + q| < 2 ^ 24) :
    (a + b).Reads (p + q) := by
  obtain ⟨m, hm, rfl⟩ := ha
  obtain ⟨n, hn, rfl⟩ := hb
  rw [← Int.cast_add] at h ⊢
  exact of_lift (fun _ _ => rfl) ⟨m, hm, rfl⟩ ⟨n, hn, rfl⟩ (hm.add hn (natAbs_lt_of_abs_lt h))

theorem Reads.sub (ha : a.Reads p) (hb : b.Reads q) (h : |p - q| < 2 ^ 24) :
    (a - b).Reads (p - q) := by
  obtain ⟨m, hm, rfl⟩ := ha
  obtain ⟨n, hn, rfl⟩ := hb
  rw [← Int.cast_sub] at h ⊢
  exact of_lift (fun _ _ => rfl) ⟨m, hm, rfl⟩ ⟨n, hn, rfl⟩ (hm.sub hn (natAbs_lt_of_abs_lt h))

theorem Reads.mul (ha : a.Reads p) (hb : b.Reads q) (h : |p * q| < 2 ^ 24) :
    (a * b).Reads (p * q) := by
  obtain ⟨m, hm, rfl⟩ := ha
  obtain ⟨n, hn, rfl⟩ := hb
  rw [← Int.cast_mul] at h ⊢
  exact of_lift (fun _ _ => rfl) ⟨m, hm, rfl⟩ ⟨n, hn, rfl⟩ (hm.mul hn (natAbs_lt_of_abs_lt h))

/-! ### Signs and zeros -/

theorem magnitude_eq_zero_iff : a.magnitude = 0 ↔ ∃ s, a.unpacked = .zero s := by
  constructor
  · intro h
    have hmagnitude : a.bits.toNat % 2 ^ 31 = 0 := by rw [← toNat_magnitude, h]; rfl
    have hexponent : @unpackExponent .binary32 a.bits.toBitVec = 0#_ := by
      rw [← BitVec.toNat_inj, toNat_unpackExponent]
      show _ = 0
      omega
    have hmantissa : @unpackMantissa .binary32 a.bits.toBitVec = 0#_ := by
      rw [← BitVec.toNat_inj, toNat_unpackMantissa]
      show _ = 0
      omega
    have hfull : @unpackExponent .binary32 a.bits.toBitVec ≠ -1#_ := by
      rw [hexponent]
      decide
    rw [unpacked, UnpackedFloat.unpack, if_neg hfull, if_pos hexponent, dif_pos hmantissa]
    exact ⟨_, rfl⟩
  · rintro ⟨s, h⟩
    have hnumber : a.isNaN = false := isNaN_eq_false_of_unpacked (by rw [h]; nofun)
    have hbits : a.bits = UInt32.ofBitVec (packedZero .binary32 s) := by
      rw [← UInt32.toBitVec_inj, ← pack_unpacked hnumber, h]
      rfl
    rw [magnitude, hbits]
    cases s <;> rfl

theorem isNegative_iff : a.isNegative = true ↔
    Sign.ofBitVec (@unpackSign .binary32 a.bits.toBitVec) = .negative := by
  have hsign : @unpackSign .binary32 a.bits.toBitVec = 0#1 ↔ a.bits.toNat / 2 ^ 31 % 2 = 0 := by
    rw [← BitVec.toNat_inj, toNat_unpackSign]
    rfl
  have hlt : a.bits.toNat < 2 ^ 32 := a.bits.toNat_lt
  rw [isNegative, decide_eq_true_eq, UInt32.le_iff_toNat_le]
  simp only [Sign.ofBitVec, hsign]
  show 2 ^ 31 ≤ a.bits.toNat ↔ _
  split
  · simp
    omega
  · simp
    omega

theorem sign_of_unpacked {s : Sign} {m : Nat} {e : Int} {hm : 0 < m}
    (h : a.unpacked = .finite s m e hm) :
    Sign.ofBitVec (@unpackSign .binary32 a.bits.toBitVec) = s := by
  rw [unpacked, UnpackedFloat.unpack] at h
  split at h
  · split at h <;> contradiction
  · split at h
    · split at h
      · contradiction
      · injection h
    · injection h

theorem zero_lt_iff : 0 < a ↔ a.isNaN = false ∧ a.magnitude ≠ 0 ∧ a.isNegative = false := by
  have hrank : (0 : Int) < a.rank ↔ a.magnitude ≠ 0 ∧ a.isNegative = false := by
    rw [rank, Ne, ← UInt32.toNat_inj, UInt32.toNat_zero]
    cases a.isNegative
    · simp
      omega
    · simp
  show (0 : Single).isNaN = false ∧ a.isNaN = false ∧ (0 : Single).rank < a.rank ↔ _
  rw [← hrank]
  exact and_iff_right rfl

theorem Reads.magnitude_eq_zero_iff (h : a.Reads q) : a.magnitude = 0 ↔ q = 0 := by
  obtain ⟨n, hn, rfl⟩ := h
  rw [Single.magnitude_eq_zero_iff, Int.cast_eq_zero]
  generalize a.unpacked = u at hn ⊢
  cases hn with
  | zero s => exact iff_of_true ⟨s, rfl⟩ rfl
  | finite s n hpos hlt =>
    refine iff_of_false nofun fun hzero => ?_
    cases s <;> simp [Sign.apply] at hzero <;> omega

/-- A whole number is positive exactly if its pattern is. -/
theorem Reads.zero_lt_iff (h : a.Reads q) : 0 < a ↔ 0 < q := by
  rw [Single.zero_lt_iff, Ne, h.magnitude_eq_zero_iff, and_iff_right h.isNaN]
  obtain ⟨n, hn, rfl⟩ := h
  rw [Int.cast_eq_zero, Int.cast_pos]
  generalize hu : a.unpacked = u at hn
  cases hn with
  | zero s => simp
  | finite s n hpos hlt =>
    rw [← Bool.not_eq_true, isNegative_iff, sign_of_unpacked hu]
    cases s with
    | negative => simp [Sign.apply]
    | positive => simp [Sign.apply, hpos.ne', Nat.pos_iff_ne_zero]

/-- Two patterns of one number are equal, unless they are zeros. -/
theorem Reads.eq (ha : a.Reads q) (hb : b.Reads q) (hq : q ≠ 0) : a = b := by
  have hunpacked : a.unpacked = b.unpacked := by
    obtain ⟨m, hm, rfl⟩ := ha
    obtain ⟨n, hn, hmn⟩ := hb
    obtain rfl : m = n := Int.cast_inj.mp hmn
    exact hm.eq hn (Int.cast_ne_zero.mp hq)
  have hbits := congrArg (pack .binary32) hunpacked
  rw [pack_unpacked ha.isNaN, pack_unpacked hb.isNaN, UInt32.toBitVec_inj] at hbits
  cases a
  cases b
  exact congrArg _ hbits

theorem reads_zero (h : a.magnitude = 0) : a.Reads 0 := by
  obtain ⟨s, hs⟩ := magnitude_eq_zero_iff.mp h
  exact ⟨0, hs ▸ .zero s, Int.cast_zero.symm⟩

theorem reads_one : (1 : Single).Reads 1 :=
  ⟨1, .finite .positive 1 (by decide) (by decide), Int.cast_one.symm⟩

theorem reads_neg_one : (-1 : Single).Reads (-1) :=
  ⟨-1, .finite .negative 1 (by decide) (by decide), by simp⟩

/-! ### Counts -/

theorem quotientExponent_one {n : Nat} (hpos : 0 < n) (hlt : n < 2 ^ 24) :
    BinaryFormat.single.quotientExponent n 1 = -(fillBits n : Int) := by
  have hlog := log2_le_of_lt hlt
  have hleast := BinaryFormat.single_leastExponent
  have hfraction : (BinaryFormat.single.fractionBits : Int) = 23 := rfl
  have hguess : (n.log2 : Int) - ((1 : Nat).log2 : Int) - 23 = -(fillBits n : Int) := by
    have hone : (1 : Nat).log2 = 0 := by decide
    rw [hone, fillBits]
    omega
  have hunit := wholePower_neg_natCast 2 (fillBits n)
  have hfill : wholePower 2 (- -(fillBits n : Int)) = 2 ^ fillBits n := by
    rw [Int.neg_neg, wholePower_natCast]
  have hfull : 1 * wholePower 2 23 * 1 ≤ n * 2 ^ fillBits n := (fill_bounds hpos hlt).1
  simp only [BinaryFormat.quotientExponent, hleast, hfraction, hguess, hunit, hfill]
  rw [if_pos hfull, fillBits]
  omega

/-- The pattern of a small count: its exponent field, and its mantissa, whose leading bit the field
has on top. -/
theorem nearest_one {n : Nat} (hpos : 0 < n) (hlt : n < 2 ^ 24) :
    BinaryFormat.single.nearest n 1 = (149 - fillBits n) * 2 ^ 23 + n * 2 ^ fillBits n := by
  have hfill : fillBits n ≤ 23 := Nat.sub_le ..
  obtain ⟨_, hmantissa⟩ := fill_bounds hpos hlt
  have hleast := BinaryFormat.single_leastExponent
  have hinfinity : BinaryFormat.single.infinity = 255 * 2 ^ 23 := by decide
  have hunit := wholePower_neg_natCast 2 (fillBits n)
  have hpower : wholePower 2 (- -(fillBits n : Int)) = 2 ^ fillBits n := by
    rw [Int.neg_neg, wholePower_natCast]
  have hround : BinaryFormat.roundQuotient (n * 2 ^ fillBits n) 1 = n * 2 ^ fillBits n := by
    simp [BinaryFormat.roundQuotient, Nat.mod_one]
  have hfield : (-(fillBits n : Int) - -149).toNat = 149 - fillBits n := by omega
  rw [BinaryFormat.nearest, if_neg hpos.ne']
  simp only [quotientExponent_one hpos hlt, hleast, hinfinity, hunit, hpower, hround, hfield]
  refine Nat.min_eq_left ?_
  show (149 - fillBits n) * 2 ^ 23 + n * 2 ^ fillBits n ≤ 255 * 2 ^ 23
  omega

/-- A small count is cast to a pattern of itself. -/
theorem reads_natCast {n : Nat} (h : n < 2 ^ 24) : ((n : Nat) : Single).Reads n := by
  obtain rfl | hpos := Nat.eq_zero_or_pos n
  · exact reads_zero rfl
  · have hfill : fillBits n ≤ 23 := Nat.sub_le ..
    obtain ⟨hge, hlt⟩ := fill_bounds hpos h
    have hnat : ((n : Nat) : Single).bits.toNat =
        (149 - fillBits n) * 2 ^ 23 + n * 2 ^ fillBits n := by
      have hsize : UInt32.size = 2 ^ 32 := rfl
      show (UInt32.ofNat (BinaryFormat.single.nearest n 1)).toNat = _
      rw [nearest_one hpos h, UInt32.toNat_ofNat_of_lt' (by omega)]
    have hsign : @unpackSign .binary32 ((n : Nat) : Single).bits.toBitVec = 0#1 := by
      rw [← BitVec.toNat_inj, toNat_unpackSign, hnat]
      show _ = 0
      omega
    have hexponent : @unpackExponent .binary32 ((n : Nat) : Single).bits.toBitVec =
        BitVec.ofNat 8 (150 - fillBits n) := by
      rw [← BitVec.toNat_inj, toNat_unpackExponent, hnat, BitVec.toNat_ofNat]
      show _ = (150 - fillBits n) % 2 ^ 8
      omega
    have hmantissa : @unpackMantissa .binary32 ((n : Nat) : Single).bits.toBitVec =
        BitVec.ofNat 23 (n * 2 ^ fillBits n) := by
      rw [← BitVec.toNat_inj, toNat_unpackMantissa, hnat, BitVec.toNat_ofNat]
      show _ = n * 2 ^ fillBits n % 2 ^ 23
      omega
    have hbits : ((n : Nat) : Single).bits.toBitVec = pack .binary32
        (.finite .positive (n * 2 ^ fillBits n) (-(fillBits n : Int)) (fill_pos hpos)) := by
      rw [pack_whole .positive hpos h, ← hexponent, ← hmantissa]
      have hfields := @packComponents_unpackSign_unpackExponent_unpackMantissa .binary32
        ((n : Nat) : Single).bits.toBitVec
      rw [hsign] at hfields
      exact hfields.symm
    have hwhole := IsWhole.finite .positive n hpos h
    refine ⟨n, ?_, (Int.cast_natCast n).symm⟩
    rw [unpacked, hbits, hwhole.unpack_pack]
    exact hwhole

/-! ### Factors -/

/-- A pattern stands for a number with its target exponent. -/
theorem targetExponent_unpacked {s : Sign} {m : Nat} {e : Int} {hm : 0 < m}
    (h : a.unpacked = .finite s m e hm) :
    Format.binary32.targetExponent (totalExponent m e) = e := by
  have hbits : (Format.binary32.mantissaBits : Int) = 24 := rfl
  have hleast : Format.binary32.minExponent = -149 := by decide
  have hbias : (Format.binary32.exponentBias : Int) = 127 := rfl
  have hfraction : (Format.binary32.mantissaBitsWithoutImplicit : Int) = 23 := rfl
  rw [Format.targetExponent, totalExponent, hbits, hleast]
  rw [unpacked, UnpackedFloat.unpack] at h
  split at h
  · split at h <;> contradiction
  · next hfull =>
    split at h
    · next hempty =>
      -- a subnormal number has at most 23 bits and the least exponent
      split at h
      · contradiction
      · injection h with _ hmantissa hexponent
        have hlt : m < 2 ^ 23 := hmantissa ▸ BitVec.isLt _
        have hlog := (Nat.log2_lt hm.ne').mpr hlt
        have hfield : (@unpackExponent .binary32 a.bits.toBitVec).toNat = 0 := by rw [hempty]; rfl
        rw [hfield] at hexponent
        omega
    · next hsome =>
      -- any other number has 24 bits
      injection h with _ hmantissa hexponent
      rw [toNat_one_append] at hmantissa
      have hlt : (@unpackMantissa .binary32 a.bits.toBitVec).toNat < 2 ^ 23 := BitVec.isLt _
      have hlog : m.log2 = 23 := by
        rw [Nat.log2_eq_iff hm.ne', ← hmantissa]
        show 2 ^ 23 ≤ 2 ^ 23 + _ ∧ 2 ^ 23 + _ < 2 ^ 24
        omega
      have hfield : (@unpackExponent .binary32 a.bits.toBitVec).toNat ≠ 0 :=
        fun hzero => hsome (BitVec.toNat_inj.mp hzero)
      omega

theorem mul_one (h : a.isNaN = false) : a * 1 = a := by
  refine lift_eq (fun _ _ => rfl) h rfl h ?_
  rw [← pack_unpacked h]
  congr 1
  have hone : (1 : Single).unpacked = .finite .positive (2 ^ 23) (-23) (by decide) := rfl
  rw [hone]
  cases hu : a.unpacked with
  | notANumber => rfl
  | infinity s => cases s <;> rfl
  | zero s => cases s <;> rfl
  | finite s m e hm =>
    have hsign : s * .positive = s := by cases s <;> rfl
    have hexact := roundWithAccuracy_exact s hm (targetExponent_unpacked hu) 23
    simp only [UnpackedFloat.mul, hsign]
    exact hexact

end Single

end HingeLoss

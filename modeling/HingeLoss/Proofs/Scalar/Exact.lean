import Mathlib.Algebra.Order.Floor.Semifield
import HingeLoss.Proofs.Scalar.Difference
import HingeLoss.Proofs.Scalar.Whole

/-!
# HingeLoss.Proofs.Scalar.Exact

Double precision, where nothing is rounded.

1. counts below `2 ^ 53` and single precision numbers have the same value in double precision
   (`represents_natCast`, `represents_ofSingle`);
2. a product that is a number of the format is that number (`Represents.mul_eq`);
3. the count of a number is its whole part (`Represents.toCount_eq`).
-/

namespace HingeLoss

open Float.Model
open UnpackedFloat

namespace Double

variable {a b c : Double} {x y : ℚ}

/-- Whether a pattern stands for a finite number that is not negative, and which one. -/
structure Represents (a : Double) (x : ℚ) : Prop where
  lt : a.bits.toNat < 0x7ff0000000000000
  value_eq : BinaryFormat.double.value a.bits.toNat = x

theorem represents_ofNat {n : Nat} (h : n < BinaryFormat.double.infinity) :
    (⟨UInt64.ofNat n⟩ : Double).Represents (BinaryFormat.double.value n) := by
  have hinfinity : BinaryFormat.double.infinity = 0x7ff0000000000000 := by decide
  rw [hinfinity] at h
  have hbits : (UInt64.ofNat n).toNat = n := UInt64.toNat_ofNat_of_lt' (by
    have hsize : UInt64.size = 2 ^ 64 := rfl
    omega)
  exact ⟨by rwa [hbits], by rw [hbits]⟩

/-- A dyadic number with 53 bits is a number of double precision. -/
theorem represents_ofDyadic {d : Dyadic} (hm : d.mantissa < 2 ^ 53) (hleast : -1074 ≤ d.exponent)
    (hmost : d.exponent ≤ 900) :
    (⟨UInt64.ofNat (BinaryFormat.double.ofDyadic d)⟩ : Double).Represents d.value := by
  have hden : 0 < wholePower 2 (-d.exponent) := wholePower_pos two_pos _
  have hlt : d.value < 2 ^ (953 : Int) :=
    calc (d.mantissa : ℚ) * 2 ^ d.exponent < 2 ^ (53 : Int) * 2 ^ d.exponent := by
          gcongr
          exact_mod_cast hm
      _ = 2 ^ (53 + d.exponent) := (zpow_add₀ two_ne_zero _ _).symm
      _ ≤ 2 ^ (953 : Int) := zpow_le_zpow_right₀ one_le_two (by omega)
  rw [Dyadic.value_eq_div] at hlt ⊢
  have hfinite := BinaryFormat.nearest_lt_infinity (f := .double) hden hlt (by decide)
  rw [← BinaryFormat.value_nearest_of_eq hden (by decide) hfinite hm
    (BinaryFormat.double_leastExponent ▸ hleast) d.value_eq_div.symm]
  exact represents_ofNat hfinite

/-- Counts are exact as long as they have 53 bits. -/
theorem represents_natCast {n : Nat} (h : n < 2 ^ 53) : ((n : Nat) : Double).Represents n := by
  have hzero : (-1074 : Int) ≤ 0 ∧ (0 : Int) ≤ 900 := by decide
  have hrepresents := represents_ofDyadic (d := ⟨n, 0⟩) h hzero.1 hzero.2
  have hwhole : BinaryFormat.double.ofDyadic ⟨n, 0⟩ = BinaryFormat.double.nearest n 1 :=
    congrArg (BinaryFormat.double.nearest · 1) (Nat.mul_one n)
  rwa [hwhole, Dyadic.value, zpow_zero, mul_one] at hrepresents

/-- The magnitude of a normal number is widened by moving the fraction up and the exponent field to
the other bias. -/
theorem value_widen {m : Nat} (h : 0x00800000 ≤ m) :
    BinaryFormat.double.value (m * 2 ^ 29 + 0x3800000000000000) = BinaryFormat.single.value m := by
  obtain hlow | ⟨biased, r, hr, rfl⟩ := BinaryFormat.single.magnitude_cases m
  · exact absurd hlow (Nat.not_lt.mpr h)
  · have hr : r < 2 ^ 23 := hr
    have hwide : ((biased + 1) * 2 ^ BinaryFormat.single.fractionBits + r) * 2 ^ 29 +
        0x3800000000000000 =
        (biased + 896 + 1) * 2 ^ BinaryFormat.double.fractionBits + r * 2 ^ 29 := by
      show ((biased + 1) * 2 ^ 23 + r) * 2 ^ 29 + 0x3800000000000000 =
        (biased + 896 + 1) * 2 ^ 52 + r * 2 ^ 29
      ring
    have hfraction : r * 2 ^ 29 < 2 ^ BinaryFormat.double.fractionBits := by
      show r * 2 ^ 29 < 2 ^ 52
      omega
    rw [hwide, BinaryFormat.value, BinaryFormat.value, BinaryFormat.decode_field hfraction,
      BinaryFormat.decode_field hr, Dyadic.value, Dyadic.value, BinaryFormat.single_leastExponent,
      BinaryFormat.double_leastExponent]
    show ((2 ^ 52 + r * 2 ^ 29 : ℕ) : ℚ) * 2 ^ (-1074 + ((biased + 896 : ℕ) : Int)) =
      ((2 ^ 23 + r : ℕ) : ℚ) * 2 ^ (-149 + (biased : Int))
    rw [show -149 + (biased : Int) = 29 + (-1074 + ((biased + 896 : ℕ) : Int)) by omega,
      zpow_add₀ two_ne_zero 29]
    push_cast
    ring

/-- Widening keeps the value. -/
theorem represents_ofSingle {v : Single} (hfinite : v.isFinite = true)
    (hsign : v.isNegative = false) : (ofSingle v).Represents v.value := by
  have hlarge : v.magnitude < 0x7f800000 := by rwa [Single.isFinite, decide_eq_true_eq] at hfinite
  have hmagnitude : v.magnitude.toNat < 0x7f800000 := UInt32.lt_iff_toNat_lt.mp hlarge
  have hzero (x : UInt64) : 0 ||| x = x := UInt64.zero_or
  simp only [ofSingle, Single.value, hsign, Bool.false_eq_true, if_false, hzero]
  by_cases hsmall : v.magnitude < 0x00800000
  · -- the subnormal numbers are rounded, and have few bits
    have hcanonical := BinaryFormat.single.isCanonical_decode v.magnitude.toNat
    have hexponent : (BinaryFormat.single.decode v.magnitude.toNat).exponent = -149 := by
      rw [BinaryFormat.decode_of_lt (UInt32.lt_iff_toNat_lt.mp hsmall),
        BinaryFormat.single_leastExponent]
    rw [if_pos hsmall]
    exact represents_ofDyadic (hcanonical.mantissa_lt.trans (by decide)) (by omega) (by omega)
  · have hnormal : 0x00800000 ≤ v.magnitude.toNat :=
      UInt32.le_iff_toNat_le.mp (UInt32.not_lt.mp hsmall)
    have hwide := toNat_widen hmagnitude
    rw [if_neg hsmall, if_pos hlarge, ← value_widen hnormal, ← hwide]
    refine ⟨?_, rfl⟩
    rw [hwide]
    omega

/-! ## Products -/

theorem Represents.mantissa_pos (h : a.Represents x) (hx : 0 < x) :
    0 < (BinaryFormat.double.decode a.bits.toNat).mantissa := by
  refine Nat.pos_of_ne_zero fun hzero => hx.ne ?_
  rw [← h.value_eq, BinaryFormat.value, Dyadic.value, hzero, Nat.cast_zero, zero_mul]

theorem Represents.magnitude_lt (h : a.Represents x) : a.magnitude < 0x7ff0000000000000 := by
  have hlt := h.lt
  rw [UInt64.lt_iff_toNat_lt, toNat_magnitude]
  show _ < 0x7ff0000000000000
  omega

theorem Represents.unpackSign_eq (h : a.Represents x) :
    Sign.ofBitVec (@unpackSign .binary64 a.bits.toBitVec) = .positive := by
  have hlt := h.lt
  have hfield : (@unpackSign .binary64 a.bits.toBitVec).toNat = a.bits.toNat / 2 ^ 63 % 2 :=
    toNat_signField .binary64 _
  have hclear : @unpackSign .binary64 a.bits.toBitVec = 0#1 := by
    rw [← BitVec.toNat_inj, hfield]
    show _ = 0
    omega
  rw [hclear]
  rfl

/-- The unpacked form of a number that is not zero is its magnitude taken apart. -/
theorem Represents.exists_unpack_eq (h : a.Represents x) (hx : 0 < x) :
    ∃ hm, unpack .binary64 a.bits.toBitVec =
      .finite .positive (BinaryFormat.double.decode a.bits.toNat).mantissa
        (BinaryFormat.double.decode a.bits.toNat).exponent hm := by
  have hlt := h.lt
  have hleast := BinaryFormat.double_leastExponent
  have hexponent : (@unpackExponent .binary64 a.bits.toBitVec).toNat =
      a.bits.toNat / 2 ^ 52 % 2 ^ 11 := toNat_exponentField .binary64 _
  have hmantissa : (@unpackMantissa .binary64 a.bits.toBitVec).toNat = a.bits.toNat % 2 ^ 52 :=
    toNat_mantissaField .binary64 _
  have hpos := h.mantissa_pos hx
  refine ⟨hpos, ?_⟩
  rw [UnpackedFloat.unpack, if_neg (unpackExponent_ne h.magnitude_lt), h.unpackSign_eq]
  obtain hlow | ⟨biased, r, hr, hbits⟩ := BinaryFormat.double.magnitude_cases a.bits.toNat
  · have hdecode := BinaryFormat.decode_of_lt hlow
    have hlow : a.bits.toNat < 2 ^ 52 := hlow
    have hclear : @unpackExponent .binary64 a.bits.toBitVec = 0#_ := by
      rw [← BitVec.toNat_inj, hexponent]
      show _ = 0
      omega
    have hnonzero : @unpackMantissa .binary64 a.bits.toBitVec ≠ 0#_ := by
      simp only [hdecode] at hpos
      rw [Ne, ← BitVec.toNat_inj, hmantissa]
      show _ ≠ 0
      omega
    rw [if_pos hclear, dif_neg hnonzero, finite.injEq, hdecode, hleast, hmantissa, hexponent]
    refine ⟨rfl, Nat.mod_eq_of_lt hlow, ?_⟩
    rw [Nat.div_eq_of_lt hlow]
    rfl
  · have hdecode : BinaryFormat.double.decode a.bits.toNat = ⟨2 ^ 52 + r, -1074 + biased⟩ := by
      rw [hbits, BinaryFormat.decode_field hr, hleast]
      rfl
    have hr : r < 2 ^ 52 := hr
    have hbits : a.bits.toNat = (biased + 1) * 2 ^ 52 + r := hbits
    have hset : @unpackExponent .binary64 a.bits.toBitVec ≠ 0#_ := by
      rw [Ne, ← BitVec.toNat_inj, hexponent]
      show _ ≠ 0
      omega
    rw [if_neg hset, finite.injEq, hdecode, toNat_one_append, hmantissa, hexponent]
    refine ⟨rfl, ?_, ?_⟩
    · show 2 ^ 52 + a.bits.toNat % 2 ^ 52 = 2 ^ 52 + r
      omega
    · show ((a.bits.toNat / 2 ^ 52 % 2 ^ 11 : ℕ) : Int) - (1023 + 52) = -1074 + biased
      omega

/-- A dyadic number that a magnitude is taken apart into has its target exponent. -/
theorem targetExponent_of_isCanonical {d : Dyadic} (h : BinaryFormat.double.IsCanonical d)
    (hpos : 0 < d.mantissa) :
    Format.binary64.targetExponent (totalExponent d.mantissa d.exponent) = d.exponent := by
  obtain ⟨hlt, hle, hfilled⟩ := h
  have hleast := BinaryFormat.double_leastExponent
  have hbits : (Format.binary64.mantissaBits : Int) = 53 := rfl
  have hleast' : Format.binary64.minExponent = -1074 := by decide
  have hlog : d.mantissa.log2 < 53 := (Nat.log2_lt hpos.ne').mpr hlt
  rw [hleast] at hle hfilled
  rw [Format.targetExponent, totalExponent, hbits, hleast']
  obtain hsmall | hfull := hfilled
  · omega
  · have hlog' : 52 ≤ d.mantissa.log2 := (Nat.le_log2 hpos.ne').mpr hfull
    omega

theorem Represents.unpack_toFloat (h : a.Represents x) :
    a.toFloat.toModel.unpack = UnpackedFloat.unpack .binary64 a.bits.toBitVec :=
  congrArg (UnpackedFloat.unpack .binary64)
    (pack_unpack_of_ne (unpackExponent_ne h.magnitude_lt))

theorem Represents.isNaN_eq_false (h : a.Represents x) : a.isNaN = false := by
  rw [isNaN, decide_eq_false_iff_not, UInt64.not_lt]
  exact UInt64.le_of_lt h.magnitude_lt

/-- The mantissas of two factors multiply to the mantissa of the product and some zeros behind it.
If the exponent of the product were smaller than those of the factors together, both factors would
be subnormal, and the exponent of the product would be below the least one. -/
theorem exists_shift {d d' p : Dyadic} (hd : BinaryFormat.double.IsCanonical d)
    (hd' : BinaryFormat.double.IsCanonical d') (hp : BinaryFormat.double.IsCanonical p)
    (hpos : 0 < d.mantissa) (hpos' : 0 < d'.mantissa) (h : d.value * d'.value = p.value) :
    ∃ k : ℕ, d.mantissa * d'.mantissa = p.mantissa * 2 ^ k ∧
      d.exponent + d'.exponent = p.exponent - k := by
  have hleast := BinaryFormat.double_leastExponent
  have hvalue : ((d.mantissa * d'.mantissa : ℕ) : ℚ) * 2 ^ (d.exponent + d'.exponent) =
      p.mantissa * 2 ^ p.exponent := by
    rw [zpow_add₀ two_ne_zero, Nat.cast_mul, mul_mul_mul_comm]
    exact h
  have hexponent : d.exponent + d'.exponent ≤ p.exponent := by
    by_contra hlt
    have hdouble : ((2 * (d.mantissa * d'.mantissa) : ℕ) : ℚ) * 2 ^ p.exponent ≤
        p.mantissa * 2 ^ p.exponent :=
      calc ((2 * (d.mantissa * d'.mantissa) : ℕ) : ℚ) * 2 ^ p.exponent =
            ((d.mantissa * d'.mantissa : ℕ) : ℚ) * 2 ^ (p.exponent + 1) := by
            rw [zpow_add_one₀ two_ne_zero, Nat.cast_mul 2]
            push_cast
            ring
        _ ≤ ((d.mantissa * d'.mantissa : ℕ) : ℚ) * 2 ^ (d.exponent + d'.exponent) :=
            mul_le_mul_of_nonneg_left (zpow_le_zpow_right₀ one_le_two (by omega)) (by positivity)
        _ = p.mantissa * 2 ^ p.exponent := hvalue
    have hlarge : 2 * (d.mantissa * d'.mantissa) ≤ p.mantissa := by
      exact_mod_cast le_of_mul_le_mul_right hdouble (by positivity)
    have hlt' : p.mantissa < 2 ^ 53 := hp.mantissa_lt
    have hle := Nat.le_mul_of_pos_right d.mantissa hpos'
    have hle' := Nat.le_mul_of_pos_left d'.mantissa hpos
    have hsubnormal : d.exponent = -1074 := by
      obtain hsmall | hfull : _ ∨ 2 ^ 52 ≤ d.mantissa := hd.filled <;> omega
    have hsubnormal' : d'.exponent = -1074 := by
      obtain hsmall | hfull : _ ∨ 2 ^ 52 ≤ d'.mantissa := hd'.filled <;> omega
    have hle := hp.least_le
    omega
  obtain ⟨k, hk⟩ := Int.eq_ofNat_of_zero_le (Int.sub_nonneg.mpr hexponent)
  refine ⟨k, ?_, by omega⟩
  rw [show p.exponent = k + (d.exponent + d'.exponent) by omega, zpow_add₀ two_ne_zero (k : Int),
    ← mul_assoc, mul_left_inj' (by positivity), zpow_natCast] at hvalue
  exact_mod_cast hvalue

/-- **A product that is a number of the format is that number.** -/
theorem Represents.mul_eq (ha : a.Represents x) (hb : b.Represents y) (hc : c.Represents (x * y))
    (hx : 0 < x) (hy : 0 < y) : a * b = c := by
  obtain ⟨hpos, hunpack⟩ := ha.exists_unpack_eq hx
  obtain ⟨hpos', hunpack'⟩ := hb.exists_unpack_eq hy
  obtain ⟨hpos'', hunpack''⟩ := hc.exists_unpack_eq (mul_pos hx hy)
  have hcanonical := BinaryFormat.double.isCanonical_decode c.bits.toNat
  have hvalue : (BinaryFormat.double.decode a.bits.toNat).value *
      (BinaryFormat.double.decode b.bits.toNat).value =
      (BinaryFormat.double.decode c.bits.toNat).value := by
    rw [← BinaryFormat.value, ← BinaryFormat.value, ← BinaryFormat.value, ha.value_eq, hb.value_eq,
      hc.value_eq]
  obtain ⟨k, hmantissa, hexponent⟩ := exists_shift (BinaryFormat.double.isCanonical_decode _)
    (BinaryFormat.double.isCanonical_decode _) hcanonical hpos hpos' hvalue
  have hmul : UnpackedFloat.mul .binary64 (UnpackedFloat.unpack .binary64 a.bits.toBitVec)
      (UnpackedFloat.unpack .binary64 b.bits.toBitVec) =
      UnpackedFloat.unpack .binary64 c.bits.toBitVec := by
    rw [hunpack, hunpack', hunpack'']
    simp only [UnpackedFloat.mul, hmantissa, hexponent]
    exact roundWithAccuracy_exact _ hpos'' (targetExponent_of_isCanonical hcanonical hpos'') k
  have hpack : UnpackedFloat.pack .binary64 (UnpackedFloat.unpack .binary64 c.bits.toBitVec) =
      c.bits.toBitVec := pack_unpack_of_ne (unpackExponent_ne hc.magnitude_lt)
  have hresult : ofFloat (a.toFloat * b.toFloat) = c := by
    show ofFloat ⟨Float.Model.pack (UnpackedFloat.mul .binary64 a.toFloat.toModel.unpack
      b.toFloat.toModel.unpack)⟩ = c
    rw [ha.unpack_toFloat, hb.unpack_toFloat, hmul]
    show (if (⟨UInt64.ofBitVec (UnpackedFloat.pack .binary64
        (UnpackedFloat.unpack .binary64 c.bits.toBitVec))⟩ : Double).isNaN = true then nan
      else ⟨UInt64.ofBitVec (UnpackedFloat.pack .binary64
        (UnpackedFloat.unpack .binary64 c.bits.toBitVec))⟩) = c
    rw [hpack]
    show (if c.isNaN = true then nan else c) = c
    rw [hc.isNaN_eq_false]
    rfl
  show lift (· * ·) a b = c
  simp only [lift, ha.isNaN_eq_false, hb.isNaN_eq_false, Bool.false_eq_true, if_false, hresult]

/-! ## Whole parts -/

theorem Represents.toCount_eq (h : a.Represents x) (hx : x < 2 ^ 64) : a.toCount = ⌊x⌋₊ := by
  have hlt := h.lt
  have hsign : a.isNegative = false := by
    rw [isNegative, decide_eq_false_iff_not, UInt64.le_iff_toNat_le]
    show ¬0x8000000000000000 ≤ _
    omega
  have hmagnitude : a.magnitude.toNat = a.bits.toNat := by
    rw [toNat_magnitude]
    omega
  have hinfinite : a.isInfinite = false := by
    rw [isInfinite, beq_eq_false_iff_ne, Ne, ← UInt64.toNat_inj, hmagnitude]
    show _ ≠ 0x7ff0000000000000
    omega
  have hvalue := h.value_eq
  rw [BinaryFormat.value, Dyadic.value_eq_div] at hvalue
  have hfloor : ⌊x⌋₊ < 2 ^ 64 := by
    rw [Nat.floor_lt (hvalue ▸ by positivity)]
    exact_mod_cast hx
  simp only [toCount, h.isNaN_eq_false, hsign, hinfinite, Bool.or_self, Bool.false_eq_true,
    if_false, hmagnitude]
  rw [← hvalue, Nat.floor_div_eq_div] at hfloor ⊢
  exact min_eq_left (Nat.le_sub_one_of_lt hfloor)

end Double

end HingeLoss

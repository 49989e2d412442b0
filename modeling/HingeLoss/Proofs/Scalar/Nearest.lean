import Mathlib.Algebra.Order.Field.Power
import Mathlib.Algebra.Order.Field.Rat
import Mathlib.Tactic.FieldSimp
import Mathlib.Tactic.GCongr
import Mathlib.Tactic.Linarith
import Mathlib.Tactic.NormNum
import Mathlib.Tactic.Positivity
import Mathlib.Tactic.Ring
import HingeLoss.Scalar.Single

/-!
# HingeLoss.Proofs.Scalar.Nearest

Rounding to a binary format gives the nearest number of the format.

1. a quotient is rounded to the nearest whole number (`isNearest_roundQuotient`);
2. `quotientExponent` finds the last place of the quotient: at this exponent the quotient fills the
   fraction, or the exponent is the least one (`isLastPlace_quotientExponent`);
3. a number of the format is a multiple of the last place, or it lies below the binade of the
   quotient and the bottom of the binade is nearer, so rounding in the last place is rounding to the
   format (`isNearest_nearest`), and a number of the format is kept (`value_nearest_of_eq`);
4. the answers that decimals far outside the format get without computing them are the right ones
   (`ofDecimal_eq_nearest`), so a decimal that is not large is read as the nearest number of single
   precision (`Single.isNearest_ofDecimal`).
-/

namespace HingeLoss

/-- The number `y` is one of `S`, none of `S` is nearer to `x`, and `even` holds of `y` if another
one is as near. -/
structure IsNearest (S : Set ℚ) (x y : ℚ) (even : Prop) : Prop where
  mem : y ∈ S
  le : ∀ z ∈ S, |y - x| ≤ |z - x|
  even_of_tie : ∀ z ∈ S, z ≠ y → |z - x| = |y - x| → even

/-- A number that is one of `S` is the nearest one to itself. -/
theorem IsNearest.eq_of_mem {S : Set ℚ} {x y : ℚ} {even : Prop} (h : IsNearest S x y even)
    (hx : x ∈ S) : y = x := by
  have hle := h.le x hx
  rw [sub_self, abs_zero] at hle
  exact sub_eq_zero.mp (abs_eq_zero.mp (le_antisymm hle (abs_nonneg _)))

/-- What is nearest to `x` lies on the same side of a member of `S` as `x`. -/
theorem IsNearest.le_of_le {S : Set ℚ} {x y z : ℚ} {even : Prop} (h : IsNearest S x y even)
    (hz : z ∈ S) (hx : x ≤ z) : y ≤ z := by
  by_contra hlt
  have hle := h.le z hz
  rw [abs_of_nonneg (by linarith), abs_of_nonneg (by linarith)] at hle
  linarith

theorem IsNearest.le_of_ge {S : Set ℚ} {x y z : ℚ} {even : Prop} (h : IsNearest S x y even)
    (hz : z ∈ S) (hx : z ≤ x) : z ≤ y := by
  by_contra hlt
  have hle := h.le z hz
  rw [abs_of_nonpos (by linarith), abs_of_nonpos (by linarith)] at hle
  linarith

/-- What is nearest to a number that is not negative stays so when numbers with the other sign are
added. -/
theorem IsNearest.of_signed {S T : Set ℚ} {x y : ℚ} {even : Prop} (h : IsNearest S x y even)
    (hx : 0 ≤ x) (hzero : 0 ∈ S) (hS : ∀ z ∈ S, 0 ≤ z) (hy : y ∈ T)
    (hT : ∀ z ∈ T, z ∈ S ∨ -z ∈ S) : IsNearest T x y even := by
  have hle := h.le 0 hzero
  rw [zero_sub, abs_neg, abs_of_nonneg hx] at hle
  have hfar {z : ℚ} (hz : -z ∈ S) : |z - x| = x - z := by
    have hneg := hS _ hz
    rw [abs_of_nonpos (by linarith), neg_sub]
  refine ⟨hy, fun z hz => ?_, fun z hz hne htie => ?_⟩ <;> obtain hz | hz := hT z hz <;>
    have hnonneg := hS _ hz
  · exact h.le z hz
  · linarith [hfar hz]
  · exact h.even_of_tie z hz hne htie
  · obtain rfl : z = 0 := by linarith [hfar hz]
    exact h.even_of_tie 0 hzero hne htie

/-! ## Values -/

/-- The rational number that a dyadic number is. -/
def Dyadic.value (d : Dyadic) : ℚ := d.mantissa * 2 ^ d.exponent

theorem wholePower_natCast (b n : Nat) : wholePower b (n : Int) = b ^ n := rfl

/-- A power with a negative exponent is a quotient of powers with whole ones. -/
theorem wholePower_div (b : Nat) (e : Int) :
    (wholePower b e : ℚ) / wholePower b (-e) = (b : ℚ) ^ e := by
  obtain ⟨n, rfl | rfl⟩ := e.eq_nat_or_neg
  · rw [wholePower_natCast, wholePower_neg_natCast, Nat.cast_one, div_one, Nat.cast_pow,
      zpow_natCast]
  · rw [wholePower_neg_natCast, Int.neg_neg, wholePower_natCast, Nat.cast_one, Nat.cast_pow,
      one_div, zpow_neg, zpow_natCast]

theorem Dyadic.value_eq_div (d : Dyadic) :
    d.value =
      (d.mantissa * wholePower 2 d.exponent : Nat) / (wholePower 2 (-d.exponent) : Nat) := by
  rw [value, Nat.cast_mul, mul_div_assoc, wholePower_div, Nat.cast_ofNat]

namespace BinaryFormat

variable {f : BinaryFormat} {m num den digits : Nat} {e k : Int} {x : ℚ}

/-- The rational number that a finite magnitude stands for. -/
def value (f : BinaryFormat) (magnitude : Nat) : ℚ := (f.decode magnitude).value

/-- The numbers of a format that are not negative, as if its exponents had no end. -/
def values (f : BinaryFormat) : Set ℚ := Set.range f.value

/-- The dyadic numbers that magnitudes are taken apart into: either the leading bit of the mantissa
is set, or the exponent is the least one. -/
structure IsCanonical (f : BinaryFormat) (d : Dyadic) : Prop where
  mantissa_lt : d.mantissa < 2 ^ (f.fractionBits + 1)
  least_le : f.leastExponent ≤ d.exponent
  filled : d.exponent = f.leastExponent ∨ 2 ^ f.fractionBits ≤ d.mantissa

/-- A magnitude without an exponent field. -/
theorem decode_of_lt (h : m < 2 ^ f.fractionBits) : f.decode m = ⟨m, f.leastExponent⟩ := by
  have hfield : m / wholePower 2 f.fractionBits = 0 := Nat.div_eq_of_lt h
  simp only [decode, hfield, if_true]
  rw [wholePower_natCast, Nat.mod_eq_of_lt h]

/-- A magnitude with a fraction and an exponent field. -/
theorem decode_field {biased : Nat} (h : m < 2 ^ f.fractionBits) :
    f.decode ((biased + 1) * 2 ^ f.fractionBits + m) =
      ⟨2 ^ f.fractionBits + m, f.leastExponent + biased⟩ := by
  have hfield : ((biased + 1) * 2 ^ f.fractionBits + m) / wholePower 2 f.fractionBits =
      biased + 1 := by
    rw [wholePower_natCast, Nat.add_comm, Nat.add_mul_div_right _ _ (Nat.two_pow_pos _),
      Nat.div_eq_of_lt h, Nat.zero_add]
  have hfraction : ((biased + 1) * 2 ^ f.fractionBits + m) % wholePower 2 f.fractionBits = m := by
    rw [wholePower_natCast, Nat.add_comm, Nat.add_mul_mod_self_right, Nat.mod_eq_of_lt h]
  simp only [decode, hfield, hfraction, Nat.add_one_ne_zero, if_false, Nat.add_sub_cancel]
  rw [wholePower_natCast]

/-- A magnitude has no exponent field, or one that is its number of binades and one. -/
theorem magnitude_cases (f : BinaryFormat) (magnitude : Nat) :
    magnitude < 2 ^ f.fractionBits ∨
    ∃ biased r, r < 2 ^ f.fractionBits ∧ magnitude = (biased + 1) * 2 ^ f.fractionBits + r := by
  obtain h | h := Nat.lt_or_ge magnitude (2 ^ f.fractionBits)
  · exact .inl h
  · have hpos : 0 < 2 ^ f.fractionBits := Nat.two_pow_pos _
    obtain ⟨biased, hbiased⟩ := Nat.exists_eq_add_of_lt (Nat.div_pos h hpos)
    refine .inr ⟨biased, magnitude % 2 ^ f.fractionBits, Nat.mod_lt _ hpos, ?_⟩
    rw [Nat.zero_add] at hbiased
    rw [← hbiased, Nat.div_add_mod']

theorem isCanonical_decode (f : BinaryFormat) (magnitude : Nat) :
    f.IsCanonical (f.decode magnitude) := by
  obtain h | ⟨biased, r, h, rfl⟩ := f.magnitude_cases magnitude
  · rw [decode_of_lt h]
    exact ⟨Nat.lt_trans h (Nat.pow_lt_pow_succ Nat.one_lt_two), le_refl _, .inl rfl⟩
  · rw [decode_field h]
    refine ⟨?_, by simp, .inr (Nat.le_add_right ..)⟩
    rw [Nat.pow_succ, Nat.mul_two]
    exact Nat.add_lt_add_left h _

/-- The magnitude that is `steps` binades above the least one, with a mantissa that may carry into
the next binade. -/
theorem value_steps {steps : Nat} (hm : m ≤ 2 ^ (f.fractionBits + 1))
    (hfilled : steps = 0 ∨ 2 ^ f.fractionBits ≤ m) :
    f.value (steps * 2 ^ f.fractionBits + m) = m * 2 ^ (f.leastExponent + steps) := by
  rw [Nat.pow_succ] at hm
  by_cases hlow : m < 2 ^ f.fractionBits
  · obtain rfl : steps = 0 := hfilled.resolve_right (by omega)
    rw [Nat.zero_mul, Nat.zero_add, value, decode_of_lt hlow, Dyadic.value, Int.natCast_zero,
      Int.add_zero]
  obtain ⟨r, rfl⟩ := Nat.exists_eq_add_of_le (Nat.not_lt.mp hlow)
  rw [← Nat.add_assoc, ← Nat.succ_mul, value]
  by_cases hcarry : r < 2 ^ f.fractionBits
  · rw [decode_field hcarry, Dyadic.value]
  · -- the mantissa is the power of two above the fraction, and the next binade begins with it
    obtain rfl : r = 2 ^ f.fractionBits := by omega
    rw [← Nat.succ_mul, ← Nat.add_zero (_ * _), decode_field (Nat.two_pow_pos _), Dyadic.value]
    have hexponent : f.leastExponent + ((steps + 1 : Nat) : Int) =
        f.leastExponent + steps + 1 := by omega
    simp only [hexponent, zpow_add_one₀ (two_ne_zero' ℚ)]
    push_cast
    ring

/-- Every number with a short mantissa and an exponent that is not too small is in the format. -/
theorem mem_values (hm : m < 2 ^ (f.fractionBits + 1)) (he : f.leastExponent ≤ e) :
    (m : ℚ) * 2 ^ e ∈ f.values := by
  obtain ⟨steps, hsteps⟩ := Int.eq_ofNat_of_zero_le (Int.sub_nonneg.mpr he)
  obtain rfl : e = f.leastExponent + steps := by omega
  clear he hsteps
  induction steps generalizing m with
  | zero => exact ⟨_, value_steps hm.le (.inl rfl)⟩
  | succ steps ih =>
    by_cases hfilled : 2 ^ f.fractionBits ≤ m
    · exact ⟨_, value_steps hm.le (.inr hfilled)⟩
    · -- there is room for one more zero behind the mantissa
      have hshift := ih (m := 2 * m) (by rw [Nat.pow_succ]; omega)
      have hvalue : ((2 * m : ℕ) : ℚ) * 2 ^ (f.leastExponent + (steps : Int)) =
          m * 2 ^ (f.leastExponent + ((steps + 1 : ℕ) : Int)) := by
        rw [Nat.cast_add_one, ← add_assoc, zpow_add_one₀ two_ne_zero]
        push_cast
        ring
      rwa [hvalue] at hshift

/-! ## Rounding to whole numbers -/

/-- A quotient is its whole part and a proper fraction. -/
theorem div_eq_add_fraction (num : Nat) (hden : 0 < den) :
    (num : ℚ) / den = (num / den : Nat) + (num % den : Nat) / (den : ℚ) := by
  have hden' : (den : ℚ) ≠ 0 := by positivity
  rw [div_eq_iff hden', add_mul, div_mul_cancel₀ _ hden']
  exact_mod_cast (Nat.div_add_mod' num den).symm

/-- The proper fraction beside one half, as the rounding compares them. -/
theorem fraction_half (num : Nat) (hden : 0 < den) :
    (((num % den : Nat) : ℚ) / den < 1 / 2 ↔ 2 * (num % den) < den) ∧
    (1 / 2 < ((num % den : Nat) : ℚ) / den ↔ den < 2 * (num % den)) := by
  have hden' : (0 : ℚ) < den := by exact_mod_cast hden
  constructor
  · rw [div_lt_div_iff₀ hden' two_pos]
    norm_cast
    omega
  · rw [div_lt_div_iff₀ two_pos hden']
    norm_cast
    omega

/-- Two whole numbers are next to `q + t`; every other is one away from it, or farther. -/
theorem next_or_far {q : ℕ} {t : ℚ} (hpart : 0 ≤ t) (hproper : t < 1) (z : ℕ) :
    z = q ∨ z = q + 1 ∨ 1 ≤ |(z : ℚ) - (q + t)| := by
  obtain hz | rfl | rfl | hz : z < q ∨ z = q ∨ z = q + 1 ∨ q + 2 ≤ z := by omega
  · have hz' : (z : ℚ) + 1 ≤ q := by exact_mod_cast hz
    exact .inr (.inr (le_trans (by linarith) (neg_le_abs _)))
  · exact .inl rfl
  · exact .inr (.inl rfl)
  · have hz' : (q : ℚ) + 2 ≤ z := by exact_mod_cast hz
    exact .inr (.inr (le_trans (by linarith) (le_abs_self _)))

/-- A quotient is rounded to the nearest whole number, the even one on a tie. -/
theorem isNearest_roundQuotient (num : Nat) (hden : 0 < den) :
    IsNearest (Set.range ((↑) : ℕ → ℚ)) (num / den) (roundQuotient num den : ℕ)
      (roundQuotient num den % 2 = 0) := by
  have hpart : 0 ≤ ((num % den : Nat) : ℚ) / den := by positivity
  have hproper : ((num % den : Nat) : ℚ) / den < 1 := by
    rw [div_lt_one (by exact_mod_cast hden)]
    exact_mod_cast Nat.mod_lt num hden
  obtain ⟨hbelow, habove⟩ := fraction_half num hden
  rw [div_eq_add_fraction num hden]
  generalize ((num % den : Nat) : ℚ) / den = t at hpart hproper hbelow habove ⊢
  generalize hq : num / den = q
  have hdown : |(q : ℚ) - (q + t)| = t := by
    rw [sub_add_cancel_left, abs_neg, abs_of_nonneg hpart]
  have hup : |((q + 1 : ℕ) : ℚ) - (q + t)| = 1 - t := by
    push_cast
    rw [add_sub_add_left_eq_sub, abs_of_pos (by linarith)]
  have hfar := next_or_far (q := q) hpart hproper
  unfold roundQuotient
  simp only [hq]
  split
  · next hlow =>
    rw [← hbelow] at hlow
    refine ⟨⟨q, rfl⟩, ?_, ?_⟩ <;> rintro _ ⟨z, rfl⟩ <;> rw [hdown]
    · obtain rfl | rfl | hz := hfar z <;> linarith
    · intro hne htie
      obtain rfl | rfl | hz := hfar z
      · exact absurd rfl hne
      · linarith
      · linarith
  · next hlow =>
    rw [← hbelow, not_lt] at hlow
    split
    · next hhigh =>
      rw [← habove] at hhigh
      refine ⟨⟨q + 1, rfl⟩, ?_, ?_⟩ <;> rintro _ ⟨z, rfl⟩ <;> rw [hup]
      · obtain rfl | rfl | hz := hfar z <;> linarith
      · intro hne htie
        obtain rfl | rfl | hz := hfar z
        · linarith
        · exact absurd rfl hne
        · linarith
    · next hhigh =>
      rw [← habove, not_lt] at hhigh
      have hhalf : |((q + q % 2 : ℕ) : ℚ) - (q + t)| = 1 / 2 := by
        obtain hq | hq := Nat.mod_two_eq_zero_or_one q <;> rw [hq]
        · rw [Nat.add_zero]
          linarith
        · linarith
      refine ⟨⟨_, rfl⟩, ?_, fun _ _ _ _ => by omega⟩
      rintro _ ⟨z, rfl⟩
      rw [hhalf]
      obtain rfl | rfl | hz := hfar z <;> linarith

/-! ## Rounding to the format -/

/-- The exponent `e` is that of the last place of `x`: at `e` a mantissa for `x` fills the fraction,
or `e` is the least exponent and the mantissa is smaller. -/
structure IsLastPlace (f : BinaryFormat) (x : ℚ) (e : Int) : Prop where
  least_le : f.leastExponent ≤ e
  lt : x < 2 ^ (f.fractionBits + 1) * 2 ^ e
  le : e = f.leastExponent ∨ 2 ^ f.fractionBits * 2 ^ e ≤ x

/-- A number below a power of two has its last place below that power. -/
theorem IsLastPlace.sub_leastExponent_le {f : BinaryFormat} {x : ℚ} {e k : Int}
    (h : f.IsLastPlace x e) (hx : x < 2 ^ k) :
    (e - f.leastExponent).toNat ≤ (k - f.fractionBits - f.leastExponent).toNat := by
  obtain hleast | hbottom := h.le
  · omega
  · rw [← zpow_natCast, ← zpow_add₀ two_ne_zero] at hbottom
    have hlt := (zpow_lt_zpow_iff_right₀ (one_lt_two (α := ℚ))).mp (hbottom.trans_lt hx)
    omega

theorem div_mul_wholePower (num den : Nat) (e : Int) :
    ((num * wholePower 2 (-e) : ℕ) : ℚ) / (den * wholePower 2 e : ℕ) = num / den / 2 ^ e := by
  have hpower := wholePower_div 2 (-e)
  rw [Int.neg_neg, zpow_neg, Nat.cast_ofNat] at hpower
  rw [Nat.cast_mul, Nat.cast_mul, mul_div_mul_comm, hpower, div_eq_mul_inv (_ / _)]

/-- A quotient lies between the powers of two that the logarithms give. -/
theorem log2_bounds (hnum : 0 < num) (hden : 0 < den) :
    (2 : ℚ) ^ ((num.log2 : Int) - den.log2 - 1) < num / den ∧
    (num : ℚ) / den < 2 ^ ((num.log2 : Int) - den.log2 + 1) := by
  have htwo : (2 : ℚ) ≠ 0 := two_ne_zero
  have hden' : (0 : ℚ) < den := by exact_mod_cast hden
  have hnumLow : (2 : ℚ) ^ num.log2 ≤ num := by exact_mod_cast Nat.log2_self_le hnum.ne'
  have hnumHigh : (num : ℚ) < 2 ^ (num.log2 + 1) := by exact_mod_cast Nat.lt_log2_self
  have hdenLow : (2 : ℚ) ^ den.log2 ≤ den := by exact_mod_cast Nat.log2_self_le hden.ne'
  have hdenHigh : (den : ℚ) < 2 ^ (den.log2 + 1) := by exact_mod_cast Nat.lt_log2_self
  constructor
  · calc (2 : ℚ) ^ ((num.log2 : Int) - den.log2 - 1) = 2 ^ num.log2 / 2 ^ (den.log2 + 1) := by
          rw [sub_sub, zpow_sub₀ htwo, zpow_natCast, ← Nat.cast_add_one, zpow_natCast]
      _ ≤ num / 2 ^ (den.log2 + 1) := by gcongr
      _ < num / den := by gcongr
  · calc (num : ℚ) / den < 2 ^ (num.log2 + 1) / den := by gcongr
      _ ≤ 2 ^ (num.log2 + 1) / 2 ^ den.log2 := by gcongr
      _ = 2 ^ ((num.log2 : Int) - den.log2 + 1) := by
          rw [← add_sub_right_comm, zpow_sub₀ htwo, zpow_natCast, ← Nat.cast_add_one, zpow_natCast]

/-- Whether a quotient fills the fraction at an exponent is found without dividing. -/
theorem fills_iff (hden : 0 < den) :
    den * wholePower 2 f.fractionBits * wholePower 2 e ≤ num * wholePower 2 (-e) ↔
      2 ^ f.fractionBits * 2 ^ e ≤ (num : ℚ) / den := by
  have hden' : (0 : ℚ) < den := by exact_mod_cast hden
  have hpos : (0 : ℚ) < wholePower 2 (-e) := by exact_mod_cast wholePower_pos two_pos _
  have hpower := wholePower_div 2 e
  rw [Nat.cast_ofNat] at hpower
  rw [← hpower, ← mul_div_assoc, div_le_div_iff₀ hpos hden', wholePower_natCast]
  norm_cast
  rw [Nat.mul_comm den, Nat.mul_right_comm]

theorem isLastPlace_quotientExponent (hnum : 0 < num) (hden : 0 < den) :
    f.IsLastPlace (num / den) (f.quotientExponent num den) := by
  have htwo : (2 : ℚ) ≠ 0 := two_ne_zero
  obtain ⟨hlow, hhigh⟩ := log2_bounds hnum hden
  obtain ⟨guess, hguess⟩ : ∃ guess : Int, guess = (num.log2 : Int) - den.log2 - f.fractionBits :=
    ⟨_, rfl⟩
  rw [show (num.log2 : Int) - den.log2 = guess + f.fractionBits by omega] at hlow hhigh
  -- whether the guess or the exponent before it, the fraction is filled
  have hfills : ∀ e, e = (if 2 ^ f.fractionBits * 2 ^ guess ≤ (num : ℚ) / den then guess
      else guess - 1) → (num : ℚ) / den < 2 ^ (f.fractionBits + 1) * 2 ^ e ∧
        2 ^ f.fractionBits * 2 ^ e ≤ (num : ℚ) / den := by
    rintro e rfl
    split
    · next h =>
      refine ⟨lt_of_lt_of_eq hhigh ?_, h⟩
      rw [zpow_add_one₀ htwo, zpow_add₀ htwo, zpow_natCast, pow_succ]
      ring
    · next h =>
      refine ⟨lt_of_lt_of_eq (not_le.mp h) ?_, le_of_eq_of_le ?_ hlow.le⟩
      · rw [zpow_sub_one₀ htwo, pow_succ]
        ring
      · rw [add_sub_right_comm, zpow_add₀ htwo, zpow_natCast, mul_comm]
  simp only [quotientExponent, ← hguess, fills_iff hden]
  obtain ⟨hlt, hle⟩ := hfills _ rfl
  generalize (if 2 ^ f.fractionBits * 2 ^ guess ≤ (num : ℚ) / den then guess else guess - 1) = e
    at hlt hle
  obtain hleast | hleast := le_total f.leastExponent e
  · rw [max_eq_left hleast]
    exact ⟨hleast, hlt, .inr hle⟩
  · rw [max_eq_right hleast]
    refine ⟨le_refl _, lt_of_lt_of_le hlt ?_, .inl rfl⟩
    gcongr
    norm_num

/-- The number `x` is rounded to the mantissa `m`, with the last place `steps` above the least
one. -/
structure RoundsTo (f : BinaryFormat) (x : ℚ) (steps m : Nat) : Prop where
  isLastPlace : f.IsLastPlace x (f.leastExponent + steps)
  isNearest : IsNearest (Set.range ((↑) : ℕ → ℚ)) (x / 2 ^ (f.leastExponent + steps)) m (m % 2 = 0)

theorem RoundsTo.mantissa_le {steps : Nat} (h : f.RoundsTo x steps m) :
    m ≤ 2 ^ (f.fractionBits + 1) := by
  have hx : x / 2 ^ (f.leastExponent + steps) ≤ ((2 ^ (f.fractionBits + 1) : ℕ) : ℚ) := by
    rw [div_le_iff₀ (by positivity)]
    exact_mod_cast h.isLastPlace.lt.le
  exact_mod_cast h.isNearest.le_of_le ⟨_, rfl⟩ hx

theorem RoundsTo.filled {steps : Nat} (h : f.RoundsTo x steps m) :
    steps = 0 ∨ 2 ^ f.fractionBits ≤ m := by
  obtain hleast | hle := h.isLastPlace.le
  · exact .inl (by omega)
  · have hx : ((2 ^ f.fractionBits : ℕ) : ℚ) ≤ x / 2 ^ (f.leastExponent + steps) := by
      rw [le_div_iff₀ (by positivity)]
      exact_mod_cast hle
    exact .inr (by exact_mod_cast h.isNearest.le_of_ge ⟨_, rfl⟩ hx)

theorem RoundsTo.value_eq {steps : Nat} (h : f.RoundsTo x steps m) :
    f.value (steps * 2 ^ f.fractionBits + m) = m * 2 ^ (f.leastExponent + steps) :=
  value_steps h.mantissa_le h.filled

/-- Rounding finds the last place of a quotient, and the mantissa that is nearest there. -/
theorem exists_roundsTo (hnum : 0 < num) (hden : 0 < den) :
    ∃ steps m, f.RoundsTo (num / den) steps m ∧
      f.nearest num den = min (steps * 2 ^ f.fractionBits + m) f.infinity := by
  have hplace := isLastPlace_quotientExponent (f := f) hnum hden
  obtain ⟨steps, hsteps⟩ := Int.eq_ofNat_of_zero_le (Int.sub_nonneg.mpr hplace.least_le)
  have hexponent : f.quotientExponent num den = f.leastExponent + steps := by omega
  have hpos : 0 < den * wholePower 2 (f.leastExponent + steps) :=
    Nat.mul_pos hden (wholePower_pos two_pos _)
  have hnearest := isNearest_roundQuotient (num * wholePower 2 (-(f.leastExponent + steps))) hpos
  rw [div_mul_wholePower] at hnearest
  rw [hexponent] at hplace
  refine ⟨steps, _, ⟨hplace, hnearest⟩, ?_⟩
  have hcount : (f.leastExponent + steps - f.leastExponent).toNat = steps := by omega
  simp only [nearest, hnum.ne', if_false, hexponent, hcount, wholePower_natCast]

/-- A number of the format is a multiple of the last place of `x`, or it is farther from `x` than
the bottom of the binade of `x`. -/
theorem IsLastPlace.cases (h : f.IsLastPlace x e) (magnitude : Nat) :
    (∃ n : ℕ, f.value magnitude = n * 2 ^ e) ∨
    |((2 ^ f.fractionBits : ℕ) : ℚ) * 2 ^ e - x| < |f.value magnitude - x| := by
  obtain ⟨hmantissa, -, -⟩ := f.isCanonical_decode magnitude
  have hleast := (f.isCanonical_decode magnitude).least_le
  simp only [value, Dyadic.value]
  generalize f.decode magnitude = d at hmantissa hleast
  obtain hle | hlt := le_or_gt e d.exponent
  · obtain ⟨n, hn⟩ := Int.eq_ofNat_of_zero_le (Int.sub_nonneg.mpr hle)
    refine .inl ⟨d.mantissa * 2 ^ n, ?_⟩
    rw [show d.exponent = n + e by omega, zpow_add₀ two_ne_zero, zpow_natCast]
    push_cast
    ring
  · right
    have hbottom := h.le.resolve_left (by omega)
    have hbelow : (d.mantissa : ℚ) * 2 ^ d.exponent < 2 ^ f.fractionBits * 2 ^ e :=
      calc (d.mantissa : ℚ) * 2 ^ d.exponent < 2 ^ (f.fractionBits + 1) * 2 ^ d.exponent := by
            gcongr
            exact_mod_cast hmantissa
        _ = 2 ^ f.fractionBits * 2 ^ (d.exponent + 1) := by
            rw [pow_succ, zpow_add_one₀ two_ne_zero]
            ring
        _ ≤ 2 ^ f.fractionBits * 2 ^ e := by
            gcongr
            · norm_num
            · omega
    push_cast
    rw [abs_of_nonpos (by linarith), abs_of_neg (by linarith)]
    linarith

/-- **Rounding in the last place is rounding to the format.** -/
theorem RoundsTo.isNearest_value {steps : Nat} (h : f.RoundsTo x steps m)
    (hfraction : 0 < f.fractionBits) :
    IsNearest f.values x (f.value (steps * 2 ^ f.fractionBits + m))
      ((steps * 2 ^ f.fractionBits + m) % 2 = 0) := by
  obtain ⟨e, he⟩ : ∃ e, e = f.leastExponent + steps := ⟨_, rfl⟩
  have hnearest := h.isNearest
  have hplace := h.isLastPlace
  have hvalue := h.value_eq
  rw [← he] at hnearest hplace hvalue
  have hunit : (0 : ℚ) < 2 ^ e := by positivity
  have hscale (n : ℕ) : |(n : ℚ) * 2 ^ e - x| = |(n : ℚ) - x / 2 ^ e| * 2 ^ e := by
    rw [← abs_of_pos hunit, ← abs_mul, abs_of_pos hunit, sub_mul, div_mul_cancel₀ _ hunit.ne']
  have hle (n : ℕ) : |(m : ℚ) * 2 ^ e - x| ≤ |(n : ℚ) * 2 ^ e - x| := by
    rw [hscale, hscale]
    exact mul_le_mul_of_nonneg_right (hnearest.le _ ⟨n, rfl⟩) hunit.le
  refine ⟨⟨_, rfl⟩, ?_, ?_⟩ <;> rintro _ ⟨magnitude, rfl⟩ <;> rw [hvalue]
  · obtain ⟨n, hn⟩ | hfar := hplace.cases magnitude
    · rw [hn]
      exact hle n
    · exact (hle _).trans hfar.le
  · intro hne htie
    obtain ⟨n, hn⟩ | hfar := hplace.cases magnitude
    · rw [hn] at hne htie
      rw [hscale, hscale, mul_left_inj' hunit.ne'] at htie
      have heven := hnearest.even_of_tie _ ⟨n, rfl⟩ (fun hnm => hne (by rw [hnm])) htie
      have hbinade : 2 ∣ 2 ^ f.fractionBits := dvd_pow_self 2 hfraction.ne'
      have hsteps : 2 ∣ steps * 2 ^ f.fractionBits := Dvd.dvd.mul_left hbinade steps
      omega
    · exact absurd htie (lt_of_le_of_lt (hle _) hfar).ne'

theorem value_pos (h : 0 < m) : 0 < f.value m := by
  obtain hlow | ⟨biased, r, hr, rfl⟩ := f.magnitude_cases m
  · rw [value, decode_of_lt hlow, Dyadic.value]
    positivity
  · rw [value, decode_field hr, Dyadic.value]
    positivity

/-- The exponent of a magnitude is bounded by its exponent field. -/
theorem exponent_decode_le {steps : Nat} (h : m < (steps + 2) * 2 ^ f.fractionBits) :
    (f.decode m).exponent ≤ f.leastExponent + steps := by
  obtain hlow | ⟨biased, r, hr, rfl⟩ := f.magnitude_cases m
  · rw [decode_of_lt hlow]
    exact Int.le_add_of_nonneg_right (Int.natCast_nonneg steps)
  · have hlt : (biased + 1) * 2 ^ f.fractionBits < (steps + 2) * 2 ^ f.fractionBits :=
      lt_of_le_of_lt (Nat.le_add_right ..) h
    have hbiased := Nat.lt_of_mul_lt_mul_right hlt
    rw [decode_field hr]
    show f.leastExponent + biased ≤ f.leastExponent + steps
    omega

theorem value_zero : f.value 0 = 0 := by
  rw [value, decode_of_lt (Nat.two_pow_pos _), Dyadic.value, Nat.cast_zero, zero_mul]

theorem value_nonneg (f : BinaryFormat) (magnitude : Nat) : 0 ≤ f.value magnitude := by
  rw [value, Dyadic.value]
  positivity

/-- **The result of rounding is the nearest number of the format**, the even one on a tie, unless it
is infinite. -/
theorem isNearest_nearest (hden : 0 < den) (hfraction : 0 < f.fractionBits)
    (hfinite : f.nearest num den < f.infinity) :
    IsNearest f.values (num / den) (f.value (f.nearest num den)) (f.nearest num den % 2 = 0) := by
  obtain rfl | hnum := Nat.eq_zero_or_pos num
  · have hzero : f.nearest 0 den = 0 := if_pos rfl
    rw [hzero, value_zero, Nat.cast_zero, zero_div]
    exact ⟨⟨0, value_zero⟩, fun z _ => by simp, fun _ _ _ _ => rfl⟩
  · obtain ⟨steps, m, hrounds, heq⟩ := exists_roundsTo (f := f) hnum hden
    rw [heq] at hfinite ⊢
    rw [min_eq_left (min_lt_iff.mp hfinite |>.resolve_right (lt_irrefl _)).le]
    exact hrounds.isNearest_value hfraction

/-- A quotient that is a number of the format is kept as it is. -/
theorem value_nearest_of_eq (hden : 0 < den) (hfraction : 0 < f.fractionBits)
    (hfinite : f.nearest num den < f.infinity) (hm : m < 2 ^ (f.fractionBits + 1))
    (he : f.leastExponent ≤ e) (hx : (num : ℚ) / den = m * 2 ^ e) :
    f.value (f.nearest num den) = num / den :=
  (isNearest_nearest hden hfraction hfinite).eq_of_mem (hx ▸ mem_values hm he)

/-- What is far below the greatest number of the format is rounded to a finite number. -/
theorem nearest_lt_infinity (hden : 0 < den) (hx : (num : ℚ) / den < 2 ^ k)
    (hk : (k - f.fractionBits - f.leastExponent).toNat + 2 < 2 ^ f.exponentBits - 1) :
    f.nearest num den < f.infinity := by
  have hbinade : 0 < 2 ^ f.fractionBits := Nat.two_pow_pos _
  have hinfinity : f.infinity = (2 ^ f.exponentBits - 1) * 2 ^ f.fractionBits := rfl
  obtain rfl | hnum := Nat.eq_zero_or_pos num
  · have hzero : f.nearest 0 den = 0 := if_pos rfl
    rw [hzero, hinfinity]
    exact Nat.mul_pos (by omega) hbinade
  · obtain ⟨steps, m, hrounds, heq⟩ := exists_roundsTo (f := f) hnum hden
    rw [heq]
    refine lt_of_le_of_lt (min_le_left _ _) ?_
    have hsteps : steps ≤ (k - f.fractionBits - f.leastExponent).toNat := by
      have hlast := hrounds.isLastPlace.sub_leastExponent_le hx
      omega
    calc steps * 2 ^ f.fractionBits + m ≤ steps * 2 ^ f.fractionBits + 2 ^ (f.fractionBits + 1) :=
          Nat.add_le_add_left hrounds.mantissa_le _
      _ = (steps + 2) * 2 ^ f.fractionBits := by ring
      _ < (2 ^ f.exponentBits - 1) * 2 ^ f.fractionBits :=
          Nat.mul_lt_mul_of_pos_right (by omega) hbinade

/-! ## Decimals -/

/-- What is past the greatest number of the format is rounded to infinity. -/
theorem nearest_eq_infinity (hden : 0 < den) (hx : 2 ^ k ≤ (num : ℚ) / den)
    (hk : 2 ^ f.exponentBits - 1 ≤ (k - f.fractionBits - f.leastExponent).toNat) :
    f.nearest num den = f.infinity := by
  have hinfinity : f.infinity = (2 ^ f.exponentBits - 1) * 2 ^ f.fractionBits := rfl
  have hnum : 0 < num := by
    refine Nat.pos_of_ne_zero fun hzero => ?_
    rw [hzero, Nat.cast_zero, zero_div] at hx
    exact absurd hx (not_le.mpr (by positivity))
  obtain ⟨steps, m, hrounds, heq⟩ := exists_roundsTo (f := f) hnum hden
  have hlt := hx.trans_lt hrounds.isLastPlace.lt
  rw [← zpow_natCast, ← zpow_add₀ two_ne_zero] at hlt
  have hsteps := (zpow_lt_zpow_iff_right₀ (one_lt_two (α := ℚ))).mp hlt
  rw [heq, min_eq_right]
  calc f.infinity ≤ steps * 2 ^ f.fractionBits :=
        hinfinity ▸ Nat.mul_le_mul_right _ (by omega)
    _ ≤ steps * 2 ^ f.fractionBits + m := Nat.le_add_right ..

/-- What is less than half of the least number above zero is rounded to zero. -/
theorem nearest_eq_zero (hden : 0 < den) (hx : (num : ℚ) / den < 2 ^ (f.leastExponent - 1)) :
    f.nearest num den = 0 := by
  obtain rfl | hnum := Nat.eq_zero_or_pos num
  · exact if_pos rfl
  obtain ⟨steps, m, hrounds, heq⟩ := exists_roundsTo (f := f) hnum hden
  obtain rfl : steps = 0 := by
    have hlast := hrounds.isLastPlace.sub_leastExponent_le hx
    omega
  have hnearest := hrounds.isNearest
  have hhalf : (num : ℚ) / den / 2 ^ (f.leastExponent + ((0 : ℕ) : Int)) < 1 / 2 := by
    rw [Int.natCast_zero, Int.add_zero, div_lt_iff₀ (by positivity)]
    rwa [zpow_sub_one₀ two_ne_zero, mul_comm, inv_eq_one_div] at hx
  have hpos : (0 : ℚ) ≤ num / den / 2 ^ (f.leastExponent + ((0 : ℕ) : Int)) := by positivity
  have hm : m = 0 := by
    by_contra hne
    have hone : (1 : ℚ) ≤ m := by exact_mod_cast Nat.pos_of_ne_zero hne
    have hle := hnearest.le 0 ⟨0, Nat.cast_zero⟩
    rw [zero_sub, abs_neg, abs_of_nonneg hpos, abs_of_nonneg (by linarith)] at hle
    linarith
  rw [heq, hm, Nat.zero_mul, Nat.add_zero, Nat.zero_min]

/-- A decimal lies between the powers of ten that its number of digits gives. -/
theorem decimal_bounds (hdigits : 0 < digits) (e : Int) :
    (10 : ℚ) ^ (e + (Nat.toDigits 10 digits).length - 1) ≤ digits * 10 ^ e ∧
    (digits : ℚ) * 10 ^ e < 10 ^ (e + (Nat.toDigits 10 digits).length) := by
  have hten : (10 : ℚ) ≠ 0 := by norm_num
  obtain ⟨places, hplaces⟩ : ∃ places, places + 1 = (Nat.toDigits 10 digits).length :=
    ⟨_, Nat.sub_add_cancel Nat.length_toDigits_pos⟩
  have hhigh : digits < 10 ^ (places + 1) := by
    rw [hplaces]
    exact (Nat.length_toDigits_le_iff (by decide) Nat.length_toDigits_pos).mp (le_refl _)
  have hlow : 10 ^ places ≤ digits := by
    obtain rfl | hpos := Nat.eq_zero_or_pos places
    · exact hdigits
    · have hlength := Nat.length_toDigits_le_iff (n := digits) (show 1 < 10 by decide) hpos
      omega
  rw [← hplaces]
  constructor
  · rw [show e + ((places + 1 : ℕ) : Int) - 1 = places + e by omega, zpow_add₀ hten, zpow_natCast]
    gcongr
    exact_mod_cast hlow
  · rw [add_comm e, zpow_add₀ hten, zpow_natCast]
    gcongr
    exact_mod_cast hhigh

theorem div_wholePower_ten (digits : Nat) (e : Int) :
    ((digits * wholePower 10 e : ℕ) : ℚ) / (wholePower 10 (-e) : ℕ) = digits * 10 ^ e := by
  rw [Nat.cast_mul, mul_div_assoc, wholePower_div, Nat.cast_ofNat]

/-- **Decimals far outside the format get the answer that computing it would give.** -/
theorem ofDecimal_eq_nearest (hbits : 2 ≤ f.exponentBits) (digits : Nat) (e : Int) :
    f.ofDecimal digits e = f.nearest (digits * wholePower 10 e) (wholePower 10 (-e)) := by
  have hden : 0 < wholePower 10 (-e) := wholePower_pos (by decide) _
  -- the exponent field halves into the exponents below one and those from one on
  obtain ⟨half, hhalf, hfield, hleast⟩ : ∃ half : ℕ, 2 ≤ half ∧ 2 ^ f.exponentBits = 2 * half ∧
      f.leastExponent = 2 - half - f.fractionBits := by
    obtain ⟨n, hn⟩ := Nat.exists_eq_add_of_le hbits
    refine ⟨2 ^ (n + 1), by rw [Nat.pow_succ]; have := Nat.two_pow_pos n; omega,
      by rw [hn, Nat.add_comm, Nat.pow_succ, Nat.mul_comm], ?_⟩
    rw [leastExponent, hn, show ((2 + n : ℕ) : Int) - 1 = ((n + 1 : ℕ) : Int) by omega,
      wholePower_natCast]
  unfold ofDecimal
  dsimp only
  split
  · next hzero =>
    rw [hzero, Nat.zero_mul, nearest, if_pos rfl]
  next hdigits =>
  obtain ⟨hlow, hhigh⟩ := decimal_bounds (Nat.pos_of_ne_zero hdigits) e
  rw [← div_wholePower_ten] at hlow hhigh
  generalize e + ((Nat.toDigits 10 digits).length : Int) = lead at hlow hhigh
  simp only [wholePower_natCast, hfield]
  split
  · next hlarge =>
    refine (nearest_eq_infinity (k := 2 * half) hden (le_trans ?_ hlow) ?_).symm
    · calc (2 : ℚ) ^ (2 * half : Int) ≤ 10 ^ (2 * half : Int) :=
            zpow_le_zpow_left₀ (by omega) (by norm_num) (by norm_num)
        _ ≤ 10 ^ (lead - 1) := zpow_le_zpow_right₀ (by norm_num) (by omega)
    · rw [hfield, hleast]
      omega
  split
  · next hsmall =>
    obtain ⟨n, hn⟩ := Int.eq_ofNat_of_zero_le (show 0 ≤ -lead by omega)
    refine (nearest_eq_zero hden (hhigh.trans_le ?_)).symm
    calc (10 : ℚ) ^ lead = (10 ^ n)⁻¹ := by
          rw [← zpow_natCast, ← zpow_neg, show lead = -(n : Int) by omega]
      _ ≤ (2 ^ n)⁻¹ := by
          gcongr
          norm_num
      _ = 2 ^ lead := by rw [← zpow_natCast, ← zpow_neg, show lead = -(n : Int) by omega]
      _ ≤ 2 ^ (f.leastExponent - 1) := zpow_le_zpow_right₀ one_le_two (by omega)
  · rfl

end BinaryFormat

/-! ## Single precision -/

namespace Single

/-- The rational number that a finite pattern stands for. -/
def value (a : Single) : ℚ :=
  if a.isNegative then -BinaryFormat.single.value a.magnitude.toNat
  else BinaryFormat.single.value a.magnitude.toNat

/-- The numbers that finite patterns stand for. -/
def finiteValues : Set ℚ := {x | ∃ a : Single, a.isFinite = true ∧ a.value = x}

/-- A pattern without a sign bit that is below that of infinity. -/
theorem finite_ofNat {n : Nat} (h : n < BinaryFormat.single.infinity) :
    (⟨UInt32.ofNat n⟩ : Single).isFinite = true ∧
    (⟨UInt32.ofNat n⟩ : Single).isNegative = false ∧
    (⟨UInt32.ofNat n⟩ : Single).magnitude.toNat = n ∧ (UInt32.ofNat n).toNat = n := by
  have hinfinity : BinaryFormat.single.infinity = 0x7f800000 := by decide
  rw [hinfinity] at h
  have hbits : (UInt32.ofNat n).toNat = n := UInt32.toNat_ofNat_of_lt' (by
    have hsize : UInt32.size = 2 ^ 32 := rfl
    omega)
  have hmagnitude : (⟨UInt32.ofNat n⟩ : Single).magnitude.toNat = n := by
    rw [magnitude, UInt32.toNat_and, hbits]
    show n &&& (2 ^ 31 - 1) = n
    rw [Nat.and_two_pow_sub_one_eq_mod]
    omega
  refine ⟨?_, ?_, hmagnitude, hbits⟩
  · rw [isFinite, decide_eq_true_eq, UInt32.lt_iff_toNat_lt, hmagnitude]
    exact h
  · rw [isNegative, decide_eq_false_iff_not, UInt32.le_iff_toNat_le, hbits]
    show ¬0x80000000 ≤ n
    omega

/-- **A decimal up to one is read as the nearest number**, the even pattern on a tie. -/
theorem isNearest_ofDecimal {digits : Nat} {e : Int} (hle : (digits : ℚ) * 10 ^ e ≤ 1) :
    (ofDecimal false digits e).isFinite = true ∧
    IsNearest finiteValues (digits * 10 ^ e) (ofDecimal false digits e).value
      ((ofDecimal false digits e).bits.toNat % 2 = 0) := by
  have hden : 0 < wholePower 10 (-e) := wholePower_pos (by decide) _
  rw [← BinaryFormat.div_wholePower_ten] at hle ⊢
  have hfinite := BinaryFormat.nearest_lt_infinity (f := .single) (k := 1) hden
    (lt_of_le_of_lt hle (by norm_num)) (by decide)
  have hnearest := BinaryFormat.isNearest_nearest hden (by decide) hfinite
  have hread : ofDecimal false digits e = ⟨UInt32.ofNat (BinaryFormat.single.nearest
      (digits * wholePower 10 e) (wholePower 10 (-e)))⟩ := by
    rw [← BinaryFormat.ofDecimal_eq_nearest (by decide)]
    rfl
  rw [hread]
  obtain ⟨hisFinite, hsign, hmagnitude, hbits⟩ := finite_ofNat hfinite
  generalize BinaryFormat.single.nearest (digits * wholePower 10 e) (wholePower 10 (-e)) = n at *
  have hvalue : (⟨UInt32.ofNat n⟩ : Single).value = BinaryFormat.single.value n := by
    rw [value, hsign, hmagnitude]
    rfl
  refine ⟨hisFinite, ?_⟩
  rw [hvalue, hbits]
  refine hnearest.of_signed (by positivity) ⟨0, BinaryFormat.value_zero⟩ ?_
    ⟨_, hisFinite, hvalue⟩ ?_
  · rintro _ ⟨m, rfl⟩
    exact BinaryFormat.single.value_nonneg m
  · rintro _ ⟨c, -, rfl⟩
    rw [value]
    split
    · exact .inr ⟨_, (neg_neg _).symm⟩
    · exact .inl ⟨_, rfl⟩

end Single

end HingeLoss

import HingeLoss.Proofs.Decimal.Written
import HingeLoss.Proofs.Options.Setting
import HingeLoss.Proofs.Scalar.Exact

/-!
# HingeLoss.Proofs.Options.Limit

How many passes a run may use.

1. For up to `2 ^ 29` passes, their product with the budget has at most 53 bits, so it is computed
   without rounding, and the limit is its whole part (`iterationLimit_eq_floor`).
2. The budget is the number of single precision that is nearest to the decimal that was written
   (`iterationLimit_of_written`).  The whole part jumps at whole numbers, so it is not always the
   one that the decimal itself would give: seven tenths are rounded down, and of ten passes they
   are six (`not_iterationLimit_eq_floor_written`).
-/

namespace HingeLoss

namespace DescentOptions

variable {o : DescentOptions} {pairs : List (String × String)} {text : String} {w : WrittenDecimal}

/-- A budget in its range is finite and not negative. -/
theorem InRange.budget_finite (h : o.InRange) :
    o.budget.magnitude.toNat ≤ 0x3f800000 ∧ o.budget.isFinite = true ∧
    o.budget.isNegative = false ∧ 0 < o.budget.value := by
  obtain ⟨hpos, -, -, hrank⟩ := h.budget
  obtain ⟨-, hmagnitude, hsign⟩ := Single.zero_lt_iff.mp hpos
  have hone : (1 : Single).rank = 0x3f800000 := by decide
  rw [Single.rank, hsign, if_neg Bool.false_ne_true, hone] at hrank
  have hle : o.budget.magnitude.toNat ≤ 0x3f800000 := by exact_mod_cast hrank
  refine ⟨hle, ?_, hsign, ?_⟩
  · rw [Single.isFinite, decide_eq_true_eq, UInt32.lt_iff_toNat_lt]
    exact Nat.lt_of_le_of_lt hle (by decide)
  · rw [Single.value, hsign]
    refine BinaryFormat.value_pos (Nat.pos_of_ne_zero fun hzero => hmagnitude ?_)
    exact UInt32.toNat_inj.mp hzero

/-- A budget in its range has a mantissa of 24 bits, and an exponent far from those of double
precision. -/
theorem InRange.exists_budget_value (h : o.InRange) : ∃ d : Dyadic, o.budget.value = d.value ∧
    d.mantissa < 2 ^ 24 ∧ -149 ≤ d.exponent ∧ d.exponent ≤ -23 := by
  obtain ⟨hle, -, hsign, -⟩ := h.budget_finite
  obtain ⟨hmantissa, hleast, -⟩ :=
    BinaryFormat.single.isCanonical_decode o.budget.magnitude.toNat
  have hfield : o.budget.magnitude.toNat < (126 + 2) * 2 ^ BinaryFormat.single.fractionBits :=
    Nat.lt_of_le_of_lt hle (by decide)
  have hexponent := BinaryFormat.exponent_decode_le hfield
  have hvalue : BinaryFormat.single.leastExponent = -149 := by decide
  rw [hvalue] at hleast hexponent
  refine ⟨_, ?_, hmantissa, hleast, hexponent⟩
  rw [Single.value, hsign]
  rfl

/-- **The limit is the whole part of the passes times the budget**, and nothing is rounded on the
way. -/
theorem iterationLimit_eq_floor (h : o.InRange) (hm : o.maxIterations ≤ 2 ^ 29) :
    o.iterationLimit = ⌊(o.maxIterations : ℚ) * o.budget.value⌋₊ := by
  obtain ⟨-, hfinite, hsign, hpos⟩ := h.budget_finite
  obtain ⟨d, hvalue, hmantissa, hleast, hexponent⟩ := h.exists_budget_value
  have hpasses : (0 : ℚ) < o.maxIterations := by exact_mod_cast h.maxIterations
  have hbits : o.maxIterations * d.mantissa < 2 ^ 53 :=
    calc o.maxIterations * d.mantissa ≤ 2 ^ 29 * d.mantissa := Nat.mul_le_mul_right _ hm
      _ < 2 ^ 29 * 2 ^ 24 := Nat.mul_lt_mul_of_pos_left hmantissa (Nat.two_pow_pos _)
      _ = 2 ^ 53 := by norm_num
  have hproduct : ((o.maxIterations * d.mantissa : ℕ) : ℚ) * 2 ^ d.exponent =
      o.maxIterations * o.budget.value := by
    rw [hvalue, Dyadic.value, Nat.cast_mul, mul_assoc]
  have hlt : (o.maxIterations : ℚ) * o.budget.value < 2 ^ 64 := by
    calc (o.maxIterations : ℚ) * o.budget.value =
          ((o.maxIterations * d.mantissa : ℕ) : ℚ) * 2 ^ d.exponent := hproduct.symm
      _ ≤ ((o.maxIterations * d.mantissa : ℕ) : ℚ) * 2 ^ (0 : Int) :=
        mul_le_mul_of_nonneg_left (zpow_le_zpow_right₀ one_le_two (by omega)) (by positivity)
      _ < 2 ^ 64 := by
        rw [zpow_zero, mul_one]
        exact_mod_cast hbits.trans (by norm_num)
  have hexact := Double.represents_ofDyadic (d := ⟨o.maxIterations * d.mantissa, d.exponent⟩) hbits
    (le_trans (by decide) hleast) (le_trans hexponent (by decide))
  rw [Dyadic.value, hproduct] at hexact
  rw [iterationLimit, (Double.represents_natCast (Nat.lt_of_le_of_lt hm (by norm_num))).mul_eq
    (Double.represents_ofSingle hfinite hsign) hexact hpasses hpos]
  exact hexact.toCount_eq hlt

/-- The budget that a written decimal comes to. -/
theorem number_of_lastText (h : ofPairs pairs = .ok o)
    (hlast : lastText? pairs .budget = some text) : Options.number text = .ok o.budget := by
  have hread := (ofPairs_eq_ok_iff.mp h).2.1.value_of_some hlast
  simp only [DescentKey.read] at hread
  cases hnumber : Options.number text with
  | error why =>
    rw [hnumber] at hread
    contradiction
  | ok x =>
    rw [hnumber] at hread
    exact congrArg _ (OptionValue.number.inj (Except.ok.inj hread))

/-- **The limit that a written budget gives**: the budget is the nearest number of single precision,
the even one on a tie, and the limit is the whole part of the passes times that number. -/
theorem iterationLimit_of_written (haccepted : ofPairs pairs = .ok o)
    (hlast : lastText? pairs .budget = some text) (hstands : w.StandsIn text) (hpos : 0 < w.value)
    (hone : w.value ≤ 1) (hm : o.maxIterations ≤ 2 ^ 29) :
    o.budget.isFinite = true ∧
    IsNearest Single.finiteValues w.value o.budget.value (o.budget.bits.toNat % 2 = 0) ∧
    o.iterationLimit = ⌊(o.maxIterations : ℚ) * o.budget.value⌋₊ := by
  have hrange := check_eq_ok_iff_inRange.mp (ofPairs_eq_ok_iff.mp haccepted).2.2
  obtain ⟨hsign, hvalue⟩ := w.value_eq_of_pos hpos
  have hbudget := number_of_lastText haccepted hlast
  rw [Options.number_eq_ok hstands, decide_eq_false hsign] at hbudget
  rw [hvalue] at hone ⊢
  rw [← Except.ok.inj hbudget]
  obtain ⟨hfinite, hnearest⟩ := Single.isNearest_ofDecimal hone
  exact ⟨hfinite, hnearest, Except.ok.inj hbudget ▸ iterationLimit_eq_floor hrange hm⟩

/-- The writing of seven tenths. -/
def sevenTenths : WrittenDecimal := ⟨.none, [0], some [7], none, by simp⟩

/-- Seven tenths of ten passes. -/
def tenPasses : DescentOptions := { maxIterations := 10, budget := 0.7 }

theorem sevenTenths_standsIn : sevenTenths.StandsIn "0.7" := ⟨[], [], by simp, by simp, by decide⟩

theorem value_sevenTenths : sevenTenths.value = 7 / 10 := by
  norm_num [sevenTenths, WrittenDecimal.value, WrittenDecimal.exponentValue, SignMark.factor,
    digitsNumber]

theorem ofPairs_tenPasses :
    ofPairs [("sgd.maxiterations", "10"), ("reasoner.budget", "0.7")] = .ok tenPasses := by
  decide +kernel

theorem iterationLimit_of_written_tenths :
    tenPasses.budget.isFinite = true ∧
    IsNearest Single.finiteValues sevenTenths.value tenPasses.budget.value
      (tenPasses.budget.bits.toNat % 2 = 0) ∧
    tenPasses.iterationLimit = ⌊(tenPasses.maxIterations : ℚ) * tenPasses.budget.value⌋₊ :=
  iterationLimit_of_written ofPairs_tenPasses (by decide) sevenTenths_standsIn
    (by rw [value_sevenTenths]; norm_num) (by rw [value_sevenTenths]; norm_num) (by decide)

/-- The limit is not always the whole part of the passes times the decimal: seven tenths of ten
passes come to six. -/
theorem not_iterationLimit_eq_floor_written :
    ¬∀ (pairs : List (String × String)) (o : DescentOptions) (text : String) (w : WrittenDecimal),
      ofPairs pairs = .ok o → lastText? pairs .budget = some text → w.StandsIn text →
      0 < w.value → w.value ≤ 1 → 1 ≤ o.maxIterations → o.maxIterations ≤ 2 ^ 29 →
      o.iterationLimit = ⌊(o.maxIterations : ℚ) * w.value⌋₊ := by
  intro h
  have hseven : (tenPasses.maxIterations : ℚ) * sevenTenths.value = (7 : ℕ) := by
    rw [value_sevenTenths]
    norm_num [tenPasses]
  have hsix : tenPasses.iterationLimit = 6 := by decide +kernel
  have hlimit := h [("sgd.maxiterations", "10"), ("reasoner.budget", "0.7")] tenPasses "0.7"
    sevenTenths ofPairs_tenPasses (by decide) sevenTenths_standsIn
    (by rw [value_sevenTenths]; norm_num) (by rw [value_sevenTenths]; norm_num) (by decide)
    (by decide)
  rw [hseven, hsix, Nat.floor_natCast] at hlimit
  exact absurd hlimit (by decide)

end DescentOptions

end HingeLoss

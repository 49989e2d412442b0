import Mathlib.Algebra.BigOperators.Ring.List
import Mathlib.Algebra.Order.Field.Rat
import Mathlib.Tactic.Linarith
import Mathlib.Tactic.Ring
import HingeLoss.Proofs.Descent.Repair

/-!
# HingeLoss.Proofs.Term.Convexity

Terms are convex, and their partials are subgradients, in exact arithmetic.

1. each of the four potentials lies above every line through a point of it with the slope there,
   which is zero at the kink of a hinge (`Potential.apply_add_slope_le`);
2. a linear form changes by what its entries change by, so the partials of a term together bound its
   cost from below, however often a variable occurs (`Term.cost_add_sum_partialAt_le`).

The objective of terms is the sum of the costs of the soft ones, each under the weight of its rule.
-/

namespace HingeLoss

theorem Scalar.max_rat (a b : Rat) : Scalar.max a b = a ⊔ b := by
  rw [Scalar.max, max_def]
  grind

theorem Scalar.abs_rat (a : Rat) : Scalar.abs a = |a| := by
  show (if a < 0 then -a else a) = |a|
  split
  · next h => exact (abs_of_neg h).symm
  · next h => exact (abs_of_nonneg (not_lt.mp h)).symm

namespace Potential

theorem apply_nonneg_of_isHinge {p : Potential} (h : p.isHinge = true) (a : Rat) :
    0 ≤ p.apply a := by
  cases p with
  | linear | squared => contradiction
  | hinge =>
    rw [apply, Scalar.max_rat]
    exact le_max_right a 0
  | squaredHinge => exact mul_self_nonneg _

/-- A line through a point of a potential, with the slope there, is nowhere above it. -/
theorem apply_add_slope_le (p : Potential) (a b : Rat) :
    p.apply a + p.slope a * (b - a) ≤ p.apply b := by
  by_cases hflat : p.isHinge = true ∧ a ≤ 0
  · -- On the flat side the line is zero throughout.
    obtain ⟨hhinge, ha⟩ := hflat
    have hzero : p.apply a = 0 := by
      cases p <;> simp_all [apply, isHinge, Scalar.max_rat]
    rw [hzero, slope, if_pos ⟨hhinge, ha⟩, zero_mul, add_zero]
    exact apply_nonneg_of_isHinge hhinge b
  · rw [slope, if_neg hflat]
    have hsquare := mul_self_nonneg (b - a)
    cases p with
    | linear => simp [apply, isSquared]
    | squared =>
      simp only [apply, isSquared, if_true]
      linarith
    | hinge =>
      have ha : 0 < a := by simpa [isHinge] using hflat
      simp [apply, isSquared, Scalar.max_rat, max_eq_left ha.le]
    | squaredHinge =>
      have ha : 0 < a := by simpa [isHinge] using hflat
      have hsquare := mul_self_nonneg ((b ⊔ 0) - a)
      have hline : a * b ≤ a * (b ⊔ 0) := mul_le_mul_of_nonneg_left (le_max_left b 0) ha.le
      simp only [apply, isSquared, if_true, Scalar.max_rat, max_eq_left ha.le]
      linarith

end Potential

namespace Term

variable {w : Rat}

theorem cost_eq_mul (t : Term Rat) (w : Rat) (x : Variable → Rat) :
    t.cost w x = w * t.unweighted x := by
  unfold cost
  simp only [isZero_rat]
  split
  · next hzero => rw [hzero, mul_zero]
  · rfl

theorem partialAt_eq_mul (t : Term Rat) (dot w coefficient : Rat) :
    t.partialAt dot w coefficient = w * t.potential.slope dot * coefficient := by
  unfold partialAt
  simp only [isZero_rat]
  split
  · next hzero => rw [hzero, mul_zero, zero_mul]
  · rfl

/-- The partials at an assignment give a lower bound of the cost at any other one. -/
theorem cost_add_sum_partialAt_le (t : Term Rat) (hw : 0 ≤ w) (x y : Variable → Rat) :
    t.cost w x + (t.entries.toList.map fun e =>
        t.partialAt (t.dot x) w e.coefficient * (y e.var - x e.var)).sum ≤ t.cost w y := by
  have hline := t.potential.apply_add_slope_le (t.dot x) (t.dot y)
  have hsum : (t.entries.toList.map fun e =>
      t.partialAt (t.dot x) w e.coefficient * (y e.var - x e.var)).sum =
        w * (t.potential.slope (t.dot x) * (t.dot y - t.dot x)) := by
    simp only [partialAt_eq_mul, mul_assoc, List.sum_map_mul_left, dot_sub_dot]
  calc t.cost w x + _
      = w * (t.potential.apply (t.dot x) +
          t.potential.slope (t.dot x) * (t.dot y - t.dot x)) := by
        rw [hsum, cost_eq_mul, unweighted, mul_add]
    _ ≤ w * t.potential.apply (t.dot y) := mul_le_mul_of_nonneg_left hline hw
    _ = t.cost w y := (t.cost_eq_mul w y).symm

end Term

/-! ## The objective of terms -/

section Objective

variable {α : Type} [Scalar α]

/-- The cost of a soft term under the weight of its rule.  A hard term costs nothing. -/
def Term.softCost (t : Term α) (x : Variable → α) : α :=
  match t.rule.weight with
  | .soft w => t.cost w x
  | .hard => 0

/-- The costs of the soft terms among terms, added up in order. -/
def softObjective (ts : List (Term α)) (x : Variable → α) : α :=
  ts.foldl (fun s t => s + t.softCost x) 0

end Objective

theorem softObjective_eq_sum (ts : List (Term Rat)) (x : Variable → Rat) :
    softObjective ts x = (ts.map (·.softCost x)).sum := by
  rw [softObjective, List.sum_eq_foldl, List.foldl_map]

end HingeLoss

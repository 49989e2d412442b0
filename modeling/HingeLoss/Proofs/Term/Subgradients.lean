import Mathlib.Algebra.BigOperators.Fin
import Mathlib.Analysis.Convex.Function
import Mathlib.GroupTheory.GroupAction.Ring
import Mathlib.LinearAlgebra.Pi
import Mathlib.Tactic.LinearCombination
import HingeLoss.Proofs.Term.Convexity

/-!
# HingeLoss.Proofs.Term.Subgradients

The partials of a term as a whole, in exact arithmetic.

1. Every position of a term has a partial (`Term.partialAt?_getElem`), and together they are a
   subgradient: the cost at any assignment is at least what the partials foretell.  Where a variable
   occurs more than once, each occurrence counts with its own partial.
2. A function that has such a line below it at every point is convex (`convexOn_of_supported`), so
   the cost of a term is.
-/

namespace HingeLoss

/-- A function is convex if through each of its points there is a linear function that is nowhere
above it. -/
theorem convexOn_of_supported {E : Type} [AddCommGroup E] [Module Rat E] {f : E → Rat}
    (h : ∀ x, ∃ g : E →ₗ[Rat] Rat, ∀ y, f x + g (y - x) ≤ f y) : ConvexOn Rat Set.univ f := by
  refine ⟨convex_univ, fun x _ y _ a b ha hb hab => ?_⟩
  obtain ⟨g, hg⟩ := h (a • x + b • y)
  generalize hz : a • x + b • y = z at hg ⊢
  -- the point is between the two others, so what is gained on one side is lost on the other
  have hbalance : a * g (x - z) + b * g (y - z) = 0 := by
    have hmiddle : a • (x - z) + b • (y - z) = 0 := by
      rw [smul_sub, smul_sub, sub_add_sub_comm, hz, ← add_smul, hab, one_smul, sub_self]
    simpa using congrArg g hmiddle
  have hx := mul_le_mul_of_nonneg_left (hg x) ha
  have hy := mul_le_mul_of_nonneg_left (hg y) hb
  calc f z = a * (f z + g (x - z)) + b * (f z + g (y - z)) := by
        linear_combination -f z * hab - hbalance
    _ ≤ a • f x + b • f y := add_le_add hx hy

namespace Term

variable {w : Rat}

/-- The partial at a position is that of the entry there. -/
theorem partialAt?_getElem {α : Type} [Scalar α] (t : Term α) {i : Nat} (h : i < t.entries.size)
    (dot w : α) : t.partialAt? i dot w = some (t.partialAt dot w t.entries[i].coefficient) := by
  unfold partialAt?
  split
  · next hflat =>
    unfold partialAt
    rw [if_pos hflat]
  · rw [Array.getElem?_eq_getElem h]
    rfl

/-- What the entries of a term come to together, position by position or in order. -/
theorem sum_entries (t : Term Rat) (f : Entry Rat → Rat) :
    ∑ i : Fin t.entries.size, f t.entries[i] = (t.entries.toList.map f).sum :=
  Fin.sum_univ_fun_getElem t.entries.toList f

/-- The partials of a term at an assignment, as a linear function of the way from there. -/
def slopeAt (t : Term Rat) (w : Rat) (x : Variable → Rat) : (Variable → Rat) →ₗ[Rat] Rat :=
  ∑ i : Fin t.entries.size,
    t.partialAt (t.dot x) w t.entries[i].coefficient • LinearMap.proj t.entries[i].var

theorem slopeAt_apply (t : Term Rat) (w : Rat) (x way : Variable → Rat) :
    t.slopeAt w x way = ∑ i : Fin t.entries.size,
      t.partialAt (t.dot x) w t.entries[i].coefficient * way t.entries[i].var := by
  simp [slopeAt]

/-- The cost of a term is nowhere below the line that its partials draw. -/
theorem cost_add_slopeAt_le (t : Term Rat) (hw : 0 ≤ w) (x y : Variable → Rat) :
    t.cost w x + t.slopeAt w x (y - x) ≤ t.cost w y := by
  have hline := t.cost_add_sum_partialAt_le hw x y
  rw [← t.sum_entries fun e => t.partialAt (t.dot x) w e.coefficient * (y e.var - x e.var)] at hline
  rwa [slopeAt_apply]

/-- **The partials of a term are a subgradient of its cost.**  Under any weight that is not
negative, that of its rule among them, every position has a partial at every assignment, and the
partials together bound the cost at any other assignment from below; so the term is convex, as it
says of itself. -/
theorem partials_subgradient (t : Term Rat) (hw : 0 ≤ w) :
    (∀ x : Variable → Rat, ∃ p : Fin t.entries.size → Rat,
      (∀ i : Fin t.entries.size, t.partialAt? i (t.dot x) w = some (p i)) ∧
        ∀ y : Variable → Rat,
          t.cost w x + ∑ i, p i * (y t.entries[i].var - x t.entries[i].var) ≤ t.cost w y) ∧
      t.isConvex = true ∧ ConvexOn Rat Set.univ (t.cost w) := by
  refine ⟨fun x => ?_, rfl, ?_⟩
  · refine ⟨fun i => t.partialAt (t.dot x) w t.entries[i].coefficient,
      fun i => t.partialAt?_getElem i.isLt (t.dot x) w, fun y => ?_⟩
    have hline := t.cost_add_slopeAt_le hw x y
    rwa [slopeAt_apply] at hline
  · exact convexOn_of_supported fun x => ⟨t.slopeAt w x, t.cost_add_slopeAt_le hw x⟩

/-- A squared hinge in which a variable occurs twice. -/
def doubled : Term Rat :=
  ⟨⟨0, ⟨0⟩, "prior", .soft 3, .squaredHinge⟩, .squaredHinge, 1,
    #[⟨2, ⟨0⟩⟩, ⟨-1, ⟨1⟩⟩, ⟨1, ⟨0⟩⟩]⟩

/-- From a cost of twelve, the two occurrences foretell a fall of eighteen over half of the way to
zero, and the cost falls to three quarters. -/
theorem partials_subgradient_doubled :
    let x := valuesAt (#[1, 0] : Array Rat)
    let y := valuesAt (#[1 / 2, 0] : Array Rat)
    (0 : Rat) ≤ 3 ∧ doubled.cost 3 x = 12 ∧ doubled.cost 3 y = 3 / 4 ∧
      (∃ p : Fin doubled.entries.size → Rat,
        (∀ i : Fin doubled.entries.size, doubled.partialAt? i (doubled.dot x) 3 = some (p i)) ∧
          doubled.cost 3 x + ∑ i, p i * (y doubled.entries[i].var - x doubled.entries[i].var) ≤
            doubled.cost 3 y) ∧
      ConvexOn Rat Set.univ (doubled.cost 3) := by
  intro x y
  have hweight : (0 : Rat) ≤ 3 := by decide
  obtain ⟨hpartials, -, hconvex⟩ := doubled.partials_subgradient hweight
  obtain ⟨p, hp, hline⟩ := hpartials x
  exact ⟨hweight, by decide +kernel, by decide +kernel, ⟨p, hp, hline y⟩, hconvex⟩

end Term

end HingeLoss

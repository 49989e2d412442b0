import Mathlib.Algebra.BigOperators.Ring.Finset
import Mathlib.Algebra.Order.BigOperators.Group.Finset
import Mathlib.Algebra.Order.Ring.Abs
import HingeLoss.Descent.Objective
import HingeLoss.Proofs.Descent.Sweeps
import HingeLoss.Proofs.Term.Convexity

/-!
# HingeLoss.Proofs.Descent.Optimality

What a small gradient says about the objective, in exact arithmetic.

A run may end when the greatest entry of the clipped gradient is small.  The gradient is a
subgradient of the objective, so going from one assignment to another one lowers the objective by at
most the gradient along the way.  Of that,

1. an entry that is left in the clipped gradient accounts for its size times the way of its
   variable;
2. an entry that is clipped points out of `[0, 1]` from a value within the margin of the bound, and
   so accounts for no more than the margin times its size.

A measuring pass adds up the gradient of the soft terms that it visits (`sweep_gradient`).
-/

namespace HingeLoss

open Finset (range)

/-! ## The gradient of the soft terms -/

section Soft

variable {α : Type} [Scalar α]

/-- Adds the subgradient of a soft term under the weight of its rule. -/
def Term.addSoftGradient (t : Term α) (free : Variable → Bool) (x : Variable → α)
    (gradient : Array α) : Array α :=
  match t.rule.weight with
  | .soft w => t.addGradient w free x gradient
  | .hard => gradient

/-- The subgradients of the soft terms among terms, added up in order. -/
def softGradient (free : Variable → Bool) (ts : List (Term α)) (values : Array α) : Array α :=
  ts.foldl (fun g t => t.addSoftGradient free (Term.valuesAt values) g)
    (Array.replicate values.size 0)

@[simp] theorem Term.size_addSoftGradient (t : Term α) (free : Variable → Bool)
    (x : Variable → α) (g : Array α) : (t.addSoftGradient free x g).size = g.size := by
  unfold addSoftGradient
  split
  · exact t.size_addGradient ..
  · rfl

theorem size_softGradient (free : Variable → Bool) (ts : List (Term α)) (values : Array α) :
    (softGradient free ts values).size = values.size := by
  unfold softGradient
  refine List.foldlRecOn (motive := fun (g : Array α) => g.size = values.size) ts _
    Array.size_replicate
    fun g hg t _ => ?_
  rw [t.size_addSoftGradient, hg]

end Soft

namespace PassContext

variable {c : PassContext} {t : Term Single} {s s' : PassState} {point : Array Single}
  {items : List (Except Fault (Term Single))}

theorem visit_gradient (hc : c.measured = some point) (h : c.visit t s = .ok s') :
    s'.gradient = t.addSoftGradient c.isFree (Term.valuesAt point) s.gradient := by
  unfold Term.addSoftGradient
  obtain ⟨hhard, rfl⟩ | ⟨hsoft, u, hmeasure, hmove⟩ := visit_eq_ok h
  · cases hweight : t.rule.weight with
    | soft w => simp [Term.isHard, Rule.isHard, hweight, Weight.isHard] at hhard
    | hard => rfl
  · obtain ⟨_, moved, v, hentries, rfl⟩ := move_eq_ok hmove
    obtain ⟨hframe, _⟩ := moveEntries_frame hentries
    cases hweight : t.rule.weight with
    | hard => simp [Term.isHard, Rule.isHard, hweight, Weight.isHard] at hsoft
    | soft w =>
      obtain ⟨hnone, _⟩ | ⟨point', hpoint, _, rfl⟩ := measure_eq_ok hmeasure
      · rw [hc] at hnone
        contradiction
      · obtain rfl := Option.some.inj (hc.symm.trans hpoint)
        rw [hframe]
        simp only [Term.weight, hweight, Weight.value]

theorem visitAll_gradient (hc : c.measured = some point) (h : c.visitAll items s = .ok () s') :
    ∃ ts : List (Term Single), items = ts.map .ok ∧ s'.gradient =
      ts.foldl (fun g t => t.addSoftGradient c.isFree (Term.valuesAt point) g) s.gradient := by
  induction items generalizing s with
  | nil =>
    injection h with _ h
    exact ⟨[], rfl, h ▸ rfl⟩
  | cons item items ih =>
    obtain ⟨t, u, rfl, hvisit, h⟩ := visitAll_cons_eq_ok h
    obtain ⟨ts, rfl, hts⟩ := ih h
    refine ⟨t :: ts, rfl, ?_⟩
    rw [hts, visit_gradient hc hvisit, List.foldl_cons]

/-- **A pass adds up the gradient** of the terms that it visits, at the values that it is given. -/
theorem sweep_gradient (hc : c.measured = some point) (h : c.sweep items s = .ok () s')
    (hstart : s.gradient = Array.replicate point.size 0) :
    ∃ ts : List (Term Single), items = ts.map .ok ∧
      s'.gradient = softGradient c.isFree ts point := by
  obtain ⟨u, hvisit, hrepair⟩ := sweep_eq_ok h
  obtain ⟨ts, hitems, hts⟩ := visitAll_gradient hc hvisit
  have hkept : s'.gradient = u.gradient :=
    ((keeps_repairAll (I := fun w => w.gradient = u.gradient) (E := fun _ => True)
      (fun t _ w w' hw hw' => (repair_eq_ok hw').2 ▸ hw) fun _ _ _ _ _ _ => trivial).ok
        rfl hrepair).2
  exact ⟨ts, hitems, by rw [hkept, hts, hstart, softGradient]⟩

end PassContext

/-! ## Along a way -/

/-- How much an array gains along a way, entry by entry. -/
def along (way : Nat → Rat) (g : Array Rat) : Rat := ∑ i ∈ range g.size, g.getD i 0 * way i

section Along

variable {way : Nat → Rat} {g : Array Rat} {free : Variable → Bool} {n : Nat}

theorem along_replicate : along way (Array.replicate n 0) = 0 := by
  refine Finset.sum_eq_zero fun i _ => ?_
  rw [Array.getD_eq_getD_getElem?, Array.getElem?_replicate]
  split <;> exact zero_mul _

theorem getD_modify_add {i : Nat} (hi : i < g.size) (j : Nat) (p : Rat) :
    (g.modify j (· + p)).getD i 0 = g.getD i 0 + if i = j then p else 0 := by
  rw [Array.getD_eq_getD_getElem?, Array.getD_eq_getD_getElem?, Array.getElem?_modify]
  by_cases hij : i = j
  · subst hij
    simp [hi]
  · simp [hij, Ne.symm hij]

/-- What is added to one entry counts along the way of that entry. -/
theorem along_modify (hway : ∀ i, g.size ≤ i → way i = 0) (j : Nat) (p : Rat) :
    along way (g.modify j (· + p)) = along way g + p * way j := by
  have hentry : ∀ i ∈ range g.size, (g.modify j (· + p)).getD i 0 * way i =
      g.getD i 0 * way i + if i = j then p * way j else 0 := by
    intro i hi
    rw [getD_modify_add (Finset.mem_range.mp hi)]
    split <;> grind
  rw [along, Array.size_modify, Finset.sum_congr rfl hentry, Finset.sum_add_distrib,
    Finset.sum_ite_eq', along]
  split
  · rfl
  · next hj => rw [hway j (by simpa using hj), mul_zero]

/-- A way that stays where variables are not free, and has no step past an array. -/
structure IsFreeWay (free : Variable → Bool) (n : Nat) (way : Nat → Rat) : Prop where
  outside : ∀ i, n ≤ i → way i = 0
  fixed : ∀ v : Variable, ¬ free v = true → way v.toNat = 0

namespace Term

/-- The gradient of a term gains what the partials of its entries gain, those of variables that are
not free included, since these stay where they are. -/
theorem along_addGradient {t : Term Rat} {w : Rat} {x : Variable → Rat}
    (hway : IsFreeWay free g.size way) :
    along way (t.addGradient w free x g) = along way g + (t.entries.toList.map fun e =>
      t.partialAt (t.dot x) w e.coefficient * way e.var.toNat).sum := by
  rw [addGradient, ← Array.foldl_toList]
  generalize t.dot x = dot
  induction t.entries.toList generalizing g with
  | nil => simp
  | cons e es ih =>
    rw [List.foldl_cons, List.map_cons, List.sum_cons]
    by_cases hfree : free e.var = true
    · rw [if_pos hfree, ih (by rwa [Array.size_modify]), along_modify hway.outside, add_assoc]
    · rw [if_neg hfree, hway.fixed e.var hfree, mul_zero, zero_add, ih hway]

end Term

end Along

/-! ## Lower bounds -/

/-- Whether every term is soft, with a weight that is not negative. -/
def AreSoft (ts : List (Term Rat)) : Prop :=
  ∀ t ∈ ts, ∃ w, t.rule.weight = .soft w ∧ 0 ≤ w

/-- The assignments over the variables of a given one that keep to `[0, 1]` and differ from it at
free variables only. -/
structure InBox (free : Variable → Bool) (values others : Array Rat) : Prop where
  size_eq : others.size = values.size
  within : ∀ a ∈ others, WithinUnit a
  agree : ∀ v, ¬ free v = true → Term.valuesAt others v = Term.valuesAt values v

/-- The way from one assignment to another one. -/
def wayTo (values others : Array Rat) (i : Nat) : Rat := others.getD i 0 - values.getD i 0

section Bounds

variable {ts : List (Term Rat)} {free : Variable → Bool} {values others : Array Rat}

theorem InBox.isFreeWay (h : InBox free values others) :
    IsFreeWay free values.size (wayTo values others) where
  outside i hi := by
    have hi' : others.size ≤ i := h.size_eq ▸ hi
    simp [wayTo, Array.getD_eq_getD_getElem?, hi, hi']
  fixed v hv := sub_eq_zero.mpr (h.agree v hv)

theorem foldl_softCost_add_along_le (hsoft : AreSoft ts) (hbox : InBox free values others)
    {a b : Rat} {g : Array Rat} (hg : g.size = values.size)
    (hle : a + along (wayTo values others) g ≤ b) :
    ts.foldl (fun s t => s + t.softCost (Term.valuesAt values)) a +
        along (wayTo values others)
          (ts.foldl (fun g t => t.addSoftGradient free (Term.valuesAt values) g) g) ≤
      ts.foldl (fun s t => s + t.softCost (Term.valuesAt others)) b := by
  induction ts generalizing a b g with
  | nil => exact hle
  | cons t ts ih =>
    obtain ⟨⟨w, hweight, hw⟩, hsoft⟩ := List.forall_mem_cons.mp hsoft
    have hadd := Term.along_addGradient (t := t) (w := w) (x := Term.valuesAt values)
      (g := g) (hg ▸ hbox.isFreeWay)
    have hbelow := t.cost_add_sum_partialAt_le hw (Term.valuesAt values) (Term.valuesAt others)
    refine ih hsoft ((t.size_addSoftGradient ..).trans hg) ?_
    simp only [Term.softCost, Term.addSoftGradient, hweight]
    rw [hadd]
    simp only [wayTo, Term.valuesAt] at hbelow ⊢
    linarith

/-- The gradient bounds from below what the objective changes by. -/
theorem softObjective_add_along_le (hsoft : AreSoft ts) (hbox : InBox free values others) :
    softObjective ts (Term.valuesAt values) +
        along (wayTo values others) (softGradient free ts values) ≤
      softObjective ts (Term.valuesAt others) :=
  foldl_softCost_add_along_le hsoft hbox Array.size_replicate
    (by rw [along_replicate, add_zero])

end Bounds

/-! ## The clipped gradient -/

section Clipping

variable {margin g x y e : Rat} {values gradient : Array Rat}

/-- What an entry of a gradient gains on the way of its variable, kept or clipped. -/
theorem mul_sub_le_clipEntry (hmargin : 0 ≤ margin) (hy : WithinUnit y) (g x : Rat) :
    g * (x - y) ≤ |clipEntry margin g x| * |x - y| + margin * |g| := by
  have hclipped : 0 ≤ margin * |g| := mul_nonneg hmargin (abs_nonneg g)
  unfold clipEntry
  simp only [Scalar.abs_rat]
  split
  · -- At zero the variable can only grow, and the entry is positive.
    next hlow =>
    obtain ⟨hnear, hg⟩ := hlow
    have hway : x - y ≤ margin := by linarith [le_abs_self x, hy.1]
    rw [abs_of_pos hg, abs_zero, zero_mul, zero_add, mul_comm margin g]
    exact mul_le_mul_of_nonneg_left hway hg.le
  · split
    · -- At one it can only shrink, and the entry is negative.
      next hhigh =>
      obtain ⟨hnear, hg⟩ := hhigh
      have hway : y - x ≤ margin := by linarith [neg_le_abs (x - 1), hy.2]
      rw [abs_of_neg hg, abs_zero, zero_mul, zero_add, mul_comm margin]
      have hgain := mul_le_mul_of_nonneg_left hway (neg_nonneg.mpr hg.le)
      linarith
    · have hkept := le_abs_self (g * (x - y))
      rw [abs_mul] at hkept
      linarith

theorem getD_clipGradient {i : Nat} (hg : i < gradient.size) (hv : i < values.size) :
    (clipGradient margin gradient values).getD i 0 =
      clipEntry margin (gradient.getD i 0) (values.getD i 0) := by
  simp [clipGradient, Array.getD_eq_getD_getElem?, hg, hv]

theorem le_foldl_max_abs (as : List Rat) (m : Rat) :
    m ≤ as.foldl (fun m a => |a| ⊔ m) m ∧ ∀ a ∈ as, |a| ≤ as.foldl (fun m a => |a| ⊔ m) m := by
  induction as generalizing m with
  | nil => exact ⟨le_refl m, fun _ h => absurd h List.not_mem_nil⟩
  | cons a as ih =>
    obtain ⟨hstart, hall⟩ := ih (|a| ⊔ m)
    exact ⟨(le_max_right _ m).trans hstart,
      List.forall_mem_cons.mpr ⟨(le_max_left _ m).trans hstart, hall⟩⟩

/-- No entry is further from zero than the greatest one. -/
theorem abs_getD_le_maxNorm (gradient : Array Rat) (i : Nat) :
    |gradient.getD i 0| ≤ maxNorm gradient := by
  rw [maxNorm, ← Array.foldl_toList, Array.getD_eq_getD_getElem?]
  simp only [Scalar.max_rat, Scalar.abs_rat]
  obtain ⟨hstart, hall⟩ := le_foldl_max_abs gradient.toList 0
  cases hi : gradient[i]? with
  | none => exact abs_zero.trans_le hstart
  | some a => exact hall a (Array.mem_toList_iff.mpr (Array.mem_of_getElem? hi))

end Clipping

/-! ## Near the minimum -/

section Near

variable {ts : List (Term Rat)} {free : Variable → Bool} {values others : Array Rat} {margin : Rat}

/-- What the objective can be lowered by, entry by entry. -/
theorem softObjective_sub_le (hsoft : AreSoft ts) (hbox : InBox free values others)
    (hmargin : 0 ≤ margin) :
    let g := softGradient free ts values
    let h := clipGradient margin g values
    softObjective ts (Term.valuesAt values) - softObjective ts (Term.valuesAt others) ≤
      (∑ i ∈ range values.size, |h.getD i 0| * |values.getD i 0 - others.getD i 0|) +
        margin * ∑ i ∈ range values.size, |g.getD i 0| := by
  intro g h
  have hsize : g.size = values.size := size_softGradient free ts values
  have hbelow := softObjective_add_along_le hsoft hbox
  have hentry : ∀ i ∈ range values.size, g.getD i 0 * (values.getD i 0 - others.getD i 0) ≤
      |h.getD i 0| * |values.getD i 0 - others.getD i 0| + margin * |g.getD i 0| := by
    intro i hi
    have hi := Finset.mem_range.mp hi
    have hother := Term.withinUnit_getD hbox.within i
    rw [show h.getD i 0 = _ from getD_clipGradient (hsize ▸ hi) hi]
    exact mul_sub_le_clipEntry hmargin hother _ _
  calc softObjective ts (Term.valuesAt values) - softObjective ts (Term.valuesAt others)
      ≤ - along (wayTo values others) g := by linarith
    _ = ∑ i ∈ range values.size, g.getD i 0 * (values.getD i 0 - others.getD i 0) := by
        rw [along, hsize, ← Finset.sum_neg_distrib]
        refine Finset.sum_congr rfl fun i _ => ?_
        rw [wayTo]
        ring
    _ ≤ _ := Finset.sum_le_sum hentry
    _ = _ := by rw [Finset.sum_add_distrib, Finset.mul_sum]

/-- **A small clipped gradient means a low objective.**  In exact arithmetic, for soft terms with
weights that are not negative, going from an assignment in `[0, 1]` to another one, at the free
variables, lowers the objective by no more than the clipped gradient allows along the way, and the
margin times the sum of the whole gradient.  So where no entry of the clipped gradient is further
from zero than a threshold, no assignment is better by more than the threshold for each variable and
that rest. -/
theorem softObjective_near_minimum (hsoft : AreSoft ts) (hmargin : 0 ≤ margin)
    (hvalues : ∀ a ∈ values, WithinUnit a) :
    let g := softGradient free ts values
    let h := clipGradient margin g values
    let n := values.size
    let rest := margin * ∑ i ∈ range n, |g.getD i 0|
    (∀ others, InBox free values others →
      softObjective ts (Term.valuesAt values) - softObjective ts (Term.valuesAt others) ≤
        (∑ i ∈ range n, |h.getD i 0| * |values.getD i 0 - others.getD i 0|) + rest) ∧
      ∀ threshold, Scalar.abs (maxNorm h) ≤ threshold → ∀ others, InBox free values others →
        softObjective ts (Term.valuesAt values) ≤
          softObjective ts (Term.valuesAt others) + (n * threshold + rest) := by
  intro g h n rest
  have hway := fun others (hbox : InBox free values others) =>
    softObjective_sub_le hsoft hbox hmargin
  refine ⟨hway, fun threshold hsmall others hbox => ?_⟩
  have hentry : ∀ i ∈ range n, |h.getD i 0| * |values.getD i 0 - others.getD i 0| ≤ threshold := by
    intro i _
    have hnorm := (le_abs_self _).trans (Scalar.abs_rat _ ▸ hsmall)
    have hleft := (abs_getD_le_maxNorm h i).trans hnorm
    have hx := Term.withinUnit_getD hvalues i
    have hy := Term.withinUnit_getD hbox.within i
    have hright : |values.getD i 0 - others.getD i 0| ≤ 1 :=
      abs_sub_le_iff.mpr ⟨by linarith [hx.2, hy.1], by linarith [hx.1, hy.2]⟩
    exact (mul_le_of_le_one_right (abs_nonneg _) hright).trans hleft
  have hsum := Finset.sum_le_card_nsmul (range n) _ threshold hentry
  rw [Finset.card_range, nsmul_eq_mul] at hsum
  have hdrop := hway others hbox
  linarith

end Near

/-! ### A minimum with one variable at its bound -/

/-- The margin of a run as a rational number. -/
def exactMargin : Rat := 8796093 / 2 ^ 43

def drawnRule (w : Rat) : Rule Rat := ⟨0, ⟨0⟩, "drawn", .soft w, .linear⟩

/-- The first term weighs on two atoms, the second one draws the first atom to a half, with the
variable in two entries, and the third one holds the last atom down. -/
def drawnTerms : List (Term Rat) :=
  [⟨drawnRule 1, .hinge, 0, #[⟨1, ⟨0⟩⟩, ⟨1, ⟨1⟩⟩]⟩,
    ⟨drawnRule 2, .squared, 1, #[⟨1, ⟨0⟩⟩, ⟨1, ⟨0⟩⟩]⟩,
    ⟨drawnRule 1, .linear, 0, #[⟨1, ⟨2⟩⟩]⟩]

/-- The second atom is observed. -/
def drawnFree (v : Variable) : Bool := v != ⟨1⟩

def drawnValues : Array Rat := #[7 / 16, 1, 0]

/-- The first two terms balance, and the last atom is at its bound, so the clipped gradient is
zero. -/
theorem softObjective_near_minimum_drawn :
    BinaryFormat.single.decode boundMargin.magnitude.toNat = ⟨8796093, -43⟩ ∧
      0 ≤ exactMargin ∧ AreSoft drawnTerms ∧ (∀ a ∈ drawnValues, WithinUnit a) ∧
      softGradient drawnFree drawnTerms drawnValues = #[0, 0, 1] ∧
      clipGradient exactMargin #[0, 0, 1] drawnValues = #[0, 0, 0] ∧
      ∀ others, InBox drawnFree drawnValues others →
        softObjective drawnTerms (Term.valuesAt drawnValues) ≤
          softObjective drawnTerms (Term.valuesAt others) + exactMargin := by
  have hmargin : 0 ≤ exactMargin := by decide +kernel
  have hsoft : AreSoft drawnTerms := by
    simp only [AreSoft, drawnTerms, List.forall_mem_cons]
    exact ⟨⟨1, rfl, by decide +kernel⟩, ⟨2, rfl, by decide +kernel⟩, ⟨1, rfl, by decide +kernel⟩,
      fun _ h => absurd h List.not_mem_nil⟩
  have hvalues : ∀ a ∈ drawnValues, WithinUnit a := by decide +kernel
  have hgradient : softGradient drawnFree drawnTerms drawnValues = #[0, 0, 1] := by
    decide +kernel
  have hclipped : clipGradient exactMargin #[0, 0, 1] drawnValues = #[0, 0, 0] := by
    decide +kernel
  refine ⟨by decide, hmargin, hsoft, hvalues, hgradient, hclipped, fun others hbox => ?_⟩
  obtain ⟨_, hnear⟩ := @softObjective_near_minimum drawnTerms drawnFree drawnValues exactMargin
    hsoft hmargin hvalues
  rw [hgradient, hclipped] at hnear
  have hle := hnear 0 (by decide +kernel) others hbox
  simpa [drawnValues, Finset.sum_range_succ] using hle

end HingeLoss

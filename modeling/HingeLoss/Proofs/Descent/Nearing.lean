import HingeLoss.Proofs.Term.Convexity

/-!
# HingeLoss.Proofs.Descent.Nearing

How near to zero a repair brings a linear form, and how far it moves the variables.

Whatever the signs of the coefficients, the variables that are free and those that are put back into
`[0, 1]`, the linear form ends up between zero and where it began: clamping never adds to a step, so
each variable takes the linear form towards zero, and together they take it no further than they
should (`dot_mul_sub_project`, `dot_mul_project_nonneg`).
-/

namespace HingeLoss

namespace Term

variable {t : Term Rat} {free : Variable → Bool} {values : Array Rat}

/-- Numbers between zero and a number, on its side of zero. -/
def Between (a d : Rat) : Prop := 0 ≤ a ∧ a ≤ d ∨ d ≤ a ∧ a ≤ 0

instance (a d : Rat) : Decidable (Between a d) := inferInstanceAs (Decidable (_ ∨ _))

theorem between_self (d : Rat) : Between d d :=
  (le_total 0 d).imp (fun h => ⟨h, le_refl d⟩) fun h => ⟨le_refl d, h⟩

/-- What lies on the side of a number and does not go past it. -/
theorem between_of_mul_nonneg {a d : Rat} (hd : d ≠ 0) (hside : 0 ≤ d * a)
    (hnear : 0 ≤ d * (d - a)) : Between a d := by
  obtain hneg | hpos := lt_or_gt_of_ne hd
  · exact .inr ⟨sub_nonpos.mp (nonpos_of_mul_nonneg_right hnear hneg),
      nonpos_of_mul_nonneg_right hside hneg⟩
  · exact .inl ⟨nonneg_of_mul_nonneg_right hside hpos,
      sub_nonneg.mp (nonneg_of_mul_nonneg_right hnear hpos)⟩

theorem freeNorm_nonneg (t : Term Rat) (free : Variable → Bool) : 0 ≤ t.freeNorm free := by
  rw [freeNorm_eq_sum]
  refine List.sum_nonneg (List.forall_mem_map.mpr fun e _ => ?_)
  split
  · exact mul_self_nonneg _
  · exact le_refl 0

/-- Nothing moves where there is nothing to repair, or nothing to repair it with. -/
theorem project_cases (t : Term Rat) (free : Variable → Bool) (values : Array Rat) :
    t.project free values = (values, 0) ∨
      t.unweighted (valuesAt values) ≠ 0 ∧ 0 < t.freeNorm free := by
  by_cases hsettled : t.isSettled (t.dot (valuesAt values)) = true
  · exact .inl (project_of_settled hsettled)
  by_cases hnorm : t.freeNorm free = 0
  · exact .inl (project_of_isZero_freeNorm (isZero_rat.mpr hnorm))
  · exact .inr ⟨mt unweighted_eq_zero_iff.mp hsettled, (t.freeNorm_nonneg free).lt_of_ne' hnorm⟩

/-- **The linear form after a repair** is between zero and where it was. -/
theorem between_project (hvars : t.vars.Nodup) (hwithin : t.IsWithin values.size)
    (hunit : ∀ v, WithinUnit (valuesAt values v)) :
    Between (t.dot (valuesAt (t.project free values).1)) (t.dot (valuesAt values)) := by
  obtain hkept | ⟨hviolated, hnorm⟩ := t.project_cases free values
  · rw [hkept]
    exact between_self _
  · refine between_of_mul_nonneg (dot_of_violated hviolated).1
      (dot_mul_project_nonneg hvars hwithin hunit hviolated hnorm) ?_
    rw [dot_mul_sub_project hvars hwithin hunit hviolated hnorm]
    exact mul_nonneg hnorm.le
      (List.sum_nonneg (List.forall_mem_map.mpr fun e _ => gain_nonneg (hunit e.var) _))

/-- **The movement of a repair** is what the free variables of the term move. -/
theorem movement_project_eq_sum (hvars : t.vars.Nodup) (hwithin : t.IsWithin values.size) :
    (t.project free values).2 = ((t.entries.toList.filter fun e => free e.var).map fun e =>
      |valuesAt (t.project free values).1 e.var - valuesAt values e.var|).sum := by
  obtain hkept | ⟨hviolated, hnorm⟩ := t.project_cases free values
  · simp [hkept]
  · have hopen := mt unweighted_eq_zero_iff.mpr hviolated
    have hnonzero := mt isZero_rat.mp hnorm.ne'
    rw [movement_project hvars hwithin hopen hnonzero, ← List.sum_eq_foldl]
    congr 1
    refine List.map_congr_left fun e he => ?_
    rw [moved, Scalar.abs_rat,
      valuesAt_project hvars hwithin hopen hnonzero (List.mem_filter.mp he).1]

/-- **What a repair does to a linear form.**  In exact arithmetic, over distinct variables with
values in `[0, 1]`, the linear form ends up between zero and where it was.  It ends up at zero if
the repair is made, a free variable has a coefficient, and no variable is put back into `[0, 1]`.
A hinged term that is not violated is left alone, and the movement is the sum of the distances that
the free variables of the term have moved. -/
theorem project_nearing (hvars : t.vars.Nodup) (hwithin : t.IsWithin values.size)
    (hunit : ∀ a ∈ values, WithinUnit a) :
    let x := valuesAt values
    let x' := valuesAt (t.project free values).1
    Between (t.dot x') (t.dot x) ∧
      (¬ t.isSettled (t.dot x) = true →
        (∃ e ∈ t.entries.toList, free e.var = true ∧ e.coefficient ≠ 0) → t.InReach free x →
          t.dot x' = 0) ∧
      (t.potential.isHinge = true → t.dot x ≤ 0 → t.project free values = (values, 0)) ∧
      (t.project free values).2 =
        ((t.entries.toList.filter fun e => free e.var).map fun e => |x' e.var - x e.var|).sum := by
  intro x x'
  have hunit := withinUnit_valuesAt hunit
  refine ⟨between_project hvars hwithin hunit, fun hopen hfree hreach => ?_, fun hhinge hle => ?_,
    movement_project_eq_sum hvars hwithin⟩
  · obtain ⟨e, he, hfree, hcoefficient⟩ := hfree
    have hviolated := mt unweighted_eq_zero_iff.mp hopen
    have hnorm := freeNorm_pos he hfree hcoefficient
    have hzero := (dot_mul_project_eq_zero_iff hvars hwithin hunit hviolated hnorm).mpr hreach
    exact (mul_eq_zero.mp hzero).resolve_left (dot_of_violated hviolated).1
  · obtain hneg | hzero := lt_or_eq_of_le hle
    · exact project_of_settled (isSettled_iff.mpr (.inr ⟨hhinge, hneg⟩))
    · exact project_of_settled (isSettled_iff.mpr (.inl hzero))

/-- Three atoms with coefficients of both signs. -/
def balance : Term Rat :=
  ⟨⟨0, ⟨0⟩, "balance", .hard, .squared⟩, .squared, 1, #[⟨2, ⟨0⟩⟩, ⟨-1, ⟨1⟩⟩, ⟨1, ⟨2⟩⟩]⟩

/-- With the last atom fixed, the other two make up for what is missing. -/
theorem project_nearing_balance :
    let free := fun v : Variable => v ≠ ⟨2⟩
    let x := valuesAt (#[1 / 4, 3 / 4, 1] : Array Rat)
    let after := balance.project free #[1 / 4, 3 / 4, 1]
    balance.dot x = -1 / 4 ∧ balance.InReach free x ∧ balance.dot (valuesAt after.1) = 0 ∧
      after.2 = 3 / 20 := by
  intro free x after
  have hvars : balance.vars.Nodup := by decide
  have hwithin : balance.IsWithin (#[1 / 4, 3 / 4, 1] : Array Rat).size := by
    unfold IsWithin
    decide +kernel
  have hreach : balance.InReach free x := by
    unfold InReach
    decide +kernel
  obtain ⟨_, hzero, _, hmovement⟩ :=
    @project_nearing balance free #[1 / 4, 3 / 4, 1] hvars hwithin (by decide +kernel)
  refine ⟨by decide +kernel, hreach, hzero (by decide +kernel) ?_ hreach, ?_⟩
  · exact ⟨⟨2, ⟨0⟩⟩, by decide +kernel, by decide, by decide⟩
  · rw [hmovement]
    decide +kernel

end Term

end HingeLoss

import Mathlib.Algebra.BigOperators.Ring.List
import Mathlib.Algebra.Order.BigOperators.Group.List
import Mathlib.Algebra.Order.Field.Rat
import Mathlib.Tactic.FieldSimp
import Mathlib.Tactic.Linarith
import Mathlib.Tactic.Ring
import HingeLoss.Descent.Pass
import HingeLoss.Proofs.Grounding.Forms

/-!
# HingeLoss.Proofs.Descent.Repair

What one repair does to a constraint.

The steps of a repair are chosen so that together they bring the linear form to zero.  Each variable
is then put back into `[0, 1]` on its own, and what one variable could not do is not made up for by
the others.  So, in exact arithmetic,

1. a repair gets to zero if no variable is put back, and only then;
2. otherwise it stops short, on the side of zero where it began;
3. it never stands still as long as some assignment in `[0, 1]` meets the constraint.

The proof weighs the step `s` of a variable against the way `m` that it has gone: the sum of `s * m`
is what the linear form has gained, the sum of `s * s` is what it should gain, and clamping puts
each `s * m` between zero and `s * s`.
-/

namespace HingeLoss

namespace Term

/-! ## The values after a repair -/

section Values

variable {α : Type} [Scalar α] {free : Variable → Bool} {values : Array α} {t : Term α}

/-- Writing one value changes the assignment at one variable. -/
theorem valuesAt_setIfInBounds {v : Variable} (hv : v.toNat < values.size) (a : α)
    (w : Variable) :
    valuesAt (values.setIfInBounds v.toNat a) w = if v = w then a else valuesAt values w := by
  simp only [valuesAt, Array.getD_eq_getD_getElem?, Array.getElem?_setIfInBounds,
    Variable.toNat_inj, if_pos hv]
  split <;> rfl

/-- The value of the variable of an entry after a step, if the variable is free. -/
def stepped (free : Variable → Bool) (x : Variable → α) (step : Entry α → α) (e : Entry α) : α :=
  if free e.var then Scalar.clamp (x e.var - step e) else x e.var

/-- How far a step moves the variable of an entry. -/
def moved (free : Variable → Bool) (x : Variable → α) (step : Entry α → α) (e : Entry α) : α :=
  Scalar.abs (stepped free x step e - x e.var)

/-- One entry of a repair moves its own variable only, if that is free, and adds the distance. -/
theorem exists_moveTo_entry (free : Variable → Bool) (step : Entry α → α) {e : Entry α}
    (he : e.var.toNat < values.size) (movement : α) : ∃ values' movement',
      (if free e.var then moveTo e.var (values.getD e.var.toNat 0 - step e) (values, movement)
        else (values, movement)) = (values', movement') ∧ values'.size = values.size ∧
      (∀ w, valuesAt values' w =
        if e.var = w then stepped free (valuesAt values) step e else valuesAt values w) ∧
      movement' =
        if free e.var then movement + moved free (valuesAt values) step e else movement := by
  unfold moved stepped
  by_cases hfree : free e.var = true
  · simp only [if_pos hfree]
    exact ⟨_, _, rfl, Array.size_setIfInBounds, valuesAt_setIfInBounds he _, rfl⟩
  · simp only [if_neg hfree]
    exact ⟨_, _, rfl, rfl, fun w => by split <;> simp only [*], rfl⟩

/-- The entries of a repair move one variable each, whatever the order, and the distances that the
free ones move are added up. -/
theorem valuesAt_foldl_moveTo (step : Entry α → α) {es : List (Entry α)}
    (hvars : (es.map (·.var)).Nodup) (hwithin : ∀ e ∈ es, e.var.toNat < values.size)
    (movement : α) {after : Array α × α}
    (hafter : after = es.foldl (fun s e =>
      if free e.var then moveTo e.var (s.1.getD e.var.toNat 0 - step e) s else s)
      (values, movement)) :
    (∀ v ∉ es.map (·.var), valuesAt after.1 v = valuesAt values v) ∧
      (∀ e ∈ es, valuesAt after.1 e.var = stepped free (valuesAt values) step e) ∧
      after.2 = ((es.filter fun e => free e.var).map (moved free (valuesAt values) step)).foldl
        (· + ·) movement := by
  induction es generalizing values movement with
  | nil => exact ⟨fun _ _ => hafter ▸ rfl, fun _ h => (nomatch h), hafter ▸ rfl⟩
  | cons e es ih =>
    obtain ⟨hnew, hrest⟩ := List.nodup_cons.mp hvars
    obtain ⟨hfirst, hwithin⟩ := List.forall_mem_cons.mp hwithin
    -- The first entry changes its own variable only, which has no entry among the rest.
    obtain ⟨values₁, movement₁, hmoved, hsize, hvalues, hmovement⟩ :=
      exists_moveTo_entry free step hfirst movement
    rw [List.foldl_cons, hmoved] at hafter
    obtain ⟨hothers, hown, hsum⟩ := ih hrest (hsize ▸ hwithin) movement₁ hafter
    have hne : ∀ f ∈ es, e.var ≠ f.var :=
      fun f hf h => hnew (List.mem_map.mpr ⟨f, hf, h.symm⟩)
    have hkept : ∀ f ∈ es,
        stepped free (valuesAt values₁) step f = stepped free (valuesAt values) step f ∧
          valuesAt values₁ f.var = valuesAt values f.var := by
      intro f hf
      rw [stepped, stepped, hvalues, if_neg (hne f hf)]
      exact ⟨rfl, rfl⟩
    refine ⟨fun v hv => ?_, fun f hf => ?_, ?_⟩
    · obtain ⟨hne, hv⟩ := not_or.mp (mt List.mem_cons.mpr hv)
      rw [hothers v hv, hvalues, if_neg (Ne.symm hne)]
    · cases hf with
      | head => rw [hothers _ hnew, hvalues, if_pos rfl]
      | tail _ hf => rw [hown f hf, (hkept f hf).1]
    · have hrest : (es.filter fun e => free e.var).map (moved free (valuesAt values₁) step) =
          (es.filter fun e => free e.var).map (moved free (valuesAt values) step) := by
        refine List.map_congr_left fun f hf => ?_
        obtain ⟨hstepped, hvalue⟩ := hkept f (List.mem_filter.mp hf).1
        rw [moved, moved, hstepped, hvalue]
      rw [hsum, hrest, hmovement, List.filter_cons]
      split
      · rw [List.map_cons, List.foldl_cons]
      · rfl

/-- The step of an entry towards zero.  All steps are computed from the linear form of the start. -/
def pull (t : Term α) (free : Variable → Bool) (x : Variable → α) (e : Entry α) : α :=
  t.dot x * e.coefficient / t.freeNorm free

theorem project_of_settled (h : t.isSettled (t.dot (valuesAt values)) = true) :
    t.project free values = (values, 0) := if_pos (.inl h)

theorem project_of_isZero_freeNorm (h : Scalar.IsZero (t.freeNorm free)) :
    t.project free values = (values, 0) := if_pos (.inr h)

section Made

variable (hvars : t.vars.Nodup) (hwithin : t.IsWithin values.size)
  (hopen : ¬ t.isSettled (t.dot (valuesAt values)) = true)
  (hnorm : ¬ Scalar.IsZero (t.freeNorm free))

include hopen hnorm

theorem project_of_open : t.project free values = t.entries.toList.foldl (fun s e =>
    if free e.var then
      moveTo e.var (s.1.getD e.var.toNat 0 - t.pull free (valuesAt values) e) s
    else s) (values, 0) := by
  rw [project, if_neg (not_or.mpr ⟨hopen, hnorm⟩), ← Array.foldl_toList]
  rfl

include hvars hwithin

/-- A repair that is made moves the free variables of the term by their steps. -/
theorem valuesAt_project {e : Entry α} (he : e ∈ t.entries.toList) :
    valuesAt (t.project free values).1 e.var =
      stepped free (valuesAt values) (t.pull free (valuesAt values)) e :=
  (valuesAt_foldl_moveTo (t.pull free (valuesAt values)) hvars hwithin 0
    (project_of_open hopen hnorm)).2.1 e he

/-- The movement of a repair that is made. -/
theorem movement_project : (t.project free values).2 =
    ((t.entries.toList.filter fun e => free e.var).map
      (moved free (valuesAt values) (t.pull free (valuesAt values)))).foldl (· + ·) 0 :=
  (valuesAt_foldl_moveTo (t.pull free (valuesAt values)) hvars hwithin 0
    (project_of_open hopen hnorm)).2.2

end Made

end Values

end Term

/-! ## Clamped steps -/

theorem isZero_rat {a : Rat} : Scalar.IsZero a ↔ a = 0 :=
  ⟨fun h => le_antisymm h.1 h.2, fun h => ⟨h.le, h.ge⟩⟩

/-- Whether a rational number is in `[0, 1]`. -/
def WithinUnit (a : Rat) : Prop := 0 ≤ a ∧ a ≤ 1

instance (a : Rat) : Decidable (WithinUnit a) := inferInstanceAs (Decidable (_ ∧ _))

section Steps

variable {a b s : Rat}

/-- A clamped step goes the way of the step, and no further. -/
theorem sub_clamp_between (ha : WithinUnit a) (s : Rat) :
    0 ≤ a - Scalar.clamp (a - s) ∧ a - Scalar.clamp (a - s) ≤ s ∨
      s ≤ a - Scalar.clamp (a - s) ∧ a - Scalar.clamp (a - s) ≤ 0 := by
  unfold Scalar.clamp Scalar.min Scalar.max
  grind [WithinUnit]

/-- A step is whole if it ends in `[0, 1]`. -/
theorem sub_clamp_eq_iff : a - Scalar.clamp (a - s) = s ↔ WithinUnit (a - s) := by
  unfold Scalar.clamp Scalar.min Scalar.max
  grind [WithinUnit]

/-- A step from a value, times the way that it gets. -/
def gain (a s : Rat) : Rat := s * (a - Scalar.clamp (a - s))

theorem gain_nonneg (ha : WithinUnit a) (s : Rat) : 0 ≤ gain a s := by
  obtain ⟨hpos, hle⟩ | ⟨hle, hneg⟩ := sub_clamp_between ha s
  · exact mul_nonneg (hpos.trans hle) hpos
  · exact mul_nonneg_of_nonpos_of_nonpos (hle.trans hneg) hneg

theorem gain_le (ha : WithinUnit a) (s : Rat) : gain a s ≤ s * s := by
  obtain ⟨hpos, hle⟩ | ⟨hle, hneg⟩ := sub_clamp_between ha s
  · exact mul_le_mul_of_nonneg_left hle (hpos.trans hle)
  · exact mul_le_mul_of_nonpos_left hle (hle.trans hneg)

theorem gain_eq_iff (ha : WithinUnit a) : gain a s = s * s ↔ WithinUnit (a - s) := by
  rw [gain, mul_eq_mul_left_iff, sub_clamp_eq_iff]
  constructor
  · rintro (h | rfl)
    · exact h
    · rwa [sub_zero]
  · exact .inl

/-- Where there is a point of `[0, 1]` on the way of a step, the step gets off its start. -/
theorem gain_pos (hb : WithinUnit b) (h : 0 < s * (a - b)) : 0 < gain a s := by
  obtain ⟨hs, hab⟩ | ⟨hs, hab⟩ := pos_and_pos_or_neg_and_neg_of_mul_pos h
  · have hmoved : 0 < a - Scalar.clamp (a - s) := by
      unfold Scalar.clamp Scalar.min Scalar.max
      grind [WithinUnit]
    exact mul_pos hs hmoved
  · have hmoved : a - Scalar.clamp (a - s) < 0 := by
      unfold Scalar.clamp Scalar.min Scalar.max
      grind [WithinUnit]
    exact mul_pos_of_neg_of_neg hs hmoved

end Steps

/-! ## The linear form after a repair -/

namespace Term

variable {t : Term Rat} {free : Variable → Bool} {x y : Variable → Rat} {values : Array Rat}

theorem dot_eq_sum (t : Term Rat) (x : Variable → Rat) :
    t.dot x = (t.entries.toList.map fun e => e.coefficient * x e.var).sum - t.constant := by
  rw [dot, ← Array.foldl_toList, List.sum_eq_foldl, List.foldl_map]

theorem freeNorm_eq_sum (t : Term Rat) (free : Variable → Bool) :
    t.freeNorm free = (t.entries.toList.map fun e =>
      if free e.var then e.coefficient * e.coefficient else 0).sum := by
  rw [freeNorm, ← Array.foldl_toList, List.sum_eq_foldl, List.foldl_map]
  simp only [add_ite, add_zero]

theorem sum_map_sub {β : Type} (bs : List β) (f g : β → Rat) :
    (bs.map fun b => f b - g b).sum = (bs.map f).sum - (bs.map g).sum := by
  rw [eq_sub_iff_add_eq, ← List.sum_map_add]
  simp only [sub_add_cancel]

theorem sum_map_pos {es : List (Entry Rat)} {f : Entry Rat → Rat} (h : ∀ e ∈ es, 0 ≤ f e)
    {e : Entry Rat} (he : e ∈ es) (hpos : 0 < f e) : 0 < (es.map f).sum :=
  hpos.trans_le (List.single_le_sum (List.forall_mem_map.mpr h) _ (List.mem_map_of_mem he))

/-- What a change of the assignment does to the linear form, entry by entry. -/
theorem dot_sub_dot (t : Term Rat) (x y : Variable → Rat) :
    t.dot x - t.dot y =
      (t.entries.toList.map fun e => e.coefficient * (x e.var - y e.var)).sum := by
  simp only [dot_eq_sum, mul_sub, sum_map_sub]
  ring

theorem dot_mul_sub (t : Term Rat) (x y : Variable → Rat) :
    t.dot x * (t.dot x - t.dot y) =
      (t.entries.toList.map fun e => t.dot x * (e.coefficient * (x e.var - y e.var))).sum := by
  rw [dot_sub_dot, List.sum_map_mul_left]

/-- The step of an entry, which is zero if its variable is not free. -/
def step (t : Term Rat) (free : Variable → Bool) (x : Variable → Rat) (e : Entry Rat) : Rat :=
  if free e.var then t.pull free x e else 0

/-- The steps are as long as the linear form asks for. -/
theorem dot_mul_self (hnorm : t.freeNorm free ≠ 0) :
    t.dot x * t.dot x =
      t.freeNorm free * (t.entries.toList.map fun e => t.step free x e * t.step free x e).sum := by
  have hsquare : ∀ e, t.step free x e * t.step free x e =
      t.dot x * t.dot x / (t.freeNorm free * t.freeNorm free) *
        if free e.var then e.coefficient * e.coefficient else 0 := by
    intro e
    unfold step pull
    split
    · field_simp
    · ring
  simp only [hsquare, List.sum_map_mul_left, ← freeNorm_eq_sum]
  field_simp

/-- What a change of the free variables does to the linear form, weighed by the steps. -/
theorem dot_mul_sub_eq (hnorm : t.freeNorm free ≠ 0)
    (hagree : ∀ e ∈ t.entries.toList, ¬ free e.var = true → y e.var = x e.var) :
    t.dot x * (t.dot x - t.dot y) =
      t.freeNorm free *
        (t.entries.toList.map fun e => t.step free x e * (x e.var - y e.var)).sum := by
  rw [dot_mul_sub, ← List.sum_map_mul_left]
  congr 1
  refine List.map_congr_left fun e he => ?_
  unfold step pull
  split
  · field_simp
  · next hfixed => rw [hagree e he hfixed]; ring

/-! ### Gaining on zero -/

theorem isSettled_iff {dot : Rat} :
    t.isSettled dot = true ↔ dot = 0 ∨ t.potential.isHinge = true ∧ dot < 0 := by
  rw [isSettled, Bool.or_eq_true, Bool.and_eq_true, decide_eq_true_iff, decide_eq_true_iff,
    isZero_rat]

/-- A term costs nothing where there is nothing to repair, and only there. -/
theorem unweighted_eq_zero_iff : t.unweighted x = 0 ↔ t.isSettled (t.dot x) = true := by
  rw [isSettled_iff]
  unfold unweighted Potential.apply Scalar.max
  cases t.potential <;> simp only [Potential.isHinge] <;> grind

theorem dot_of_violated (h : t.unweighted x ≠ 0) :
    t.dot x ≠ 0 ∧ (t.potential.isHinge = true → 0 < t.dot x) := by
  rw [Ne, unweighted_eq_zero_iff, isSettled_iff, not_or] at h
  obtain ⟨hne, hside⟩ := h
  exact ⟨hne, fun hhinge => lt_of_le_of_ne (not_lt.mp fun h => hside ⟨hhinge, h⟩) (Ne.symm hne)⟩

/-- Between an assignment that violates a term and one that meets it lies a gain. -/
theorem dot_mul_sub_pos (hx : t.unweighted x ≠ 0) (hy : t.unweighted y = 0) :
    0 < t.dot x * (t.dot x - t.dot y) := by
  obtain ⟨hne, hside⟩ := dot_of_violated hx
  obtain hzero | ⟨hhinge, hneg⟩ := isSettled_iff.mp (unweighted_eq_zero_iff.mp hy)
  · rw [hzero, sub_zero]
    exact mul_self_pos.mpr hne
  · have hpos := hside hhinge
    exact mul_pos hpos (sub_pos.mpr (hneg.trans hpos))

/-- Without crossing zero, a violated term is met at zero only. -/
theorem unweighted_eq_zero_iff_of_side (hx : t.unweighted x ≠ 0)
    (hside : 0 ≤ t.dot x * t.dot y) : t.unweighted y = 0 ↔ t.dot x * t.dot y = 0 := by
  obtain ⟨hne, hpos⟩ := dot_of_violated hx
  rw [unweighted_eq_zero_iff, isSettled_iff, mul_eq_zero, or_iff_right hne, or_iff_left]
  rintro ⟨hhinge, hneg⟩
  exact absurd (mul_neg_of_pos_of_neg (hpos hhinge) hneg) (not_lt.mpr hside)

/-- A gain is made at some free variable. -/
theorem exists_gain (hagree : ∀ v, ¬ free v = true → y v = x v)
    (hgain : 0 < t.dot x * (t.dot x - t.dot y)) :
    ∃ e ∈ t.entries.toList, free e.var = true ∧
      0 < t.dot x * (e.coefficient * (x e.var - y e.var)) := by
  have hsum : (t.entries.toList.map fun _ => (0 : Rat)).sum <
      (t.entries.toList.map fun e => t.dot x * (e.coefficient * (x e.var - y e.var))).sum := by
    rw [← dot_mul_sub]
    simpa using hgain
  obtain ⟨e, he, hpos⟩ := List.exists_lt_of_sum_lt _ _ hsum
  have hfree : free e.var = true := by
    by_contra hfixed
    rw [hagree _ hfixed, sub_self, mul_zero, mul_zero] at hpos
    exact lt_irrefl 0 hpos
  exact ⟨e, he, hfree, hpos⟩

theorem freeNorm_pos {e : Entry Rat} (he : e ∈ t.entries.toList) (hfree : free e.var = true)
    (hcoefficient : e.coefficient ≠ 0) : 0 < t.freeNorm free := by
  rw [freeNorm_eq_sum]
  refine sum_map_pos (fun e _ => ?_) he ?_
  · split
    · exact mul_self_nonneg _
    · exact le_refl 0
  · rw [if_pos hfree]
    exact mul_self_pos.mpr hcoefficient

/-! ### The repair -/

theorem withinUnit_getD (h : ∀ a ∈ values, WithinUnit a) (i : Nat) :
    WithinUnit (values.getD i 0) := by
  rw [Array.getD_eq_getD_getElem?]
  cases hi : values[i]? with
  | none => exact ⟨le_refl 0, zero_le_one⟩
  | some a => exact h a (Array.mem_of_getElem? hi)

theorem withinUnit_valuesAt (h : ∀ a ∈ values, WithinUnit a) (v : Variable) :
    WithinUnit (valuesAt values v) :=
  withinUnit_getD h v.toNat

/-- Whether no variable has to be put back into `[0, 1]`. -/
def InReach (t : Term Rat) (free : Variable → Bool) (x : Variable → Rat) : Prop :=
  ∀ e ∈ t.entries.toList, free e.var = true → WithinUnit (x e.var - t.pull free x e)

theorem inReach_iff (hunit : ∀ v, WithinUnit (x v)) :
    t.InReach free x ↔ ∀ e ∈ t.entries.toList, WithinUnit (x e.var - t.step free x e) := by
  refine forall₂_congr fun e _ => ?_
  by_cases hfree : free e.var = true
  · rw [step, if_pos hfree]
    exact ⟨fun h => h hfree, fun h _ => h⟩
  · rw [step, if_neg hfree, sub_zero]
    exact ⟨fun _ => hunit e.var, fun _ h => absurd h hfree⟩

/-- A variable that is not free makes a step of length zero. -/
theorem stepped_eq_clamp (hunit : ∀ v, WithinUnit (x v)) (e : Entry Rat) :
    stepped free x (t.pull free x) e = Scalar.clamp (x e.var - t.step free x e) := by
  unfold stepped step
  split
  · rfl
  · have hkept := sub_clamp_eq_iff (s := 0).mpr (by rw [sub_zero]; exact hunit e.var)
    linarith

/-- No step gains more than it should. -/
theorem forall_left_nonneg (hunit : ∀ v, WithinUnit (x v)) :
    ∀ a ∈ t.entries.toList.map fun e =>
      t.step free x e * t.step free x e - gain (x e.var) (t.step free x e), 0 ≤ a := by
  rw [List.forall_mem_map]
  intro e _
  exact sub_nonneg.mpr (gain_le (hunit e.var) _)

section Repaired

variable (hvars : t.vars.Nodup) (hwithin : t.IsWithin values.size)
  (hunit : ∀ v, WithinUnit (valuesAt values v)) (hviolated : t.unweighted (valuesAt values) ≠ 0)
  (hnorm : 0 < t.freeNorm free)

include hvars hwithin hunit hviolated hnorm

theorem valuesAt_project_eq_clamp {e : Entry Rat} (he : e ∈ t.entries.toList) :
    valuesAt (t.project free values).1 e.var =
      Scalar.clamp (valuesAt values e.var - t.step free (valuesAt values) e) := by
  have hopen := mt unweighted_eq_zero_iff.mpr hviolated
  have hnonzero := mt isZero_rat.mp hnorm.ne'
  rw [valuesAt_project hvars hwithin hopen hnonzero he, stepped_eq_clamp hunit]

/-- What a repair gains on zero. -/
theorem dot_mul_sub_project :
    t.dot (valuesAt values) *
        (t.dot (valuesAt values) - t.dot (valuesAt (t.project free values).1)) =
      t.freeNorm free * (t.entries.toList.map fun e =>
        gain (valuesAt values e.var) (t.step free (valuesAt values) e)).sum := by
  have hafter := fun e he =>
    valuesAt_project_eq_clamp hvars hwithin hunit hviolated hnorm (e := e) he
  have hfixed : ∀ e ∈ t.entries.toList, ¬ free e.var = true →
      valuesAt (t.project free values).1 e.var = valuesAt values e.var := by
    intro e he hfixed
    rw [hafter e he, ← stepped_eq_clamp hunit, stepped, if_neg hfixed]
  rw [dot_mul_sub_eq hnorm.ne' hfixed]
  congr 2
  refine List.map_congr_left fun e he => ?_
  rw [hafter e he, gain]

/-- What a repair leaves of the linear form. -/
theorem dot_mul_project :
    t.dot (valuesAt values) * t.dot (valuesAt (t.project free values).1) =
      t.freeNorm free * (t.entries.toList.map fun e =>
        t.step free (valuesAt values) e * t.step free (valuesAt values) e -
          gain (valuesAt values e.var) (t.step free (valuesAt values) e)).sum := by
  have hgained := dot_mul_sub_project hvars hwithin hunit hviolated hnorm
  have hasked := dot_mul_self (x := valuesAt values) hnorm.ne'
  rw [sum_map_sub]
  linarith

/-- A repair does not get past zero. -/
theorem dot_mul_project_nonneg :
    0 ≤ t.dot (valuesAt values) * t.dot (valuesAt (t.project free values).1) := by
  rw [dot_mul_project hvars hwithin hunit hviolated hnorm]
  exact mul_nonneg hnorm.le (List.sum_nonneg (forall_left_nonneg hunit))

/-- A repair gets to zero if no variable is put back, and only then. -/
theorem dot_mul_project_eq_zero_iff :
    t.dot (valuesAt values) * t.dot (valuesAt (t.project free values).1) = 0 ↔
      t.InReach free (valuesAt values) := by
  rw [dot_mul_project hvars hwithin hunit hviolated hnorm, mul_eq_zero, or_iff_right hnorm.ne',
    inReach_iff hunit]
  constructor
  · intro hzero e he
    have hleft := List.all_zero_of_le_zero_le_of_sum_eq_zero (forall_left_nonneg hunit) hzero
      (List.mem_map_of_mem he)
    exact (gain_eq_iff (hunit e.var)).mp (sub_eq_zero.mp hleft).symm
  · intro hreach
    refine List.sum_eq_zero (List.forall_mem_map.mpr fun e he => ?_)
    exact sub_eq_zero.mpr ((gain_eq_iff (hunit e.var)).mpr (hreach e he)).symm

/-- A repair gains on zero wherever a value in `[0, 1]` would. -/
theorem dot_mul_sub_project_pos {b : Rat} (hb : WithinUnit b) {e : Entry Rat}
    (he : e ∈ t.entries.toList) (hfree : free e.var = true)
    (hgain : 0 < t.dot (valuesAt values) * (e.coefficient * (valuesAt values e.var - b))) :
    0 < t.dot (valuesAt values) *
      (t.dot (valuesAt values) - t.dot (valuesAt (t.project free values).1)) := by
  have hstep : 0 < t.step free (valuesAt values) e * (valuesAt values e.var - b) := by
    have hshare : t.step free (valuesAt values) e * (valuesAt values e.var - b) =
        t.dot (valuesAt values) * (e.coefficient * (valuesAt values e.var - b)) /
          t.freeNorm free := by
      rw [step, if_pos hfree, pull]
      ring
    rw [hshare]
    exact div_pos hgain hnorm
  rw [dot_mul_sub_project hvars hwithin hunit hviolated hnorm]
  exact mul_pos hnorm (sum_map_pos (fun e _ => gain_nonneg (hunit e.var) _) he (gain_pos hb hstep))

end Repaired

/-- **When one repair meets a constraint.**  In exact arithmetic, if some assignment in `[0, 1]` of
the free variables meets a constraint, then after a repair the constraint is met exactly if it was
met before or no variable had to be put back into `[0, 1]`.  Otherwise the linear form stays on its
side of zero and has come closer to it. -/
theorem unweighted_project {rule : Rule Rat} {potential : Potential} {f : LinearForm Rat}
    (hform : f.IsBuilt) (hterm : ofForm rule potential f = .ok t)
    (hwithin : t.IsWithin values.size) (hunit : ∀ a ∈ values, WithinUnit a)
    (hy : ∀ v, WithinUnit (y v)) (hagree : ∀ v, ¬ free v = true → y v = valuesAt values v)
    (hmet : t.unweighted y = 0) :
    let x := valuesAt values
    let x' := valuesAt (t.project free values).1
    (t.unweighted x' = 0 ↔ t.unweighted x = 0 ∨ t.InReach free x) ∧
      (t.unweighted x' ≠ 0 →
        0 < t.dot x' ∧ t.dot x' < t.dot x ∨ t.dot x < t.dot x' ∧ t.dot x' < 0) := by
  intro x x'
  have hunit := withinUnit_valuesAt hunit
  have hvars : t.vars.Nodup := by
    obtain ⟨_, rfl⟩ := ofForm_eq_ok_iff.mp hterm
    exact hform.isSound.nodup
  by_cases hviolated : t.unweighted x = 0
  · have hkept : x' = x := by
      show valuesAt (t.project free values).1 = valuesAt values
      rw [project_of_settled (unweighted_eq_zero_iff.mp hviolated)]
    rw [hkept]
    exact ⟨⟨.inl, fun _ => hviolated⟩, fun h => absurd hviolated h⟩
  · -- Where the assignment `y` gains on zero, the repair gains as well.
    obtain ⟨e, he, hfree, hgain⟩ := exists_gain hagree (dot_mul_sub_pos hviolated hmet)
    have hnorm := freeNorm_pos he hfree (left_ne_zero_of_mul (right_ne_zero_of_mul hgain.ne'))
    have hside : 0 ≤ t.dot x * t.dot x' :=
      dot_mul_project_nonneg hvars hwithin hunit hviolated hnorm
    have hcloser : 0 < t.dot x * (t.dot x - t.dot x') :=
      dot_mul_sub_project_pos hvars hwithin hunit hviolated hnorm (hy e.var) he hfree hgain
    have hmet' : t.unweighted x' = 0 ↔ t.InReach free x :=
      (unweighted_eq_zero_iff_of_side hviolated hside).trans
        (dot_mul_project_eq_zero_iff hvars hwithin hunit hviolated hnorm)
    refine ⟨hmet'.trans (or_iff_right hviolated).symm, fun hleft => ?_⟩
    have hne := mt (unweighted_eq_zero_iff_of_side hviolated hside).mpr hleft
    obtain ⟨hx, hx'⟩ | ⟨hx, hx'⟩ :=
      pos_and_pos_or_neg_and_neg_of_mul_pos (lt_of_le_of_ne hside (Ne.symm hne))
    · exact .inl ⟨hx', sub_pos.mp ((mul_pos_iff_of_pos_left hx).mp hcloser)⟩
    · exact .inr ⟨sub_neg.mp (neg_of_mul_pos_right hcloser hx.le), hx'⟩

/-! ### A repair that stops short -/

/-- The first atom has to stay one below the second one, so it has to be zero and the second one
one. -/
def tetherForm (α : Type) [Scalar α] : LinearForm α :=
  ((LinearForm.empty.add ⟨0⟩ 1).add ⟨1⟩ (-1)).withConstant (-1)

def tetherRule (α : Type) : Rule α := ⟨0, ⟨0⟩, "limit", .hard, .hinge⟩

def tether (α : Type) [Scalar α] : Term α :=
  ⟨tetherRule α, .hinge, (tetherForm α).constant, (tetherForm α).entries⟩

theorem isBuilt_tetherForm (α : Type) [Scalar α] : (tetherForm α).IsBuilt :=
  ((LinearForm.IsBuilt.empty.add ⟨0⟩ 1).add ⟨1⟩ (-1)).withConstant _

/-- From one and one, the second atom cannot do its half of the way, and the first one does not do
it instead. -/
theorem unweighted_project_tether :
    let x := valuesAt (#[1, 1] : Array Rat)
    let x' := valuesAt ((tether Rat).project (fun _ => true) #[1, 1]).1
    (tether Rat).unweighted x' ≠ 0 ∧ ¬ (tether Rat).InReach (fun _ => true) x ∧
      0 < (tether Rat).dot x' ∧ (tether Rat).dot x' < (tether Rat).dot x := by
  intro x x'
  have hform : ofForm (tetherRule Rat) .hinge (tetherForm Rat) = .ok (tether Rat) :=
    ofForm_eq_ok_iff.mpr ⟨by decide +kernel, rfl⟩
  have hwithin : (tether Rat).IsWithin (#[1, 1] : Array Rat).size := by
    unfold IsWithin
    decide +kernel
  have hagree : ∀ v, ¬ (fun _ : Variable => true) v = true →
      valuesAt (#[0, 1] : Array Rat) v = valuesAt #[1, 1] v := fun _ h => absurd rfl h
  obtain ⟨hmet, hcloser⟩ := unweighted_project (isBuilt_tetherForm Rat) hform hwithin
    (by decide +kernel) (withinUnit_valuesAt (by decide +kernel)) hagree (by decide +kernel)
  have hleft : (tether Rat).unweighted x' ≠ 0 := by decide +kernel
  have hside : ¬ (tether Rat).dot x < (tether Rat).dot x' := by decide +kernel
  have hcloser := (hcloser hleft).resolve_right fun h => hside h.1
  exact ⟨hleft, fun hreach => hleft (hmet.mpr (.inr hreach)), hcloser⟩

/-- At single precision the tether can be met, and it is still violated after its repair. -/
theorem project_tether_violated :
    ofForm (tetherRule Single) .hinge (tetherForm Single) = .ok (tether Single) ∧
      (tetherForm Single).IsBuilt ∧ (tether Single).isHard = true ∧
      (∀ a ∈ (#[1, 1] : Array Single), 0 ≤ a ∧ a ≤ 1) ∧
      (∀ a ∈ (#[0, 1] : Array Single), 0 ≤ a ∧ a ≤ 1) ∧
      (tether Single).dot (valuesAt #[0, 1]) = 0 ∧
      hardTolerance < (tether Single).unweighted
        (valuesAt ((tether Single).project (fun _ => true) #[1, 1]).1) := by
  have hsize : (tetherForm Single).entries.size ≤ maxSize := by decide +kernel
  refine ⟨ofForm_eq_ok_iff.mpr ⟨hsize, rfl⟩, isBuilt_tetherForm Single, rfl, ?_⟩
  decide +kernel

end Term

end HingeLoss

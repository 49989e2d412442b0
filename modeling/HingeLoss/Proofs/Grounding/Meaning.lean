import Mathlib.Algebra.BigOperators.Ring.List
import Mathlib.Data.Finset.Card
import Mathlib.Data.Finset.Dedup
import Mathlib.Algebra.Order.Field.Rat
import Mathlib.Tactic.Linarith
import Mathlib.Tactic.Ring
import HingeLoss.Proofs.Grounding.Folding
import HingeLoss.Proofs.Term.Convexity

/-!
# HingeLoss.Proofs.Grounding.Meaning

What the terms of a ground rule cost, in exact arithmetic.

1. adding an entry adds its share to what entries add up to, whether the variable has an entry or
   not, and pruning and negating do what they should (`sumAt_addTo`, `sumAt_filter`,
   `sumAt_negated`);
2. so the entries that are left after pruning are those of the variables whose coefficients do not
   cancel, each once (`Folds.toFinset_vars_prune`);
3. a clause is the comparison of its literals, and the two hinges of an equality make up a distance
   (`GroundRule.sum_shapes`).

Putting the occurrences of a variable together is said of the ground rule itself, without a form:
`net` adds up the coefficients of a variable, and `remaining` has the variables where they do not
cancel.
-/

namespace HingeLoss

/-! ## Sums of entries -/

/-- What entries add up to at an assignment. -/
def sumAt (es : List (Entry Rat)) (x : Variable → Rat) : Rat :=
  (es.map fun e => e.coefficient * x e.var).sum

section Sums

variable {es es' : List (Entry Rat)} {x : Variable → Rat}

@[simp] theorem sumAt_nil : sumAt [] x = 0 := rfl

@[simp] theorem sumAt_cons (e : Entry Rat) :
    sumAt (e :: es) x = e.coefficient * x e.var + sumAt es x := by
  simp [sumAt]

@[simp] theorem sumAt_append : sumAt (es ++ es') x = sumAt es x + sumAt es' x := by
  simp [sumAt]

theorem sumAt_literals (c : Rat) (vs : List Variable) :
    sumAt (vs.map fun v => ⟨c, v⟩) x = c * (vs.map x).sum := by
  rw [sumAt, List.map_map, ← List.sum_map_mul_left]
  rfl

theorem sumAt_filter :
    sumAt (es.filter fun e => ¬ Scalar.IsZero e.coefficient) x = sumAt es x := by
  induction es with
  | nil => rfl
  | cons e es ih =>
    rw [List.filter_cons, sumAt_cons]
    split
    · rw [sumAt_cons, ih]
    · next hzero =>
      have hzero : e.coefficient = 0 := by simpa [isZero_rat] using hzero
      rw [ih, hzero, zero_mul, zero_add]

theorem sumAt_negated : sumAt (negated es) x = - sumAt es x := by
  induction es with
  | nil => rfl
  | cons e es ih =>
    rw [negated, List.map_cons, ← negated, sumAt_cons, sumAt_cons, ih]
    ring

/-- Adding an entry adds its share, whether its variable has an entry or not. -/
theorem sumAt_addTo (v : Variable) (c : Rat) : sumAt (addTo v c es) x = sumAt es x + c * x v := by
  induction es with
  | nil => simp [addTo]
  | cons e es ih =>
    rw [addTo]
    split
    · next hvar =>
      rw [sumAt_cons, sumAt_cons, hvar]
      ring
    · rw [sumAt_cons, sumAt_cons, ih, add_assoc]

theorem sumAt_addAllTo : sumAt (addAllTo es es') x = sumAt es' x + sumAt es x := by
  induction es generalizing es' with
  | nil => simp
  | cons e es ih => rw [addAllTo_cons, ih, sumAt_addTo, sumAt_cons, add_assoc]

end Sums

theorem Term.dot_eq_sumAt (t : Term Rat) (x : Variable → Rat) :
    t.dot x = sumAt t.entries.toList x - t.constant := t.dot_eq_sum x

namespace LinearForm

variable {f : LinearForm Rat} {x : Variable → Rat} {es : List (Entry Rat)}

/-- What the entries of a form add up to. -/
def sumAt (f : LinearForm Rat) (x : Variable → Rat) : Rat := HingeLoss.sumAt f.entries.toList x

theorem sumAt_prune (f : LinearForm Rat) : f.prune.sumAt x = f.sumAt x := by
  rw [sumAt, entries_prune, Array.toList_filter, sumAt_filter, sumAt]

theorem sumAt_negate (f : LinearForm Rat) : f.negate.sumAt x = - f.sumAt x := by
  rw [sumAt, entries_negate, sumAt_negated, sumAt]

end LinearForm

/-! ## Folding repeated variables -/

/-- The coefficient of a variable when its entries are put together. -/
def net (es : List (Entry Rat)) (v : Variable) : Rat :=
  ((es.filter (·.var = v)).map (·.coefficient)).sum

/-- The variables whose coefficient is not zero when the entries of each are put together. -/
def remaining (es : List (Entry Rat)) : Finset Variable :=
  (es.map (·.var)).toFinset.filter (net es · ≠ 0)

section Folding

variable {es : List (Entry Rat)} {v : Variable} {f : LinearForm Rat}

theorem net_cons (e : Entry Rat) :
    net (e :: es) v = (if e.var = v then e.coefficient else 0) + net es v := by
  rw [net, List.filter_cons]
  by_cases h : e.var = v <;> simp [h, net]

theorem net_eq_zero (h : v ∉ es.map (·.var)) : net es v = 0 := by
  have hnone : es.filter (·.var = v) = [] := by
    rw [List.filter_eq_nil_iff]
    intro e he hv
    exact h (List.mem_map.mpr ⟨e, he, of_decide_eq_true hv⟩)
  rw [net, hnone]
  rfl

theorem mem_remaining : v ∈ remaining es ↔ net es v ≠ 0 := by
  rw [remaining, Finset.mem_filter, List.mem_toFinset]
  exact and_iff_right_of_imp fun h => by_contra fun hv => h (net_eq_zero hv)

/-- The net coefficient of a variable is the sum where it alone is one. -/
theorem sumAt_single : sumAt es (fun u => if u = v then 1 else 0) = net es v := by
  induction es with
  | nil => rfl
  | cons e es ih => rw [sumAt_cons, net_cons, ih, mul_ite, mul_one, mul_zero]

/-- Where every variable has one entry, the entries that are not zero are those that remain. -/
theorem net_ne_zero_iff (hvars : (es.map (·.var)).Nodup) : net es v ≠ 0 ↔
    v ∈ (es.filter fun e => ¬ Scalar.IsZero e.coefficient).map (·.var) := by
  induction es with
  | nil => simp [net]
  | cons e es ih =>
    obtain ⟨hnew, hvars⟩ := List.nodup_cons.mp hvars
    have ih := ih hvars
    rw [net_cons]
    by_cases hv : e.var = v
    · subst hv
      have hnone : e.var ∉ (es.filter fun e => ¬ Scalar.IsZero e.coefficient).map (·.var) :=
        fun h => hnew ((List.filter_sublist.map _).subset h)
      rw [if_pos rfl, net_eq_zero hnew, add_zero, List.filter_cons]
      by_cases hzero : e.coefficient = 0
      · simpa [isZero_rat, hzero] using hnone
      · simp [isZero_rat, hzero]
    · rw [if_neg hv, zero_add, ih, List.filter_cons]
      split
      · simp [Ne.symm hv]
      · rfl

end Folding

/-! ## The forms of a ground rule -/

namespace LinearForm

variable {f : LinearForm Rat} {es : List (Entry Rat)}

/-- A form that adds up to what entries do, up to its sign. -/
structure Folds (f : LinearForm Rat) (es : List (Entry Rat)) : Prop where
  isSound : f.IsSound
  sum_eq : ∃ sign : Rat, sign ≠ 0 ∧ ∀ x, f.sumAt x = sign * HingeLoss.sumAt es x

/-- Folding and pruning leave the variables whose net coefficient is not zero. -/
theorem Folds.toFinset_vars_prune (h : f.Folds es) : f.prune.vars.toFinset = remaining es := by
  obtain ⟨sign, hsign, hsum⟩ := h.sum_eq
  ext v
  have hnet : net f.entries.toList v = sign * net es v := by
    rw [← sumAt_single, ← sumAt_single]
    exact hsum _
  rw [List.mem_toFinset, mem_remaining, vars_prune, ← net_ne_zero_iff h.isSound.nodup, hnet,
    mul_ne_zero_iff]
  exact and_iff_right hsign

theorem Folds.size_prune (h : f.Folds es) : f.prune.entries.size = (remaining es).card := by
  rw [← h.toFinset_vars_prune, List.toFinset_card_of_nodup h.isSound.prune.nodup, vars,
    List.length_map, Array.length_toList]

theorem Folds.isEmpty_prune (h : f.Folds es) : f.prune.isEmpty = true ↔ remaining es = ∅ := by
  rw [isEmpty, Array.isEmpty_iff_size_eq_zero, h.size_prune, Finset.card_eq_zero]

theorem Folds.negate (h : f.Folds es) : f.negate.Folds es := by
  obtain ⟨sign, hsign, hsum⟩ := h.sum_eq
  refine ⟨h.isSound.of_eq (vars_negate f) rfl, -sign, neg_ne_zero.mpr hsign, fun x => ?_⟩
  rw [sumAt_negate, hsum, neg_mul]

theorem sumAt_ofEntries (es : List (Entry Rat)) (constant : Rat) (x : Variable → Rat) :
    (ofEntries es constant).sumAt x = HingeLoss.sumAt es x := by
  rw [sumAt, entries_ofEntries, sumAt_addAllTo, sumAt_nil, zero_add]

theorem folds_ofEntries (es : List (Entry Rat)) (constant : Rat) :
    (ofEntries es constant).Folds es where
  isSound := isSound_ofEntries es constant
  sum_eq := ⟨1, one_ne_zero, fun x => by rw [sumAt_ofEntries, one_mul]⟩

end LinearForm

/-! ## The cost of a ground rule -/

/-- A number costs as much as it and its negation do with a hinge. -/
theorem Potential.withHinge_apply_add (p : Potential) (a : Rat) :
    p.withHinge.apply a + p.withHinge.apply (-a) = if p.isSquared then a ^ 2 else |a| := by
  cases p with
  | linear | hinge =>
    simp only [withHinge, isSquared, ofFlags, apply, Scalar.max_rat]
    grind
  | squared | squaredHinge =>
    simp only [withHinge, isSquared, ofFlags, apply, Scalar.max_rat]
    grind

/-- How far a clause is from being satisfied in Łukasiewicz logic: one, less what its literals add
up to. -/
def clauseDistance (positive negative : List Variable) (x : Variable → Rat) : Rat :=
  0 ⊔ (1 - (positive.map x).sum - (negative.map fun v => 1 - x v).sum)

namespace GroundRule

variable {g : GroundRule Rat} {w : Rat} {x : Variable → Rat}

/-- What a ground rule costs under weight one. -/
def penalty (g : GroundRule Rat) (x : Variable → Rat) : Rat :=
  let f := g.rule.potential
  match g.body with
  | .clause positive negative =>
    f.apply ((negative.map x).sum - (positive.map x).sum - (negative.length - 1))
  | .arithmetic entries .lessEqual k => f.apply (sumAt entries x - k)
  | .arithmetic entries .greaterEqual k => f.apply (k - sumAt entries x)
  | .arithmetic entries .equal k =>
    if f.isSquared then (sumAt entries x - k) ^ 2 else |sumAt entries x - k|

/-- Every form of a ground rule folds what the rule says. -/
theorem folds_shapes (g : GroundRule Rat) : ∀ s ∈ g.shapes, s.2.Folds g.entries := by
  have hfolds := LinearForm.folds_ofEntries g.entries
  obtain ⟨rule, body⟩ := g
  cases body with
  | clause positive negative =>
    simp only [shapes, List.forall_mem_singleton, LinearForm.ofClause_eq_ofEntries]
    exact hfolds _
  | arithmetic entries comparator k =>
    cases comparator with
    | lessEqual => exact List.forall_mem_singleton.mpr (hfolds k)
    | greaterEqual => exact List.forall_mem_singleton.mpr (hfolds k).negate
    | equal =>
      exact List.forall_mem_cons.mpr ⟨hfolds k, List.forall_mem_singleton.mpr (hfolds k).negate⟩

theorem terms_eq_nil (h : remaining g.entries = ∅) : g.terms = [] := by
  rw [terms, List.filterMap_eq_nil_iff]
  intro s hs
  rw [Rule.termOf?, if_pos ((g.folds_shapes s hs).isEmpty_prune.mpr h)]

/-- Every shape of a ground rule makes a term, whose cost is the potential of its form. -/
theorem softObjective_terms (hweight : g.rule.weight = .soft w)
    (hsome : (remaining g.entries).Nonempty) :
    softObjective g.terms x =
      w * (g.shapes.map fun s => s.1.apply (s.2.sumAt x - s.2.constant)).sum := by
  have hmade : g.terms = g.shapes.map fun s =>
      ⟨g.rule, s.1, s.2.prune.constant, s.2.prune.entries⟩ := by
    rw [terms, ← List.filterMap_eq_map]
    refine List.filterMap_congr fun s hs => ?_
    have hopen := mt (g.folds_shapes s hs).isEmpty_prune.mp hsome.ne_empty
    rw [Rule.termOf?, if_neg hopen]
    rfl
  rw [hmade, softObjective_eq_sum, List.map_map, ← List.sum_map_mul_left]
  congr 1
  refine List.map_congr_left fun s _ => ?_
  simp only [Function.comp_apply, Term.softCost, hweight, Term.cost_eq_mul, Term.unweighted,
    Term.dot_eq_sumAt, LinearForm.constant_prune]
  rw [← LinearForm.sumAt, LinearForm.sumAt_prune]

theorem sum_shapes (g : GroundRule Rat) (x : Variable → Rat) :
    (g.shapes.map fun s => s.1.apply (s.2.sumAt x - s.2.constant)).sum = g.penalty x := by
  have hsum := fun es k => LinearForm.sumAt_ofEntries es k x
  obtain ⟨rule, body⟩ := g
  cases body with
  | clause positive negative =>
    simp only [shapes, penalty, List.map_singleton, List.sum_singleton,
      LinearForm.ofClause_eq_ofEntries, LinearForm.constant_ofEntries, hsum, sumAt_append,
      sumAt_literals]
    congr 1
    ring
  | arithmetic entries comparator k =>
    have hnegate : (LinearForm.ofEntries entries k).negate.sumAt x -
        (LinearForm.ofEntries entries k).negate.constant = -(sumAt entries x - k) := by
      rw [LinearForm.sumAt_negate, hsum]
      show -sumAt entries x - -k = _
      ring
    cases comparator with
    | lessEqual =>
      simp only [shapes, penalty, List.map_singleton, List.sum_singleton, hsum]
      rfl
    | greaterEqual =>
      simp only [shapes, penalty, List.map_singleton, List.sum_singleton, hnegate, neg_sub]
    | equal =>
      simp only [shapes, penalty, List.map_cons, List.map_nil, List.sum_cons, List.sum_nil,
        add_zero, hnegate, hsum]
      exact Potential.withHinge_apply_add rule.potential (sumAt entries x - k)

/-- With a hinge, a clause costs its distance. -/
theorem penalty_clause {positive negative : List Variable}
    (hbody : g.body = .clause positive negative) (hhinge : g.rule.potential.isHinge = true) :
    g.penalty x = if g.rule.potential.isSquared then clauseDistance positive negative x ^ 2
      else clauseDistance positive negative x := by
  have hdistance : (negative.map x).sum - (positive.map x).sum - (negative.length - 1) =
      1 - (positive.map x).sum - (negative.map fun v => 1 - x v).sum := by
    rw [Term.sum_map_sub, List.map_const', List.sum_replicate, nsmul_one]
    ring
  unfold penalty clauseDistance
  simp only [hbody, hdistance]
  cases hpotential : g.rule.potential with
  | linear | squared =>
    rw [hpotential] at hhinge
    contradiction
  | hinge => simp [Potential.apply, Potential.isSquared, Scalar.max_rat, max_comm]
  | squaredHinge => simp [Potential.apply, Potential.isSquared, Scalar.max_rat, max_comm, sq]

end GroundRule

/-- **What the terms of a ground rule cost.**  In exact arithmetic, a generator that accepts the
variables of a ground rule makes terms of it.  If no variable has a coefficient left when its
occurrences are put together, there are none.  Otherwise their costs add up to what the rule says:
under the weight, the potential of the sum of a clause or of a comparison, for an equality the
distance from it or the square of that, and for a clause with a hinge the distance from being
satisfied. -/
theorem Generator.softObjective_ground {gen : Generator} {g : GroundRule Rat} {w : Rat}
    (hweight : g.rule.weight = .soft w) (hcheck : gen.check g.vars = .ok ())
    (hfits : (remaining g.entries).card ≤ Term.maxSize) :
    ∃ made, gen.ground g = .ok made ∧
      (remaining g.entries = ∅ → made.terms = #[]) ∧
      ((remaining g.entries).Nonempty → ∀ x,
        softObjective made.terms.toList x = w * g.penalty x ∧
        ∀ positive negative, g.body = .clause positive negative →
          g.rule.potential.isHinge = true →
          softObjective made.terms.toList x =
            w * if g.rule.potential.isSquared then clauseDistance positive negative x ^ 2
              else clauseDistance positive negative x) := by
  obtain ⟨made, hmade, hterms⟩ := exists_ground_eq_ok hcheck fun s hs =>
    (g.folds_shapes s hs).size_prune.trans_le hfits
  refine ⟨made, hmade, fun hnone => ?_, fun hsome x => ?_⟩
  · rw [GroundRule.terms_eq_nil hnone] at hterms
    exact Array.toList_eq_nil_iff.mp hterms
  · have hcost : softObjective made.terms.toList x = w * g.penalty x := by
      rw [hterms, GroundRule.softObjective_terms hweight hsome, GroundRule.sum_shapes]
    refine ⟨hcost, fun positive negative hbody hhinge => ?_⟩
    rw [hcost, GroundRule.penalty_clause hbody hhinge]

/-- A clause with one variable twice, and with another one on both sides. -/
def tangledClause : GroundRule Rat :=
  ⟨⟨0, ⟨0⟩, "tangled", .soft 3, .hinge⟩, .clause [⟨0⟩, ⟨0⟩, ⟨1⟩] [⟨2⟩, ⟨1⟩]⟩

/-- The variable on both sides counts in the distance, and has no entry in the term. -/
theorem Generator.softObjective_ground_tangled :
    remaining tangledClause.entries = {⟨0⟩, ⟨2⟩} ∧
      ∃ made, (Generator.mk (some 3)).ground tangledClause = .ok made ∧
        ∀ x, softObjective made.terms.toList x =
          3 * clauseDistance [⟨0⟩, ⟨0⟩, ⟨1⟩] [⟨2⟩, ⟨1⟩] x := by
  have hremaining : remaining tangledClause.entries = {⟨0⟩, ⟨2⟩} := by decide +kernel
  have hsome : (remaining tangledClause.entries).Nonempty :=
    ⟨⟨0⟩, hremaining ▸ Finset.mem_insert_self _ _⟩
  obtain ⟨made, hmade, _, hcost⟩ := @softObjective_ground ⟨some 3⟩ tangledClause 3 rfl (by decide)
    (by rw [hremaining]; decide)
  exact ⟨hremaining, made, hmade, fun x => (hcost hsome x).2 _ _ rfl rfl⟩

end HingeLoss

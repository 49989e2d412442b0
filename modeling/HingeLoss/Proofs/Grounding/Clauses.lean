import HingeLoss.Proofs.Grounding.Meaning
import HingeLoss.Proofs.Grounding.Outcomes
import HingeLoss.Proofs.Scalar.Whole

/-!
# HingeLoss.Proofs.Grounding.Clauses

Clauses where every variable is zero or one.

1. entries with whole coefficients are put together, pruned and added up without rounding as long as
   their coefficients come to less than `2 ^ 24`, so single precision then agrees with the exact
   reading (`reads_addAllTo`, `reads_pruned`, `reads_foldl`);
2. at zeros and ones the linear form of a clause is one less the number of its true literals
   (`Term.reads_dot`);
3. so the term of a clause costs something exactly where no literal is true, and a clause that makes
   no term has a variable with both signs (`Generator.generate_clause`).
-/

namespace HingeLoss

/-! ## Entries with whole coefficients -/

/-- What the coefficients of entries come to. -/
def reach (es : List (Entry Rat)) : Rat := (es.map fun e => |e.coefficient|).sum

/-- Whether an entry has the variable and the coefficient of another one, which is whole. -/
def Entry.Reads (e : Entry Single) (e' : Entry Rat) : Prop :=
  e.var = e'.var ∧ e.coefficient.Reads e'.coefficient

section Entries

variable {es into : List (Entry Single)} {es' into' : List (Entry Rat)}

@[simp] theorem reach_cons (e : Entry Rat) (es : List (Entry Rat)) :
    reach (e :: es) = |e.coefficient| + reach es := by
  simp [reach]

theorem reach_nonneg (es : List (Entry Rat)) : 0 ≤ reach es :=
  List.sum_nonneg (by simp +contextual)

theorem reach_addTo_le (v : Variable) (c : Rat) (es : List (Entry Rat)) :
    reach (addTo v c es) ≤ |c| + reach es := by
  induction es with
  | nil => simp [addTo]
  | cons e es ih =>
    rw [addTo]
    split
    · have hsum := abs_add_le e.coefficient c
      simp only [reach_cons]
      linarith
    · simp only [reach_cons]
      linarith

theorem reach_addAllTo_le (es into : List (Entry Rat)) :
    reach (addAllTo es into) ≤ reach es + reach into := by
  induction es generalizing into with
  | nil => simp [reach]
  | cons e es ih =>
    have hrest := ih (addTo e.var e.coefficient into)
    have hfirst := reach_addTo_le e.var e.coefficient into
    rw [addAllTo_cons, reach_cons]
    linarith

theorem reach_filter_le (p : Entry Rat → Bool) (es : List (Entry Rat)) :
    reach (es.filter p) ≤ reach es := by
  induction es with
  | nil => simp
  | cons e es ih =>
    have hfirst := abs_nonneg e.coefficient
    rw [List.filter_cons]
    split <;> simp only [reach_cons] <;> linarith

theorem reads_addTo (h : List.Forall₂ Entry.Reads es es') {c : Single} {k : Rat} (hc : c.Reads k)
    (hsmall : |k| + reach es' < 2 ^ 24) (v : Variable) :
    List.Forall₂ Entry.Reads (addTo v c es) (addTo v k es') := by
  induction h with
  | nil => exact .cons ⟨rfl, hc⟩ .nil
  | @cons e e' es es' he hes ih =>
    have hrest := reach_nonneg es'
    have hfirst := abs_nonneg e'.coefficient
    have hsum := abs_add_le e'.coefficient k
    rw [reach_cons] at hsmall
    rw [addTo, addTo, he.1]
    split
    · exact .cons ⟨rfl, he.2.add hc (by linarith)⟩ hes
    · exact .cons he (ih (by linarith))

/-- **Whole coefficients are put together exactly.** -/
theorem reads_addAllTo (hes : List.Forall₂ Entry.Reads es es')
    (hinto : List.Forall₂ Entry.Reads into into') (hsmall : reach es' + reach into' < 2 ^ 24) :
    List.Forall₂ Entry.Reads (addAllTo es into) (addAllTo es' into') := by
  induction hes generalizing into into' with
  | nil => exact hinto
  | @cons e e' es es' he hes ih =>
    have hrest := reach_nonneg es'
    have hadded := reach_addTo_le e'.var e'.coefficient into'
    rw [reach_cons] at hsmall
    rw [addAllTo_cons, addAllTo_cons, he.1]
    exact ih (reads_addTo hinto he.2 (by linarith) e'.var) (by linarith)

/-- Pruning drops the same entries. -/
theorem reads_pruned (h : List.Forall₂ Entry.Reads es es') :
    List.Forall₂ Entry.Reads (pruned es) (es'.filter fun e => ¬ Scalar.IsZero e.coefficient) := by
  induction h with
  | nil => exact .nil
  | @cons e e' es es' he hes ih =>
    have hzero : e.coefficient.magnitude = 0 ↔ Scalar.IsZero e'.coefficient :=
      he.2.magnitude_eq_zero_iff.trans isZero_rat.symm
    rw [pruned, List.filter_cons, List.filter_cons, ← pruned]
    simp only [ne_eq, hzero]
    split
    · exact .cons he ih
    · exact ih

/-- **Whole coefficients are added up exactly** where no variable is above one. -/
theorem reads_foldl (h : List.Forall₂ Entry.Reads es es') {x : Variable → Single}
    {x' : Variable → Rat} (hx : ∀ e ∈ es', (x e.var).Reads (x' e.var) ∧ |x' e.var| ≤ 1)
    {s : Single} {q : Rat} (hs : s.Reads q) (hsmall : |q| + reach es' < 2 ^ 24) :
    (es.foldl (fun s e => s + e.coefficient * x e.var) s).Reads (q + sumAt es' x') := by
  induction h generalizing s q with
  | nil => simpa using hs
  | @cons e e' es es' he hes ih =>
    obtain ⟨hfirst, hx⟩ := List.forall_mem_cons.mp hx
    have hrest := reach_nonneg es'
    have hvar : |e'.coefficient * x' e'.var| ≤ |e'.coefficient| := by
      rw [abs_mul]
      exact mul_le_of_le_one_right (abs_nonneg _) hfirst.2
    have hsum := abs_add_le q (e'.coefficient * x' e'.var)
    have hq := abs_nonneg q
    rw [reach_cons] at hsmall
    have hproduct := he.2.mul hfirst.1 (by linarith)
    have hnext := hs.add hproduct (by linarith)
    rw [List.foldl_cons, sumAt_cons, ← add_assoc, he.1]
    exact ih hx hnext (by linarith)

end Entries

/-! ## The linear form of a clause -/

/-- The entries of the literals of a clause. -/
def literals (α : Type) [Scalar α] (positive negative : List Variable) : List (Entry α) :=
  positive.map (fun v => ⟨-1, v⟩) ++ negative.map fun v => ⟨1, v⟩

/-- The entries of a clause, put together and pruned, exactly. -/
def exactlyFolded (positive negative : List Variable) : List (Entry Rat) :=
  (addAllTo (literals Rat positive negative) []).filter fun e => ¬ Scalar.IsZero e.coefficient

section Clause

variable {positive negative : List Variable}

theorem reads_literals (positive negative : List Variable) :
    List.Forall₂ Entry.Reads (literals Single positive negative)
      (literals Rat positive negative) := by
  refine List.rel_append ?_ ?_
  · simp [List.forall₂_map_left_iff, List.forall₂_map_right_iff, List.forall₂_same, Entry.Reads,
      Single.reads_neg_one]
  · simp [List.forall₂_map_left_iff, List.forall₂_map_right_iff, List.forall₂_same, Entry.Reads,
      Single.reads_one]

theorem reach_literals (positive negative : List Variable) :
    reach (literals Rat positive negative) = positive.length + negative.length := by
  simp [reach, literals, Function.comp_def]

theorem reach_exactlyFolded_le (positive negative : List Variable) :
    reach (exactlyFolded positive negative) ≤ positive.length + negative.length := by
  have hfolded := reach_addAllTo_le (literals Rat positive negative) []
  rw [reach_literals] at hfolded
  exact (reach_filter_le _ _).trans (by simpa [reach] using hfolded)

theorem sumAt_exactlyFolded (positive negative : List Variable) (x : Variable → Rat) :
    sumAt (exactlyFolded positive negative) x = (negative.map x).sum - (positive.map x).sum := by
  rw [exactlyFolded, sumAt_filter, sumAt_addAllTo, sumAt_nil, literals, sumAt_append,
    sumAt_literals, sumAt_literals]
  ring

/-- **A clause without entries.**  Where nothing is left, every variable occurs with both signs
equally often. -/
theorem count_eq_of_exactlyFolded (h : exactlyFolded positive negative = []) (v : Variable) :
    positive.count v = negative.count v := by
  have hcount (vs : List Variable) :
      (vs.map fun u => if u = v then (1 : Rat) else 0).sum = vs.count v := by
    induction vs with
    | nil => simp
    | cons u vs ih =>
      rw [List.map_cons, List.sum_cons, ih, List.count_cons]
      by_cases hu : u = v <;> simp [hu, add_comm]
  have hsum := sumAt_exactlyFolded positive negative fun u => if u = v then 1 else 0
  rw [h, sumAt_nil, hcount, hcount] at hsum
  exact_mod_cast (sub_eq_zero.mp hsum.symm).symm

end Clause

/-! ## Zeros and ones -/

/-- Whether some variables are all zero or one. -/
def IsCorner (vs : List Variable) (x : Variable → Single) : Prop :=
  ∀ v ∈ vs, Scalar.IsZero (x v) ∨ x v = 1

/-- Whether a literal of a clause is true. -/
def IsSatisfied (positive negative : List Variable) (x : Variable → Single) : Prop :=
  (∃ v ∈ positive, x v = 1) ∨ ∃ v ∈ negative, Scalar.IsZero (x v)

/-- The number of literals of a clause that are true. -/
def trueLiterals (positive negative : List Variable) (x : Variable → Single) : Nat :=
  positive.countP (fun v => ¬ Scalar.IsZero (x v)) + negative.countP fun v => Scalar.IsZero (x v)

/-- An assignment of zeros and ones, exactly. -/
def corner (x : Variable → Single) (v : Variable) : Rat := if Scalar.IsZero (x v) then 0 else 1

section Corner

variable {positive negative : List Variable} {x : Variable → Single} {v : Variable}

theorem reads_corner (h : Scalar.IsZero (x v) ∨ x v = 1) : (x v).Reads (corner x v) := by
  unfold corner
  split
  · next hzero => exact Single.reads_zero (Single.isZero_iff.mp hzero)
  · next hsome => exact h.resolve_left hsome ▸ Single.reads_one

theorem abs_corner_le (x : Variable → Single) (v : Variable) : |corner x v| ≤ 1 := by
  unfold corner
  split <;> simp

theorem sum_corner (vs : List Variable) :
    (vs.map (corner x)).sum = vs.countP fun v => ¬ Scalar.IsZero (x v) := by
  induction vs with
  | nil => simp
  | cons v vs ih =>
    rw [List.map_cons, List.sum_cons, ih, List.countP_cons, corner]
    by_cases hzero : Scalar.IsZero (x v) <;> simp [hzero, add_comm]

/-- One less the number of literals that are true is what the linear form of a clause adds up to. -/
theorem sum_corner_sub (positive negative : List Variable) (x : Variable → Single) :
    (negative.map (corner x)).sum - (positive.map (corner x)).sum - (negative.length - 1) =
      1 - (trueLiterals positive negative x : Rat) := by
  have hsplit := negative.length_eq_countP_add_countP fun v => Scalar.IsZero (x v)
  rw [sum_corner, sum_corner, trueLiterals, hsplit]
  push_cast
  simp
  ring

theorem trueLiterals_le (positive negative : List Variable) (x : Variable → Single) :
    trueLiterals positive negative x ≤ positive.length + negative.length :=
  Nat.add_le_add List.countP_le_length List.countP_le_length

/-- Of zeros and ones, none makes a literal true exactly if the number of true literals is zero. -/
theorem trueLiterals_eq_zero_iff (h : IsCorner (positive ++ negative) x) :
    trueLiterals positive negative x = 0 ↔ ¬ IsSatisfied positive negative x := by
  have hpositive : ∀ v ∈ positive, Scalar.IsZero (x v) ↔ ¬ x v = 1 := by
    intro v hv
    constructor
    · intro hzero hone
      rw [hone] at hzero
      exact absurd hzero (by decide)
    · exact (h v (List.mem_append_left _ hv)).resolve_right
  rw [trueLiterals, Nat.add_eq_zero_iff, List.countP_eq_zero, List.countP_eq_zero, IsSatisfied,
    not_or]
  simp only [not_exists, not_and]
  refine and_congr (forall₂_congr fun v hv => ?_) (by simp)
  simp [hpositive v hv]

end Corner

/-! ## Terms of clauses -/

theorem var_mem_of_exactlyFolded {positive negative : List Variable} {e : Entry Rat}
    (h : e ∈ exactlyFolded positive negative) : e.var ∈ positive ++ negative := by
  have hall : e.var ∈ (addAllTo (literals Rat positive negative) []).map (·.var) :=
    List.mem_map_of_mem (List.mem_filter.mp h).1
  rw [mem_vars_addAllTo] at hall
  simpa [literals, Function.comp_def] using hall

theorem Rule.weight_pos {rule : Rule Single}
    (h : rule.weight = .hard ∨ ∃ w, rule.weight = .soft w ∧ 0 < w) : 0 < rule.weight.value := by
  obtain h | ⟨w, h, hw⟩ := h
  · rw [h]
    decide
  · rwa [h]

namespace Term

variable {t : Term Single} {x : Variable → Single}

/-- A term with a hinge costs its weight where its linear form is one, and nothing where its linear
form is not positive. -/
theorem evaluate_pos_iff {q : Rat} (hhinge : t.potential.isHinge = true) (hweight : 0 < t.weight)
    (hdot : (t.dot x).Reads q) (hq : q = 1 ∨ q ≤ 0) : 0 < t.evaluate x ↔ q = 1 := by
  obtain rfl | hq := hq
  · have hone : t.unweighted x = 1 := by
      rw [unweighted, hdot.eq Single.reads_one one_ne_zero]
      cases hp : t.potential with
      | linear | squared => simp [hp, Potential.isHinge] at hhinge
      | hinge | squaredHinge => rfl
    have hsome : ¬ Scalar.IsZero (1 : Single) := by decide
    simp only [evaluate, cost, hone, if_neg hsome, Single.mul_one (Single.zero_lt_iff.mp hweight).1]
    exact iff_of_true hweight trivial
  · have hflat : Scalar.max (t.dot x) 0 = 0 :=
      if_neg (mt hdot.zero_lt_iff.mp (not_lt.mpr hq))
    have hnone : t.unweighted x = 0 := by
      rw [unweighted]
      cases hp : t.potential with
      | linear | squared => simp [hp, Potential.isHinge] at hhinge
      | hinge => exact hflat
      | squaredHinge =>
        show Scalar.max (t.dot x) 0 * Scalar.max (t.dot x) 0 = 0
        rw [hflat]
        rfl
    have hzero : Scalar.IsZero (0 : Single) := by decide
    simp only [evaluate, cost, hnone, if_pos hzero]
    exact iff_of_false (by decide) (by linarith)

/-- **The linear form of a clause** at zeros and ones: one less the number of its true literals. -/
theorem reads_dot {positive negative : List Variable}
    (hentries : List.Forall₂ Entry.Reads t.entries.toList (exactlyFolded positive negative))
    (hconstant : t.constant = ((negative.length : Nat) : Single) - 1)
    (hfew : positive.length + negative.length < 2 ^ 24) (hx : IsCorner (positive ++ negative) x) :
    (t.dot x).Reads (1 - trueLiterals positive negative x) := by
  have hfew : (positive.length : Rat) + negative.length < 2 ^ 24 := by exact_mod_cast hfew
  have hpositive : (0 : Rat) ≤ positive.length := Nat.cast_nonneg _
  have hnegative : (0 : Rat) ≤ negative.length := Nat.cast_nonneg _
  have hreach := reach_exactlyFolded_le positive negative
  have hsum := reads_foldl hentries
    (fun e he => ⟨reads_corner (hx e.var (var_mem_of_exactlyFolded he)), abs_corner_le x e.var⟩)
    (Single.reads_zero (a := 0) rfl) (by rw [abs_zero]; linarith)
  have hless := (Single.reads_natCast (n := negative.length) (by exact_mod_cast by linarith)).sub
    Single.reads_one (by rw [abs_lt]; constructor <;> linarith)
  have htrue : (trueLiterals positive negative x : Rat) ≤ positive.length + negative.length := by
    exact_mod_cast trueLiterals_le positive negative x
  have hcount : (0 : Rat) ≤ trueLiterals positive negative x := Nat.cast_nonneg _
  rw [zero_add, sumAt_exactlyFolded] at hsum
  have hdot := hsum.sub hless (by rw [sum_corner_sub, abs_lt]; constructor <;> linarith)
  rw [sum_corner_sub] at hdot
  rwa [dot, ← Array.foldl_toList, hconstant]

end Term

section Made

variable {rule : Rule Single} {positive negative : List Variable}

theorem entries_prune_ofClause (rule : Rule Single) (positive negative : List Variable) :
    (LinearForm.ofClause positive negative : LinearForm Single).prune.entries.toList =
      GroundRule.folded ⟨rule, .clause positive negative⟩ := by
  rw [LinearForm.entries_prune_eq, LinearForm.ofClause_eq_ofEntries, LinearForm.entries_ofEntries]
  rfl

/-- The entries of a clause with few literals are those of its exact reading. -/
theorem reads_folded (rule : Rule Single) (hfew : positive.length + negative.length < 2 ^ 24) :
    List.Forall₂ Entry.Reads (GroundRule.folded ⟨rule, .clause positive negative⟩)
      (exactlyFolded positive negative) := by
  have hfew : (positive.length : Rat) + negative.length < 2 ^ 24 := by exact_mod_cast hfew
  refine reads_pruned (reads_addAllTo (reads_literals positive negative) .nil ?_)
  rw [reach_literals]
  simpa [reach] using hfew

/-- A clause with a literal has a variable with both signs if nothing is left of it. -/
theorem exists_mem_both (hsome : 0 < positive.length + negative.length)
    (h : exactlyFolded positive negative = []) : ∃ v ∈ positive, v ∈ negative := by
  have hboth (v : Variable) : v ∈ positive ↔ v ∈ negative := by
    rw [← List.count_pos_iff, count_eq_of_exactlyFolded h, List.count_pos_iff]
  obtain ⟨v, hv⟩ := List.exists_mem_of_length_pos (List.length_append ▸ hsome)
  have hv := (List.mem_append.mp hv).elim id (hboth v).mpr
  exact ⟨v, hv, (hboth v).mp hv⟩

/-- **The term of a clause** costs something exactly where no literal is true. -/
theorem Rule.evaluate_clause (hfew : positive.length + negative.length < 2 ^ 24)
    (hhinge : rule.potential.isHinge = true) (hweight : 0 < rule.weight.value)
    {x : Variable → Single} (hx : IsCorner (positive ++ negative) x) :
    0 < (rule.madeOf (rule.potential, .ofClause positive negative)).1.evaluate x ↔
      ¬ IsSatisfied positive negative x := by
  have hcases : (1 - trueLiterals positive negative x : Rat) = 1 ∨
      (1 - trueLiterals positive negative x : Rat) ≤ 0 := by
    obtain hzero | hpos := Nat.eq_zero_or_pos (trueLiterals positive negative x)
    · exact .inl (by rw [hzero, Nat.cast_zero, sub_zero])
    · have hone : (1 : Rat) ≤ trueLiterals positive negative x := by exact_mod_cast hpos
      exact .inr (by linarith)
  let t := (rule.madeOf (rule.potential, .ofClause positive negative)).1
  have hentries : t.entries.toList = GroundRule.folded ⟨rule, .clause positive negative⟩ :=
    entries_prune_ofClause rule positive negative
  have hdot := Term.reads_dot (hentries ▸ reads_folded rule hfew) (LinearForm.constant_prune _) hfew
    hx
  refine (Term.evaluate_pos_iff (t := t) hhinge hweight hdot hcases).trans ?_
  rw [← trueLiterals_eq_zero_iff hx, sub_eq_self, Nat.cast_eq_zero]

end Made

/-- **Clauses where every variable is zero or one.**  A clause with a literal, under a rule with a
hinge that is hard or has a positive weight, makes no term only if some variable has both signs.
Otherwise it makes one term, which costs something exactly where no literal is true. -/
theorem Generator.generate_clause {gen : Generator} {rule : Rule Single}
    {positive negative : List Variable} {b b' : Grounded Single}
    (hsome : 0 < positive.length + negative.length)
    (hfew : positive.length + negative.length < 2 ^ 24)
    (hhinge : rule.potential.isHinge = true)
    (hweight : rule.weight = .hard ∨ ∃ w, rule.weight = .soft w ∧ 0 < w)
    (h : gen.generate ⟨rule, .clause positive negative⟩ b = .ok () b') :
    (b' = b ∧ ∃ v ∈ positive, v ∈ negative) ∨
      ∃ t f, b' = b.append [(t, f)] ∧ ∀ x : Variable → Single, IsCorner (positive ++ negative) x →
        (0 < t.evaluate x ↔ ¬ IsSatisfied positive negative x) := by
  obtain ⟨e, herror, _⟩ | ⟨_, _, hmade⟩ := gen.generate_cases ⟨rule, .clause positive negative⟩ b
  · rw [h] at herror
    contradiction
  rw [h] at hmade
  injection hmade with _ hmade
  by_cases hnone : GroundRule.folded ⟨rule, .clause positive negative⟩ = []
  · rw [GroundRule.made_of_folded_eq_nil hnone, Grounded.append_nil] at hmade
    have hreads := reads_folded rule hfew
    rw [hnone, List.forall₂_nil_left_iff] at hreads
    exact .inl ⟨hmade, exists_mem_both hsome hreads⟩
  · rw [GroundRule.made_of_folded_ne_nil hnone] at hmade
    exact .inr ⟨_, _, hmade, fun x hx =>
      rule.evaluate_clause hfew hhinge (Rule.weight_pos hweight) hx⟩

/-- A constraint with one variable twice, and with another one on both sides. -/
def tangledConstraint : GroundRule Single :=
  ⟨⟨0, ⟨0⟩, "tangled", .hard, .squaredHinge⟩, .clause [⟨0⟩, ⟨0⟩, ⟨1⟩] [⟨2⟩, ⟨1⟩]⟩

/-- The variable on both sides has no entry, and the term still says whether a literal is true. -/
theorem Generator.generate_clause_tangled :
    ∃ b, (Generator.mk (some 3)).generate tangledConstraint {} = .ok () b ∧
      ∃ t f, b = Grounded.append {} [(t, f)] ∧
        ∀ x, IsCorner [⟨0⟩, ⟨0⟩, ⟨1⟩, ⟨2⟩, ⟨1⟩] x →
          (0 < t.evaluate x ↔ ¬ IsSatisfied [⟨0⟩, ⟨0⟩, ⟨1⟩] [⟨2⟩, ⟨1⟩] x) := by
  have hallowed : ∀ v ∈ tangledConstraint.vars, (Generator.mk (some 3)).Allows v := by
    rw [← check_eq_ok_iff]
    rfl
  have hsize : tangledConstraint.folded.length = 2 := by decide +kernel
  have hmade := generate_eq_ok hallowed (hsize ▸ by decide) {}
  refine ⟨_, hmade, ?_⟩
  refine (generate_clause (by decide) (by decide) rfl (.inl rfl) hmade).resolve_left ?_
  rintro ⟨hnone, -⟩
  have hlength := congrArg (·.terms.size) hnone
  have hfolded := List.ne_nil_of_length_eq_add_one hsize
  simp [Grounded.append, GroundRule.made_of_folded_ne_nil hfolded,
    tangledConstraint.shapes_ne_nil] at hlength

end HingeLoss

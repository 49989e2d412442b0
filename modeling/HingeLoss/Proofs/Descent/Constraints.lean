import HingeLoss.Proofs.Descent.BestValues
import HingeLoss.Proofs.Store.Steady

/-!
# HingeLoss.Proofs.Descent.Constraints

The constraints of a run and the values that it leaves.

A run keeps the values of the pass with the lowest objective, and hard terms are no part of an
objective.  So which constraints hold at the values that stay depends on which pass that was:

1. nothing is violated at the values that stay if and only if some pass without violations precedes
   each pass with some, by a lower objective or as the earlier one of equally good ones, so that a
   cheaper pass with violations is kept instead of one that meets every constraint;
2. the number of violations that a run reports is that of its last pass, which need not be the pass
   whose values stay.

Both hold of every store that lists the same terms throughout a run, whatever it shuffles.
-/

namespace HingeLoss

/-! ## Counting -/

/-- The number of terms whose constraint is violated. -/
def violations (ts : List (Term Single)) (values : Array Single) : Nat :=
  ts.countP (·.isViolated (Term.valuesAt values))

/-- Whether all constraints hold, up to the tolerance. -/
def IsFeasible (ts : List (Term Single)) (values : Array Single) : Prop :=
  ∀ t ∈ ts, t.isHard = true → t.unweighted (Term.valuesAt values) ≤ hardTolerance

instance (ts : List (Term Single)) (values : Array Single) : Decidable (IsFeasible ts values) :=
  inferInstanceAs (Decidable (∀ t ∈ ts, _))

theorem isFeasible_perm {ts us : List (Term Single)} (h : us.Perm ts) (values : Array Single) :
    IsFeasible us values ↔ IsFeasible ts values :=
  ⟨fun hus t ht => hus t (h.mem_iff.mpr ht), fun hts t ht => hts t (h.mem_iff.mp ht)⟩

theorem violations_perm {ts us : List (Term Single)} (h : us.Perm ts) (values : Array Single) :
    violations us values = violations ts values := h.countP_eq _

/-! ## The pass that is kept -/

namespace Double

theorem le_trans {a b c : Double} (hab : a ≤ b) (hbc : b ≤ c) : a ≤ c :=
  ⟨hab.1, hbc.2.1, Int.le_trans hab.2.2 hbc.2.2⟩

theorem le_infinity {a : Double} (ha : a.isNaN = false) : a ≤ infinity := by
  refine ⟨ha, rfl, ?_⟩
  have hmagnitude : a.magnitude.toNat ≤ 0x7ff0000000000000 := by
    have hle : a.magnitude ≤ 0x7ff0000000000000 := by
      simpa [isNaN] using ha
    exact UInt64.le_iff_toNat_le.mp hle
  have hrank : a.rank ≤ a.magnitude.toNat := by
    unfold rank
    split <;> omega
  have hinfinity : infinity.rank = 0x7ff0000000000000 := by decide
  omega

end Double

namespace Snapshot

/-- What a pass is judged by: its objective, or infinity if that is not a number. -/
def cost (x : Nat → Double) (t : Nat) : Double := if (x t).isNaN then .infinity else x t

/-- Whether a pass is kept rather than another one: it costs less, or it is the earlier one and does
not cost more. -/
def Precedes (x : Nat → Double) (t u : Nat) : Prop :=
  cost x t < cost x u ∨ t < u ∧ cost x t ≤ cost x u

instance (x : Nat → Double) (t u : Nat) : Decidable (Precedes x t u) :=
  inferInstanceAs (Decidable (_ ∨ _))

variable {x : Nat → Double} {v : Nat → Array Single} {n : Nat} {s : Snapshot}

theorem isNaN_cost (x : Nat → Double) (t : Nat) : (cost x t).isNaN = false := by
  unfold cost
  split
  · rfl
  · next h => exact Bool.eq_false_iff.mpr h

theorem cost_of_number {t : Nat} (h : (x t).isNaN = false) : cost x t = x t := if_neg (by simp [h])

theorem Precedes.asymm {t u : Nat} (h : Precedes x t u) : ¬ Precedes x u t := by
  rintro (hlt | ⟨hbefore, hle⟩)
  · rcases h with h | ⟨_, h⟩
    · exact absurd h.2.2 (Int.not_lt.mpr (Int.le_of_lt hlt.2.2))
    · exact absurd hlt.2.2 (Int.not_lt.mpr h.2.2)
  · rcases h with h | ⟨h, _⟩
    · exact absurd h.2.2 (Int.not_lt.mpr hle.2.2)
    · omega

/-- A snapshot that no pass has replaced is that of the first pass. -/
theorem Holds.values_eq (h : Holds x v n s) : s.values = v (max 1 s.iteration) := by
  cases h with
  | best _ h =>
    rw [Nat.max_eq_right h.one_le]
  | first _ => rfl

theorem Holds.iteration_le (h : Holds x v n s) : s.iteration ≤ n := by
  cases h with
  | best _ h => exact h.le
  | first _ => exact Nat.zero_le n

/-- The pass that is kept precedes every other one that has been offered. -/
theorem Holds.precedes (h : Holds x v n s) {t : Nat} (h₁ : 1 ≤ t) (ht : t ≤ n)
    (hne : t ≠ max 1 s.iteration) : Precedes x (max 1 s.iteration) t := by
  cases h with
  | @best k hk h =>
    rw [Nat.max_eq_right h.one_le] at hne ⊢
    unfold Precedes
    rw [cost_of_number h.isNaN_eq]
    cases hnumber : (x t).isNaN with
    | true =>
      left
      rw [cost, if_pos hnumber]
      exact hk
    | false =>
      rw [cost_of_number hnumber]
      rcases Nat.lt_or_gt_of_ne hne with hbefore | hafter
      · exact .inl (h.first t h₁ hbefore hnumber)
      · exact .inr ⟨hafter, h.least t h₁ ht hnumber⟩
  | first hnone =>
    refine .inr ⟨by simp only [start] at hne ⊢; omega, ?_⟩
    have hinfinite : Double.infinity ≤ cost x t := by
      cases hnumber : (x t).isNaN with
      | true =>
        rw [cost, if_pos hnumber]
        exact Double.le_refl_of_isNaN rfl
      | false =>
        rw [cost_of_number hnumber]
        exact Double.le_of_not_lt hnumber rfl (hnone t h₁ ht)
    exact Double.le_trans (Double.le_infinity (isNaN_cost x _)) hinfinite

end Snapshot

namespace Evaluation

variable {values : Array Single} {e e' : Evaluation}

theorem violated_addTerm (e : Evaluation) (t : Term Single) (x : Variable → Single) :
    (e.addTerm t x).violated = e.violated + if t.isViolated x then 1 else 0 := by
  unfold addTerm
  by_cases hhard : t.isHard = true
  · rw [if_pos hhard]
    by_cases hviolated : t.isViolated x = true
    · simp only [if_pos hviolated]
    · simp only [if_neg hviolated, Nat.add_zero]
  · have hnone : t.isViolated x = false := by
      rw [Term.isViolated, Bool.eq_false_iff.mpr hhard, Bool.false_and]
    simp only [if_neg hhard, hnone, Bool.false_eq_true, if_false, Nat.add_zero]

theorem addItem_eq_ok {item : Except Fault (Term Single)}
    (h : e.addItem values item = .ok e') :
    ∃ t, item = .ok t ∧ e' = e.addTerm t (Term.valuesAt values) := by
  obtain ⟨t, hitem, h⟩ := except_bind_eq_ok h
  obtain ⟨_, _, h⟩ := except_bind_eq_ok h
  injection h with h
  exact ⟨t, hitem, h.symm⟩

/-- Only a listing without failures can be evaluated, and then its violations are counted. -/
theorem foldlM_addItem_eq_ok {items : List (Except Fault (Term Single))}
    (h : items.foldlM (addItem values) e = .ok e') :
    ∃ ts, items = ts.map .ok ∧ e'.violated = e.violated + violations ts values := by
  induction items generalizing e with
  | nil =>
    injection h with h
    exact ⟨[], rfl, h ▸ rfl⟩
  | cons item items ih =>
    rw [List.foldlM_cons] at h
    obtain ⟨e₁, hitem, h⟩ := except_bind_eq_ok h
    obtain ⟨t, rfl, rfl⟩ := addItem_eq_ok hitem
    obtain ⟨ts, rfl, hviolated⟩ := ih h
    refine ⟨t :: ts, rfl, ?_⟩
    rw [hviolated, violated_addTerm, violations, violations, List.countP_cons]
    omega

theorem ofListing_eq_ok {items : List (Except Fault (Term Single))}
    (h : ofListing values items = .ok e) :
    ∃ ts, items = ts.map .ok ∧ e.violated = violations ts values := by
  obtain ⟨ts, hitems, hviolated⟩ := foldlM_addItem_eq_ok h
  exact ⟨ts, hitems, hviolated.trans (Nat.zero_add _)⟩

end Evaluation

namespace TermStore

variable {σ : Type} [TermStore σ]

theorem objective_eq_ok {s t : σ} {a : Double} (h : objective s = .ok a t) :
    ∃ e, evaluate s = .ok e t ∧ e.objective = a := by
  obtain ⟨e, u, hevaluate, h⟩ := bind_eq_ok h
  injection h with ha ht
  exact ⟨e, ht ▸ hevaluate, ha⟩

/-- A store that can be evaluated lists its terms without failure, and their violations are
counted. -/
theorem exists_terms_of_evaluate [LawfulTermStore σ] {s t : σ} {e : Evaluation}
    (h : evaluate s = .ok e t) :
    ∃ us, terms s = .ok (us.map .ok) t ∧ e.violated = violations us (atoms s).values := by
  obtain ⟨_, items, hterms, hlist⟩ := Descent.exists_listing_of_evaluate h
  obtain ⟨us, rfl, hviolated⟩ := Evaluation.ofListing_eq_ok hlist
  exact ⟨us, hterms, hviolated⟩

end TermStore

/-- The warning comes with the number that is reported, and only if there are violations. -/
theorem Report.constraintsViolated_mem_notices (r : Report) (counts : AtomCounts) (k : Nat) :
    .constraintsViolated k ∈ r.notices counts ↔ k = r.violated ∧ 0 < k := by
  have hothers : Notice.constraintsViolated k ∉ ([.runEnded r.objective r.normalized r.iterations,
      .movement r.change, .extent counts r.termCount, .lowestReached r.lowestIteration] :
      List Notice) := by simp
  unfold Report.notices
  rw [List.mem_append, or_iff_left hothers]
  split
  · next hpos =>
    rw [List.mem_singleton, Notice.constraintsViolated.injEq]
    exact ⟨fun h => ⟨h, h ▸ hpos⟩, (·.1)⟩
  · next hnone =>
    refine ⟨fun h => absurd h List.not_mem_nil, fun ⟨h, hpos⟩ => ?_⟩
    exact absurd (h ▸ hpos) hnone

namespace Descent

variable {σ : Type} [TermStore σ]

/-! ## What is noted down -/

section After

variable [LawfulTermStore σ] {o : DescentOptions} {kinds : Array AtomKind} {cancelled : Nat → Bool}
  {start r : Run σ} {n : Nat} {p : Progress} {done : Bool}

/-- A run notes down the values after each pass. -/
theorem After.passes_eq {v : Nat → Array Single} {x : Nat → Double}
    (hv : Tracks o kinds cancelled start v x) (hstart : start.passes = #[])
    (h : After o kinds cancelled start n p done r) :
    r.passes.toList.map (·.values) = (List.range n).map fun i => v (i + 1) := by
  induction h with
  | start =>
    rw [hstart]
    rfl
  | pass hbefore hcancelled hpass ih =>
    have hvalues := hv.values_eq (hbefore.pass hcancelled hpass)
    obtain ⟨s, r₁, m, hsweep, rfl, _⟩ := pass_eq_ok hpass
    obtain ⟨_, _, _, _, _, hlive, _, hpasses⟩ := sweepStore_eq_ok hsweep
    rw [LawfulTermStore.atoms_endPass, hlive] at hvalues
    rw [List.range_succ, List.map_append, ← ih, hpasses, Array.toList_push, List.map_append]
    simp only [List.map_singleton, hvalues]

/-- The values after a pass that is followed by another one can be evaluated. -/
theorem After.exists_evaluate {q : Progress} {done' : Bool} {r' : Run σ}
    (h : After o kinds cancelled start (n + 1) p false r)
    (hpass : Descent.pass o kinds (n + 2) p r = .ok (q, done') r') :
    ∃ e w, TermStore.evaluate r.store = .ok e w := by
  obtain ⟨a, _, w, _, hobjective, _⟩ := h.offer_eq hpass
  obtain ⟨e, hevaluate, _⟩ := TermStore.objective_eq_ok hobjective
  exact ⟨e, w, hevaluate⟩

/-- The values after each pass of a run that succeeds have been evaluated in the run. -/
theorem After.exists_evaluate_of_settle {report : Report} {r' : Run σ}
    (h : After o kinds cancelled start n p true r)
    (hsettle : settle n p r = .ok report r') {t : Nat} (h₁ : 1 ≤ t) (ht : t ≤ n) :
    ∃ q done u e w, After o kinds cancelled start t q done u ∧
      TermStore.evaluate u.store = .ok e w := by
  by_cases hlast : t = n
  · subst hlast
    obtain ⟨e, w, hevaluate, _⟩ := settle_evaluates hsettle
    exact ⟨p, true, r, e, w, h, hevaluate⟩
  · obtain ⟨q, _, _, u, _, hu, hpass⟩ := h.exists_pass (t := t) (by omega)
    obtain ⟨m, rfl⟩ := Nat.exists_eq_add_of_le' h₁
    obtain ⟨e, w, hevaluate⟩ := hu.exists_evaluate hpass
    exact ⟨q, false, u, e, w, hu, hevaluate⟩

/-- What the values that a run settles on are among those of its passes. -/
theorem After.holds_of_settle {v : Nat → Array Single} {x : Nat → Double} {report : Report}
    {r' : Run σ} (hv : Tracks o kinds cancelled start v x)
    (h : After o kinds cancelled start n p true r) (hsettle : settle n p r = .ok report r') :
    Snapshot.Holds x v n
      ⟨report.objective, report.lowestIteration, (TermStore.atoms r'.store).values⟩ := by
  obtain ⟨e, w, hevaluate, _, _, _, hbest, _⟩ := settle_evaluates hsettle
  have hobjective := hv.objective_eq h (evaluate_eq_ok hevaluate).1
  rw [hobjective, hv.values_eq h] at hbest
  rw [← hbest]
  obtain ⟨m, rfl⟩ := Nat.exists_eq_add_of_le' (Nat.le_of_succ_le h.two_le)
  exact (h.holds_best hv).offer

end After

/-! ## The course of a run -/

section Course

variable [SteadyTermStore σ] {d : Descent} {cancelled : Nat → Bool} {s : σ}

/-- What the `n` passes of a run come to.  Pass `t` leaves the values `v t`; the store lists the terms
`ts` after it, in some order, and they have the objective `x t`.  When the run has ended in `r`, the
store still lists these terms. -/
structure IsCourse (d : Descent) (cancelled : Nat → Bool) (s : σ) (n : Nat) (r : Run σ)
    (ts : List (Term Single)) (v : Nat → Array Single) (x : Nat → Double) : Prop where
  noted : r.passes.toList.map (·.values) = (List.range n).map fun i => v (i + 1)
  reached : ∀ t, 1 ≤ t → t ≤ n → ∃ p done u, d.Reaches cancelled s t p done u ∧
    (TermStore.atoms u.store).values = v t ∧
    (∃ (us : List (Term Single)) (w : σ),
      TermStore.terms u.store = .ok (us.map .ok) w ∧ us.Perm ts) ∧
    ∃ w, TermStore.objective u.store = .ok (x t) w
  left : ∀ (us : List (Term Single)) (w : σ),
    TermStore.terms r.store = .ok (us.map .ok) w → us.Perm ts
  two_le : 2 ≤ n

/-- The course of a run that succeeds.  The values that it leaves are the best ones of the course,
and the violations that it reports are those after its last pass. -/
theorem exists_isCourse {report : Report} {r : Run σ}
    (h : optimize d cancelled ⟨s, #[]⟩ = .ok report r) :
    ∃ ts v x, d.IsCourse cancelled s report.iterations r ts v x ∧
      Snapshot.Holds x v report.iterations
        ⟨report.objective, report.lowestIteration, (TermStore.atoms r.store).values⟩ ∧
      report.violated = violations ts (v report.iterations) := by
  obtain ⟨n, p, r₁, ⟨s₀, hbegin, hafter⟩, hsettle⟩ := exists_reaches_of_optimize h
  obtain ⟨e, w, hevaluate, hn, hviolated, hpasses, _⟩ := settle_evaluates hsettle
  obtain ⟨v, x, hv⟩ := exists_tracks d.options (TermStore.atoms s).kinds cancelled ⟨s₀, #[]⟩
  obtain ⟨I, ts, hI, hsteady⟩ := SteadyTermStore.exists_isSteady hbegin
  have hpass (n : Nat) (p : Progress) : Preserves (fun r : Run σ => I r.store)
      (pass d.options (TermStore.atoms s).kinds n p) :=
    keeps_pass_of_store hsteady.keeps_terms (fun _ _ => hsteady.withAtoms)
      fun _ => hsteady.endPass
  have hkept {t q done u} (hu : After d.options (TermStore.atoms s).kinds cancelled ⟨s₀, #[]⟩
      t q done u) : I u.store :=
    (hu.keeps (P := fun _ _ => True) (fun n p _ => hpass (n + 1) p) trivial hI).2
  have hleft : I r.store :=
    ((keeps_settle hsteady.keeps_terms fun _ _ => hsteady.withAtoms).ok (hkept hafter) hsettle).2
  subst hn
  refine ⟨ts, v, x, ⟨?_, fun t h₁ ht => ?_, fun us w => hsteady.perm hleft, hafter.two_le⟩,
    ?_, ?_⟩
  · rw [hpasses, hafter.passes_eq hv rfl]
  · obtain ⟨q, done, u, e, w, hu, hevaluate⟩ := hafter.exists_evaluate_of_settle hsettle h₁ ht
    obtain ⟨us, hterms, _⟩ := TermStore.exists_terms_of_evaluate hevaluate
    have hobjective := (evaluate_eq_ok hevaluate).1
    refine ⟨q, done, u, ⟨s₀, hbegin, hu⟩, hv.values_eq hu,
      ⟨us, w, hterms, hsteady.perm (hkept hu) hterms⟩, w, ?_⟩
    rw [← hv.objective_eq hu hobjective]
    exact hobjective
  · exact hafter.holds_of_settle hv hsettle
  · obtain ⟨us, hterms, hcount⟩ := TermStore.exists_terms_of_evaluate hevaluate
    rw [hviolated, hcount, hv.values_eq hafter]
    exact violations_perm (hsteady.perm (hkept hafter) hterms) _

/-- **When the values that a run leaves are feasible.**  A run leaves the values of the pass that
precedes all others, whether or not that pass meets the constraints.  So no constraint is violated
at these values if and only if some pass that ends without a violation precedes each pass that ends
with one; where a pass with a violation precedes all passes without any, these are given up. -/
theorem exists_isFeasible_iff {report : Report} {r : Run σ}
    (h : optimize d cancelled ⟨s, #[]⟩ = .ok report r) :
    ∃ ts v x, d.IsCourse cancelled s report.iterations r ts v x ∧
      (TermStore.atoms r.store).values = v (max 1 report.lowestIteration) ∧
      (∀ t, 1 ≤ t → t ≤ report.iterations → t ≠ max 1 report.lowestIteration →
        Snapshot.Precedes x (max 1 report.lowestIteration) t) ∧
      (IsFeasible ts (TermStore.atoms r.store).values ↔
        ∃ t, 1 ≤ t ∧ t ≤ report.iterations ∧ IsFeasible ts (v t) ∧
          ∀ u, 1 ≤ u → u ≤ report.iterations → ¬ IsFeasible ts (v u) →
            Snapshot.Precedes x t u) := by
  obtain ⟨ts, v, x, hcourse, hholds, _⟩ := exists_isCourse h
  have hkept : (TermStore.atoms r.store).values = v (max 1 report.lowestIteration) :=
    hholds.values_eq
  have hle : report.lowestIteration ≤ report.iterations := hholds.iteration_le
  have hone : 1 ≤ max 1 report.lowestIteration := Nat.le_max_left ..
  have hmax : max 1 report.lowestIteration ≤ report.iterations :=
    Nat.max_le.mpr ⟨Nat.le_of_succ_le hcourse.two_le, hle⟩
  refine ⟨ts, v, x, hcourse, hkept, fun t h₁ ht => hholds.precedes h₁ ht, ?_⟩
  rw [hkept]
  constructor
  · intro hfeasible
    refine ⟨_, hone, hmax, hfeasible, fun u h₁ hu hviolated => hholds.precedes h₁ hu ?_⟩
    rintro rfl
    exact hviolated hfeasible
  · rintro ⟨t, h₁, ht, hfeasible, hprecedes⟩
    by_cases heq : t = max 1 report.lowestIteration
    · exact heq ▸ hfeasible
    · have hkept := hholds.precedes h₁ ht heq
      exact Decidable.byContradiction fun hviolated =>
        hkept.asymm (hprecedes _ hone hmax hviolated)

/-- The objective of a pass is that of the terms at its values, in the order that they are listed
in throughout the run. -/
theorem IsCourse.objective_eq {n : Nat} {r : Run σ} {ts : List (Term Single)}
    {v : Nat → Array Single} {x : Nat → Double} {items : List (Except Fault (Term Single))}
    (h : d.IsCourse cancelled s n r ts v x) (hfixed : d.FixedOrder cancelled s items) {t : Nat}
    (h₁ : 1 ≤ t) (ht : t ≤ n) :
    (Evaluation.ofListing (v t) items).toOption.map (·.objective) = some (x t) := by
  obtain ⟨p, done, u, hreaches, hvalues, _, w, hobjective⟩ := h.reached t h₁ ht
  obtain ⟨e, hevaluate, heq⟩ := TermStore.objective_eq_ok hobjective
  obtain ⟨_, listed, hterms, hlist⟩ := exists_listing_of_evaluate hevaluate
  rw [hfixed hreaches hterms, hvalues] at hlist
  rw [hlist, ← heq]
  rfl

end Course

/-! ### Short runs -/

/-- A constraint, as a hard term. -/
def hardTerm (constant : Single) (entries : Array (Entry Single)) : Term Single :=
  ⟨⟨0, ⟨0⟩, "limit", .hard, .hinge⟩, .hinge, constant, entries⟩

def softTerm (potential : Potential) (constant : Single) (entries : Array (Entry Single)) :
    Term Single :=
  ⟨⟨0, ⟨1⟩, "prior", .soft 1, potential⟩, potential, constant, entries⟩

/-- Two passes of half a step. -/
def shortDescent : Descent :=
  ⟨{ schedule := .constant, learningRate := 0.5, maxIterations := 1 }, rfl⟩

/-- The first atom may not be above a quarter, both together may not be below one, and the second
one is pulled down.  The first pass meets both limits; the repair of the second limit in the next
pass breaks the first one, at a lower objective. -/
def crossedStore : MemoryStore where
  terms := #[hardTerm 0.25 #[⟨1, ⟨0⟩⟩], hardTerm (-1) #[⟨-1, ⟨0⟩⟩, ⟨-1, ⟨1⟩⟩],
    softTerm .linear 0 #[⟨1, ⟨1⟩⟩]]
  atoms := { atoms := #[⟨.unobserved, 0, 0⟩, ⟨.unobserved, 1, 1⟩], values := #[0, 1] }

/-- The same limits, with a pull on both atoms that is stronger on the first one.  The repair of the
second limit breaks the first one at a higher objective. -/
def leaningStore : MemoryStore :=
  { crossedStore with
    terms := #[hardTerm 0.25 #[⟨1, ⟨0⟩⟩], hardTerm (-1) #[⟨-1, ⟨0⟩⟩, ⟨-1, ⟨1⟩⟩],
      softTerm .linear 0 #[⟨2.0, ⟨0⟩⟩, ⟨1, ⟨1⟩⟩]] }

/-- What two passes over a store in memory come to, if the terms keep their places. -/
theorem IsCourse.of_two_passes {d : Descent} {cancelled : Nat → Bool} {s : MemoryStore}
    {r : Run MemoryStore} {ts : List (Term Single)} {v : Nat → Array Single} {x : Nat → Double}
    {a b : Array Single}
    (h : d.IsCourse cancelled s 2 r ts v x) (hpasses : r.passes.toList.map (·.values) = [a, b])
    (hopen : r.store.generator.isSome) :
    v 1 = a ∧ v 2 = b ∧ r.store.terms.toList.Perm ts := by
  have hnoted := h.noted
  rw [hpasses] at hnoted
  injection hnoted with hfirst hnoted
  injection hnoted with hsecond
  refine ⟨hfirst.symm, hsecond.symm, h.left _ r.store ?_⟩
  change MemoryStore.listTerms r.store = _
  have hcheck : r.store.checkOpen = .ok () := by
    rw [MemoryStore.checkOpen, r.store.closed_eq, Option.isNone_eq_false_iff.mpr hopen]
    rfl
  simp only [MemoryStore.listTerms, hcheck]

/-- The second pass ends with a violation and costs more, so the values of the first one stay. -/
theorem exists_isFeasible_iff_leaning :
    ∃ report r, optimize shortDescent (fun _ => false) ⟨leaningStore, #[]⟩ = .ok report r ∧
      ∃ ts v x, shortDescent.IsCourse (fun _ => false) leaningStore 2 r ts v x ∧
        v 1 = #[0.25, 0.75] ∧ x 1 = .ofSingle 1.25 ∧
        v 2 = #[0.375, 0.625] ∧ x 2 = .ofSingle 1.375 ∧ ¬ IsFeasible ts (v 2) ∧
        IsFeasible ts r.store.atoms.values := by
  have heval : onSuccess (fun report r => (report.iterations, r.passes.toList.map (·.values),
      r.store.generator.isSome, r.store.terms)) (optimize shortDescent (fun _ => false)
        ⟨leaningStore, #[]⟩) =
          some (2, [#[0.25, 0.75], #[0.375, 0.625]], true, leaningStore.terms) := by
    decide +kernel
  obtain ⟨report, r, hrun, heval⟩ := exists_of_onSuccess heval
  injection heval with hn heval
  injection heval with hpasses heval
  injection heval with hopen hterms
  obtain ⟨ts, v, x, hcourse, _, _, hfeasible⟩ := exists_isFeasible_iff hrun
  rw [hn] at hcourse hfeasible
  obtain ⟨hv₁, hv₂, hperm⟩ := hcourse.of_two_passes hpasses hopen
  rw [hterms] at hperm
  have hmeets : IsFeasible ts (v 1) := by
    rw [← isFeasible_perm hperm, hv₁]
    decide +kernel
  have hbreaks : ¬ IsFeasible ts (v 2) := by
    rw [← isFeasible_perm hperm, hv₂]
    decide +kernel
  have hx₁ : x 1 = .ofSingle 1.25 := by
    have hobjective :=
      hcourse.objective_eq (fixedOrder_memory _ _ _) (Nat.le_refl 1) (Nat.le_succ 1)
    rw [hv₁] at hobjective
    exact Option.some.inj (hobjective.symm.trans (by decide +kernel))
  have hx₂ : x 2 = .ofSingle 1.375 := by
    have hobjective :=
      hcourse.objective_eq (fixedOrder_memory _ _ _) (Nat.le_succ 1) (Nat.le_refl 2)
    rw [hv₂] at hobjective
    exact Option.some.inj (hobjective.symm.trans (by decide +kernel))
  refine ⟨report, r, hrun, ts, v, x, hcourse, hv₁, hx₁, hv₂, hx₂, hbreaks,
    hfeasible.mpr ⟨1, Nat.le_refl 1, Nat.le_succ 1, hmeets, fun u h₁ hu hviolated => .inl ?_⟩⟩
  obtain rfl | rfl : u = 1 ∨ u = 2 := by omega
  · exact (hviolated hmeets).elim
  · rw [Snapshot.cost, Snapshot.cost, hx₁, hx₂]
    decide +kernel

/-- A pass without violations is given up for a cheaper one that has some. -/
theorem optimize_crossed_infeasible :
    ∃ report r, optimize shortDescent (fun _ => false) ⟨crossedStore, #[]⟩ = .ok report r ∧
      r.passes.toList.map (·.values) = [#[0.25, 0.75], #[0.5, 0.5]] ∧
      IsFeasible crossedStore.terms.toList #[0.25, 0.75] ∧
      r.store.terms = crossedStore.terms ∧
      ¬ IsFeasible crossedStore.terms.toList r.store.atoms.values := by
  have heval : onSuccess (fun _ r => (r.passes.toList.map (·.values), r.store.terms,
      r.store.atoms.values)) (optimize shortDescent (fun _ => false) ⟨crossedStore, #[]⟩) =
        some ([#[0.25, 0.75], #[0.5, 0.5]], crossedStore.terms, #[0.5, 0.5]) := by decide +kernel
  obtain ⟨report, r, hrun, heval⟩ := exists_of_onSuccess heval
  injection heval with hpasses heval
  injection heval with hterms hvalues
  refine ⟨report, r, hrun, hpasses, by decide +kernel, hterms, ?_⟩
  rw [hvalues]
  decide +kernel

/-! ## The violations that are reported -/

section Course

variable [SteadyTermStore σ] {d : Descent} {cancelled : Nat → Bool} {s : σ}

/-- **A run reports the violations after its last pass**, and warns of them if there are any.  The
values that it leaves are those of the pass that it names as the lowest, or of its first pass if it
names none, so the report is about these values if that pass is the last one. -/
theorem exists_violated_eq_last {report : Report} {r : Run σ}
    (h : optimize d cancelled ⟨s, #[]⟩ = .ok report r) :
    ∃ ts v x, d.IsCourse cancelled s report.iterations r ts v x ∧
      report.violated = violations ts (v report.iterations) ∧
      (TermStore.atoms r.store).values = v (max 1 report.lowestIteration) ∧
      (report.lowestIteration = report.iterations →
        report.violated = violations ts (TermStore.atoms r.store).values) ∧
      ∀ counts k, .constraintsViolated k ∈ report.notices counts ↔ k = report.violated ∧ 0 < k := by
  obtain ⟨ts, v, x, hcourse, hholds, hviolated⟩ := exists_isCourse h
  have hkept : (TermStore.atoms r.store).values = v (max 1 report.lowestIteration) :=
    hholds.values_eq
  refine ⟨ts, v, x, hcourse, hviolated, hkept, fun hlast => ?_, fun counts k => ?_⟩
  · have htwo := hcourse.two_le
    rw [hviolated, hkept, hlast, Nat.max_eq_right (Nat.le_of_succ_le htwo)]
  · exact report.constraintsViolated_mem_notices counts k

end Course

/-- The first atom may not be above a sixty-fourth of the second one, which already is where it is
pulled to.  Each pass repairs the limit a little more, at the same objective. -/
def strainedStore : MemoryStore where
  terms := #[hardTerm 0 #[⟨64.0, ⟨0⟩⟩, ⟨-1, ⟨1⟩⟩], softTerm .hinge (-1) #[⟨-1, ⟨1⟩⟩]]
  atoms := { atoms := #[⟨.unobserved, 0.5, 0.5⟩, ⟨.unobserved, 1, 1⟩], values := #[0.5, 1] }

/-- The values of the first pass stay, and the report is about those of the second one. -/
theorem exists_violated_eq_last_strained :
    ∃ report r, optimize shortDescent (fun _ => false) ⟨strainedStore, #[]⟩ = .ok report r ∧
      report.lowestIteration = 1 ∧ ∃ ts v x,
        shortDescent.IsCourse (fun _ => false) strainedStore 2 r ts v x ∧
        report.violated = violations ts (v 2) ∧ r.store.atoms.values = v 1 := by
  have heval : onSuccess (fun report _ => (report.iterations, report.lowestIteration))
      (optimize shortDescent (fun _ => false) ⟨strainedStore, #[]⟩) = some (2, 1) := by
    decide +kernel
  obtain ⟨report, r, hrun, heval⟩ := exists_of_onSuccess heval
  injection heval with hn hlowest
  obtain ⟨ts, v, x, hcourse, hviolated, hkept, _⟩ := exists_violated_eq_last hrun
  rw [hn] at hcourse hviolated
  rw [hlowest] at hkept
  exact ⟨report, r, hrun, hlowest, ts, v, x, hcourse, hviolated, hkept⟩

/-- A run reports no violation and gives no warning, and its values violate the limit. -/
theorem optimize_strained_unreported :
    ∃ report r, optimize shortDescent (fun _ => false) ⟨strainedStore, #[]⟩ = .ok report r ∧
      report.violated = 0 ∧
      (∀ counts k, .constraintsViolated k ∉ report.notices counts) ∧
      r.store.terms = strainedStore.terms ∧
      violations strainedStore.terms.toList r.store.atoms.values = 1 := by
  have heval : onSuccess (fun report r => (report.violated, r.store.terms,
      violations strainedStore.terms.toList r.store.atoms.values))
        (optimize shortDescent (fun _ => false) ⟨strainedStore, #[]⟩) =
          some (0, strainedStore.terms, 1) := by decide +kernel
  obtain ⟨report, r, hrun, heval⟩ := exists_of_onSuccess heval
  injection heval with hviolated heval
  injection heval with hterms hcount
  refine ⟨report, r, hrun, hviolated, fun counts k hmem => ?_, hterms, hcount⟩
  obtain ⟨hk, hpos⟩ := (report.constraintsViolated_mem_notices counts k).mp hmem
  omega

end Descent

end HingeLoss

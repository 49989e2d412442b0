import HingeLoss.Proofs.Descent.Accumulating
import HingeLoss.Proofs.Descent.Passes
import HingeLoss.Proofs.Descent.Sweeps

/-!
# HingeLoss.Proofs.Descent.Bounds

No index of a run is out of bounds.

A run indexes values, kinds, gradients and the values to measure at by variables, and the
accumulators by the slots of variables.  `PassState.Fits` says that all of these have the sizes that
go with `n` atoms; every step of a sweep over terms below `n` succeeds on such a state and leaves
one.  So a run fails only where its store does, which `StoreBounds` collects in `E`.
-/

namespace HingeLoss

theorem Term.requireWithin_ok {t : Term Single} {n : Nat} (h : t.IsWithin n) :
    t.requireWithin n = .ok () := by
  rw [requireWithin, pastBound?_eq_none h]

/-- Adding up terms within bounds fails only where the listing does. -/
theorem Evaluation.error_of_foldlM {E : Fault → Prop} {values : Array Single}
    {items : List (Except Fault (Term Single))}
    (hitems : ∀ t, .ok t ∈ items → t.IsWithin values.size) (herrors : ∀ e, .error e ∈ items → E e)
    {start : Evaluation} {f : Fault} (h : items.foldlM (addItem values) start = .error f) : E f := by
  induction items generalizing start with
  | nil => contradiction
  | cons item items ih =>
    rw [List.foldlM_cons] at h
    cases item with
    | error e =>
      injection h with h
      exact h ▸ herrors e List.mem_cons_self
    | ok t =>
      rw [addItem_ok start (Term.requireWithin_ok (hitems t List.mem_cons_self))] at h
      exact ih (fun t ht => hitems t (List.mem_cons_of_mem _ ht))
        (fun e he => herrors e (List.mem_cons_of_mem _ he)) h

/-- Accumulators that fit take a step for each unobserved atom. -/
theorem Accumulators.Fits.exists_step {kinds : Array AtomKind} {a : Accumulators}
    (h : a.Fits kinds) (o : DescentOptions) (iteration : Nat) (rate p : Single) {v : Variable}
    (hv : kinds[v.toNat]? = some .unobserved) :
    ∃ step a', a.step o iteration rate v p = .ok (step, a') ∧ a'.Fits kinds := by
  obtain ⟨a', hstep, ha'⟩ := h.step_eq o (c := ⟨v, iteration, rate, p⟩) hv
  exact ⟨_, a', hstep, ha'.fits⟩

/-! ## Sweeps -/

/-- A context for `n` atoms. -/
structure PassContext.Fits (n : Nat) (c : PassContext) : Prop where
  size_kinds : c.kinds.size = n
  size_measured : ∀ point, c.measured = some point → point.size = n

/-- A state for `n` atoms, in a context. -/
structure PassState.Fits (n : Nat) (c : PassContext) (s : PassState) : Prop where
  size_values : s.values.size = n
  size_gradient : c.measured.isSome → s.gradient.size = n
  accumulators : s.accumulators.Fits c.kinds
  held : ∀ t ∈ s.held, t.IsWithin n

namespace PassContext

variable {c : PassContext} {n : Nat} {t : Term Single} {s : PassState}

theorem exists_moveEntries (rate : Single) (es : List (Entry Single)) (dot movement : Single)
    (hs : s.Fits n c) :
    ∃ moved s', c.moveEntries t rate es dot movement s = .ok (moved, s') ∧ s'.Fits n c := by
  induction es generalizing dot movement s with
  | nil => exact ⟨movement, s, rfl, hs⟩
  | cons e es ih =>
    unfold moveEntries
    by_cases hfree : c.isFree e.var = true
    · obtain ⟨step, a, hstep, ha⟩ := hs.accumulators.exists_step c.options c.iteration rate
        (t.partialAt dot t.weight e.coefficient) (isFree_eq_true hfree)
      simp only [if_pos hfree, hstep]
      refine ih _ _ ⟨?_, hs.size_gradient, ha, hs.held⟩
      exact (Array.size_setIfInBounds ..).trans hs.size_values
    · rw [if_neg hfree]
      exact ih dot movement hs

theorem exists_measure (hc : c.Fits n) (ht : t.IsWithin n)
    (hs : s.Fits n c) : ∃ s', c.measure t s = .ok s' ∧ s'.Fits n c := by
  unfold measure
  cases hmeasured : c.measured with
  | none => exact ⟨s, rfl, hs⟩
  | some point =>
    have hpoint := hc.size_measured point hmeasured
    have hgradient := hs.size_gradient (by rw [hmeasured]; rfl)
    simp only [hpoint, hgradient, Term.requireWithin_ok ht]
    refine ⟨_, rfl, hs.size_values, fun _ => ?_, hs.accumulators, hs.held⟩
    rw [Term.size_addGradient, hgradient]

theorem exists_move (hc : c.Fits n) (ht : t.IsWithin n)
    (hs : s.Fits n c) : ∃ s', c.move t s = .ok s' ∧ s'.Fits n c := by
  obtain ⟨moved, s', hmove, hs'⟩ := exists_moveEntries (t := t) (c.options.rate c.iteration)
    t.entries.toList (t.dot (Term.valuesAt s.values)) 0 hs
  unfold move
  simp only [hs.size_values, hc.size_kinds, Term.requireWithin_ok ht, hmove]
  exact ⟨_, rfl, hs'.size_values, hs'.size_gradient, hs'.accumulators, hs'.held⟩

/-- A visit of a term that is within bounds succeeds. -/
theorem exists_visit (hc : c.Fits n) (ht : t.IsWithin n)
    (hs : s.Fits n c) : ∃ s', c.visit t s = .ok s' ∧ s'.Fits n c := by
  unfold visit
  by_cases hhard : t.isHard = true
  · simp only [if_pos hhard]
    refine ⟨_, rfl, hs.size_values, hs.size_gradient, hs.accumulators, fun u hu => ?_⟩
    cases Array.mem_push.mp hu with
    | inl hu => exact hs.held u hu
    | inr hu => exact hu ▸ ht
  · simp only [if_neg hhard]
    have hcounted : PassState.Fits n c { s with visited := s.visited + 1 } :=
      ⟨hs.size_values, hs.size_gradient, hs.accumulators, hs.held⟩
    obtain ⟨u, hmeasure, hu⟩ := exists_measure hc ht hcounted
    obtain ⟨s', hmove, hs'⟩ := exists_move hc ht hu
    exact ⟨s', by simp only [hmeasure]; exact hmove, hs'⟩

theorem exists_repair (hc : c.Fits n) (ht : t.IsWithin n)
    (hs : s.Fits n c) : ∃ s', c.repair t s = .ok s' ∧ s'.Fits n c := by
  unfold repair
  simp only [hs.size_values, hc.size_kinds, Term.requireWithin_ok ht]
  refine ⟨_, rfl, ?_, hs.size_gradient, hs.accumulators, hs.held⟩
  refine t.keeps_project (I := fun values => values.size = n) c.isFree ?_ hs.size_values
  exact fun e _ values target _ hsize => (Array.size_setIfInBounds ..).trans hsize

/-- A sweep over terms within bounds fails only where its listing does. -/
theorem keeps_fits_sweep {E : Fault → Prop} {items : List (Except Fault (Term Single))}
    (hc : c.Fits n) (hitems : ∀ t, .ok t ∈ items → t.IsWithin n)
    (herrors : ∀ e, .error e ∈ items → E e) :
    Keeps (PassState.Fits n c) (fun _ => True) E (c.sweep items) := by
  have hvisit : Keeps (PassState.Fits n c) (fun _ => True) E (c.visitAll items) := by
    refine keeps_visitAll (fun t ht s s' hs h => ?_) herrors fun t ht s e hs h => ?_
    · obtain ⟨u, hu, hfits⟩ := exists_visit hc (hitems t ht) hs
      rw [hu] at h
      injection h with h
      exact h ▸ hfits
    · obtain ⟨u, hu, _⟩ := exists_visit hc (hitems t ht) hs
      rw [hu] at h
      contradiction
  refine hvisit.bind fun _ _ => Keeps.get.bind fun u hu => ?_
  have hheld : ∀ t ∈ u.held.toList, t.IsWithin n :=
    fun t ht => hu.held t (Array.mem_toList_iff.mp ht)
  refine keeps_repairAll (fun t ht s s' hs h => ?_) fun t ht s e hs h => ?_
  · obtain ⟨w, hw, hfits⟩ := exists_repair hc (hheld t ht) hs
    rw [hw] at h
    injection h with h
    exact h ▸ hfits
  · obtain ⟨w, hw, _⟩ := exists_repair hc (hheld t ht) hs
    rw [hw] at h
    contradiction

end PassContext

/-! ## Runs -/

/-- What a run asks of a store with `n` atoms, so that it fails only with `E`. -/
structure StoreBounds {σ : Type} [TermStore σ] (n : Nat) (E : Fault → Prop) (I : σ → Prop) : Prop
    where
  size_eq : ∀ {s}, I s → (TermStore.atoms s).size = n
  withAtoms : ∀ {s} (t : AtomTable), I s → t.size = n → t.place = (TermStore.atoms s).place →
    I (TermStore.withAtoms t s)
  beginRun : Keeps I (fun _ => True) E TermStore.beginRun
  terms : Keeps I (fun items => (∀ t, .ok t ∈ items → t.IsWithin n) ∧
    ∀ e, .error e ∈ items → E e) E TermStore.terms
  endPass : ∀ {s}, I s → I (TermStore.endPass s)
  sync : Keeps I (fun _ => True) E TermStore.sync

namespace Descent

/-- What a pass hands on fits `n` atoms. -/
structure Fits (n : Nat) (kinds : Array AtomKind) (iteration : Nat) (p : Progress) : Prop where
  accumulators : p.accumulators.Fits kinds
  size_previous : iteration ≠ 0 → p.previous.size = n
  size_best : iteration ≠ 0 → p.best.values.size = n

variable {σ : Type} [TermStore σ] {n : Nat} {E : Fault → Prop} {I : σ → Prop} {o : DescentOptions}
  {kinds : Array AtomKind} {iteration : Nat} {p : Progress}

theorem keeps_bounds_setValues (h : StoreBounds n E I) {values : Array Single}
    (hvalues : values.size = n) :
    Keeps (fun r : Run σ => I r.store) (fun _ => True) E
      (onStore (TermStore.onAtoms (AtomTable.setValues values))) := by
  refine keeps_onStore fun s hs => ?_
  have hset := AtomTable.setValues_ok (hvalues.trans (h.size_eq hs).symm)
  unfold TermStore.onAtoms
  rw [hset]
  exact ⟨trivial, h.withAtoms _ hs (h.size_eq hs) rfl⟩

theorem keeps_bounds_atoms (h : StoreBounds n E I) :
    Keeps (fun r : Run σ => I r.store) (fun t => t.size = n) E atoms :=
  fun _ hr => ⟨h.size_eq hr, hr⟩

theorem keeps_bounds_sweepStore (h : StoreBounds n E I) {c : PassContext} (hc : c.Fits n)
    {start : Array Single → PassState}
    (hstart : ∀ values, values.size = n → (start values).Fits n c) :
    Keeps (fun r : Run σ => I r.store) (PassState.Fits n c) E (sweepStore c start) := by
  refine (keeps_onStore h.terms).bind fun items hitems => (keeps_bounds_atoms h).bind fun t ht => ?_
  have hfits := hstart t.values (t.size_values.trans ht)
  have hsweep := PassContext.keeps_fits_sweep hc hitems.1 hitems.2 _ hfits
  cases hs : c.sweep items (start t.values) <;> simp only [hs] at hsweep ⊢
  · exact (keeps_bounds_setValues h hsweep.2.size_values).bind fun _ _ => Keeps.pure hsweep.2
  · exact (keeps_bounds_setValues h hsweep.2.size_values).bind fun _ _ => Keeps.throw hsweep.1

theorem fits_context (hkinds : kinds.size = n) (hp : Fits n kinds iteration p) :
    (context o kinds (iteration + 1) p).Fits n := by
  refine ⟨hkinds, fun point hpoint => ?_⟩
  unfold context at hpoint
  by_cases hfirst : iteration + 1 = 1
  · simp only [if_pos hfirst] at hpoint
    contradiction
  · simp only [if_neg hfirst] at hpoint
    injection hpoint with hpoint
    exact hpoint ▸ hp.size_previous (by omega)

theorem fits_startState (hp : Fits n kinds iteration p) {values : Array Single}
    (hvalues : values.size = n) :
    (startState p values).Fits n (context o kinds (iteration + 1) p) := by
  refine ⟨hvalues, fun hmeasured => ?_, hp.accumulators,
    fun t ht => absurd ht (Array.not_mem_empty t)⟩
  unfold context at hmeasured
  by_cases hfirst : iteration + 1 = 1
  · simp only [if_pos hfirst] at hmeasured
    contradiction
  · exact (Array.size_replicate ..).trans (hp.size_previous (by omega))

/-- The first pass hands on what fits. -/
theorem fits_begin {c : PassContext} {s : PassState} (hs : s.Fits n c) :
    Fits n c.kinds 1 (p.begin s) :=
  ⟨hs.accumulators, fun _ => hs.size_values, fun _ => hs.size_values⟩

/-- A later pass hands on what fits. -/
theorem Fits.next {c : PassContext} {s : PassState} (hp : Fits n kinds iteration p)
    (hiteration : iteration ≠ 0) (hs : s.Fits n c) :
    Fits n c.kinds (iteration + 1) (p.next (iteration + 1) s) := by
  refine ⟨hs.accumulators, fun _ => hs.size_values, fun _ => ?_⟩
  simp only [Progress.next, Snapshot.offer]
  split
  · exact hp.size_previous hiteration
  · exact hp.size_best hiteration

theorem keeps_bounds_pass (h : StoreBounds n E I) (hkinds : kinds.size = n)
    (hp : Fits n kinds iteration p) :
    Keeps (fun r : Run σ => I r.store) (fun q => Fits n kinds (iteration + 1) q.1) E
      (pass o kinds (iteration + 1) p) := by
  have hsweep := keeps_bounds_sweepStore h (fits_context (o := o) hkinds hp)
    fun values hvalues => fits_startState hp hvalues
  refine keeps_pass (P := Fits n kinds) hsweep (fun s m _ => ?_) (fun hfirst s hs => ?_)
    (fun hlater s hs => ?_) fun hlater s hs hsize => ?_
  · exact Keeps.modify fun r hr => h.endPass hr
  · rw [hfirst]
    exact fits_begin hs
  · exact hp.next (by omega) hs
  · exact absurd (hs.size_values.trans (hp.size_previous (by omega)).symm) hsize

theorem keeps_bounds_evaluate (h : StoreBounds n E I) :
    Keeps I (fun _ => True) E TermStore.evaluate := by
  refine h.terms.bind fun items hitems => Keeps.get.bind fun s hs => ?_
  have hsize : (TermStore.atoms s).values.size = n :=
    (TermStore.atoms s).size_values.trans (h.size_eq hs)
  cases heval : Evaluation.ofListing (TermStore.atoms s).values items with
  | ok e => exact Keeps.pure trivial
  | error e => exact Keeps.throw (Evaluation.error_of_foldlM (hsize ▸ hitems.1) hitems.2 heval)

theorem keeps_bounds_settle (h : StoreBounds n E I) (hp : Fits n kinds iteration p)
    (hiteration : iteration ≠ 0) :
    Keeps (fun r : Run σ => I r.store) (fun _ => True) E (settle iteration p) := by
  refine (keeps_onStore (keeps_bounds_evaluate h)).bind fun last _ => ?_
  refine (keeps_bounds_atoms h).bind fun t ht => ?_
  have hbest : (p.best.offer last.objective iteration t.values).values.size = n := by
    unfold Snapshot.offer
    split
    · exact t.size_values.trans ht
    · exact hp.size_best hiteration
  refine (keeps_bounds_setValues h hbest).bind fun _ _ => ?_
  exact (keeps_onStore h.sync).bind fun _ _ => Keeps.pure trivial

/-- **A run fails only where its store fails**, or because it is cancelled: all its indices are in
bounds. -/
theorem keeps_bounds_optimize (h : StoreBounds n E I) (d : Descent) {cancelled : Nat → Bool}
    (hcancelled : ∀ n, cancelled n = true → E (.cancelled n)) :
    Keeps (fun r : Run σ => I r.store) (fun _ => True) E (optimize d cancelled) := by
  refine (keeps_onStore h.beginRun).bind fun _ _ => (keeps_bounds_atoms h).bind fun t ht => ?_
  have hkinds : t.kinds.size = n := (Array.size_map ..).trans ht
  have hstart : Fits n t.kinds 0 (.start d.options t.kinds) :=
    ⟨Accumulators.fits_start _ _, fun h => absurd rfl h, fun h => absurd rfl h⟩
  refine (keeps_passesFrom (P := Fits n t.kinds) (fun m p hp => keeps_bounds_pass h hkinds hp)
    hcancelled hstart).bind fun q hq => ?_
  have hpositive : 0 < maxPasses d.options := Nat.lt_of_lt_of_le Nat.two_pos (Nat.le_max_left ..)
  exact keeps_bounds_settle h hq.2.2 (Nat.pos_iff_ne_zero.mp (hq.2.1 hpositive))

end Descent

end HingeLoss

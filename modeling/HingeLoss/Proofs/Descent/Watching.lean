import HingeLoss.Descent.Watched
import HingeLoss.Proofs.Descent.BestValues
import HingeLoss.Proofs.Descent.Bounds

/-!
# HingeLoss.Proofs.Descent.Watching

The passes of a watched run, one after the other.

`Watched watcher d s n p done r` says that a watched run from the store `s` has completed `n`
passes, that the last one has handed on `p` and told by `done` whether the run ends, and that it has
left the run `r`.

1. A run decides to end with its second pass at the earliest, and at the latest with the one behind
   its limit, whatever its other conditions come to.
2. So a run in which nothing fails ends because it has decided to, and never because its passes are
   used up (`NoneFails.exists_optimizeWatched`).
3. Nothing fails on stores that list terms about their atoms and can be committed, if the watcher
   leaves them so (`noneFails_of_bounds`).
4. With a watcher that does nothing, it is the run that no one watches (`optimizeWatched_idle`).
-/

namespace HingeLoss

namespace Descent

variable {σ : Type} [TermStore σ] {watcher : Nat → σ → σ} {d : Descent} {o : DescentOptions}
  {unobserved n : Nat} {s : σ} {p q : Progress} {done : Bool} {r r' : Run σ}

/-! ## One pass -/

/-- A run that is to use all its passes ends behind its limit only. -/
theorem shouldStop_of_runFullIterations (h : o.runFullIterations = true)
    (objective previous : Double) (gradient : Array Single) (movement : Single) (terms : Nat) :
    shouldStop o n objective previous gradient movement terms = decide (o.iterationLimit < n) := by
  by_cases hlimit : o.iterationLimit < n
  · rw [shouldStop, if_pos hlimit, decide_eq_true hlimit]
  · rw [shouldStop, if_neg hlimit, if_pos h, decide_eq_false hlimit]

theorem handOver_apply (watcher : Nat → σ → σ) (pass : Pass) (r : Run σ) :
    handOver watcher pass r =
      .ok (TermStore.atoms (TermStore.endPass (watcher pass.iteration r.store))).values
        ⟨TermStore.endPass (watcher pass.iteration r.store), r.passes.push pass⟩ :=
  rfl

/-- What a watched pass does that succeeds: it sweeps over the terms, hands the store over, and goes
on with the values that the store has then. -/
theorem watchedPass_eq_ok (h : watchedPass watcher o unobserved n p r = .ok (q, done) r') :
    ∃ a r₁ m, sweepStore (context o (TermStore.atoms r.store).kinds n p) (startState p) r =
        .ok a r₁ ∧
      r' = ⟨TermStore.endPass (watcher n r₁.store), r₁.passes.push ⟨n, a.values, m⟩⟩ ∧
      (n = 1 ∧ q = p.begin { a with values := (TermStore.atoms r'.store).values } ∧ done = false ∨
        n ≠ 1 ∧ q = p.next n { a with values := (TermStore.atoms r'.store).values } ∧
          (o.iterationLimit < n → done = true) ∧
          (o.runFullIterations = true → done = true → o.iterationLimit < n)) := by
  unfold watchedPass at h
  obtain ⟨t, _, ht, h⟩ := bind_eq_ok h
  injection ht with ht hr
  subst ht hr
  obtain ⟨a, r₁, hsweep, h⟩ := bind_eq_ok h
  by_cases hfirst : n = 1
  · rw [if_pos hfirst] at h
    injection h with h₁ h₂
    injection h₁ with hq hdone
    exact ⟨a, r₁, none, hsweep, h₂.symm, .inl ⟨hfirst, h₂ ▸ hq.symm, hdone.symm⟩⟩
  · rw [if_neg hfirst] at h
    obtain ⟨values, r₂, hhand, h⟩ := bind_eq_ok h
    injection hhand with hvalues hr₂
    subst hvalues hr₂
    cases hsize : requireSize (TermStore.atoms (TermStore.endPass (watcher n r₁.store))).values
        p.previous with
    | error e =>
      simp only [hsize] at h
      contradiction
    | ok _ =>
      simp only [hsize] at h
      injection h with h₁ h₂
      injection h₁ with hq hdone
      refine ⟨a, r₁, _, hsweep, h₂.symm, .inr ⟨hfirst, h₂ ▸ hq.symm, fun hlimit => ?_,
        fun hfull hends => ?_⟩⟩
      · rw [← hdone, shouldStop, if_pos hlimit]
      · rw [← hdone, shouldStop_of_runFullIterations hfull] at hends
        exact of_decide_eq_true hends

/-! ## All passes -/

/-- The number of atoms that a run may move. -/
def unobservedAtoms (s : σ) : Nat := (TermStore.atoms s).kinds.countP (!·.isObserved)

/-- Where a watched run stands after a number of passes, if it is not cancelled. -/
inductive Watched (watcher : Nat → σ → σ) (d : Descent) (s : σ) :
    Nat → Progress → Bool → Run σ → Prop
  | start {s₀ : σ} : TermStore.beginRun s = .ok () s₀ →
      Watched watcher d s 0 (.start d.options (TermStore.atoms s).kinds) false ⟨s₀, #[]⟩
  | pass {n : Nat} {p q : Progress} {done : Bool} {r r' : Run σ} : Watched watcher d s n p false r →
      watchedPass watcher d.options (unobservedAtoms s) (n + 1) p r = .ok (q, done) r' →
      Watched watcher d s (n + 1) q done r'

namespace Watched

/-- A run that goes on has not used up its passes. -/
theorem lt_maxPasses (h : Watched watcher d s n p false r) : n < maxPasses d.options := by
  have htwo : 2 ≤ maxPasses d.options := Nat.le_max_left ..
  cases h with
  | start => omega
  | pass _ hpass =>
    obtain ⟨_, _, _, _, _, h | h⟩ := watchedPass_eq_ok hpass
    · omega
    · have hlimit : ¬ d.options.iterationLimit < _ := fun hlimit => nomatch h.2.2.1 hlimit
      have hmax : d.options.iterationLimit + 1 ≤ maxPasses d.options := Nat.le_max_right ..
      omega

theorem le_maxPasses (h : Watched watcher d s n p done r) : n ≤ maxPasses d.options := by
  cases h with
  | start => omega
  | pass hbefore _ => exact hbefore.lt_maxPasses

/-- A run ends with its second pass at the earliest. -/
theorem two_le (h : Watched watcher d s n p true r) : 2 ≤ n := by
  cases h with
  | pass _ hpass =>
    obtain ⟨_, _, _, _, _, h | h⟩ := watchedPass_eq_ok hpass
    · nomatch h.2.2
    · omega

/-- A run that is to use all its passes does so. -/
theorem eq_maxPasses (h : Watched watcher d s n p true r)
    (hfull : d.options.runFullIterations = true) : n = maxPasses d.options := by
  have htwo := h.two_le
  have hle := h.le_maxPasses
  cases h with
  | pass _ hpass =>
    obtain ⟨_, _, _, _, _, h | h⟩ := watchedPass_eq_ok hpass
    · nomatch h.2.2
    · have hlimit := h.2.2.2 hfull rfl
      exact Nat.le_antisymm hle (Nat.max_le.mpr ⟨htwo, hlimit⟩)

/-- The best values so far are those of a pass that has been completed. -/
theorem best_le (h : Watched watcher d s n p done r) : p.best.iteration ≤ n := by
  induction h with
  | start => exact Nat.le_refl 0
  | @pass n p r q done r' _ hpass ih =>
    obtain ⟨_, _, _, _, _, ⟨_, rfl, _⟩ | ⟨_, rfl, _⟩⟩ := watchedPass_eq_ok hpass
    · exact Nat.zero_le _
    · simp only [Progress.next, Snapshot.offer]
      split
      · exact Nat.le_succ n
      · exact Nat.le_succ_of_le ih

/-- What a run and its watcher keep of a store, if other values do not matter to it. -/
theorem keeps_of_setValues {J : σ → Prop} (hbegin : Preserves J TermStore.beginRun)
    (hterms : Preserves J TermStore.terms)
    (hvalues : ∀ values, Preserves J (TermStore.onAtoms (AtomTable.setValues values)))
    (hend : ∀ s, J s → J (TermStore.endPass s)) (hwatcher : ∀ n s, J s → J (watcher n s))
    (hs : J s) (h : Watched watcher d s n p done r) : J r.store := by
  induction h with
  | start hrun => exact (hbegin.ok hs hrun).2
  | pass _ hpass ih =>
    obtain ⟨_, r₁, _, hsweep, rfl, _⟩ := watchedPass_eq_ok hpass
    have hsweeps := keeps_sweepStore hterms hvalues
    exact hend _ (hwatcher _ _ ((hsweeps _ _).ok ih hsweep).2)

/-- What a run and its watcher keep of a store, if other atoms do not matter to it. -/
theorem keeps {J : σ → Prop} (hbegin : Preserves J TermStore.beginRun)
    (hterms : Preserves J TermStore.terms)
    (hatoms : ∀ t s, t.size = (TermStore.atoms s).size → J s → J (TermStore.withAtoms t s))
    (hend : ∀ s, J s → J (TermStore.endPass s)) (hwatcher : ∀ n s, J s → J (watcher n s))
    (hs : J s) (h : Watched watcher d s n p done r) : J r.store :=
  h.keeps_of_setValues hbegin hterms
    (fun values => keeps_onAtoms (AtomTable.keeps_size_setValues · values) hatoms) hend hwatcher hs

variable [LawfulTermStore σ]

/-- The watcher has been told of each pass, in order. -/
theorem calls_eq (h : Watched watcher d s n p done r) :
    r.passes.toList.map (·.iteration) = List.range' 1 n := by
  induction h with
  | start => rfl
  | @pass n p r q done r' _ hpass ih =>
    obtain ⟨a, r₁, m, hsweep, rfl, _⟩ := watchedPass_eq_ok hpass
    obtain ⟨_, _, _, _, _, _, _, hpasses⟩ := sweepStore_eq_ok hsweep
    rw [hpasses, Array.toList_push, List.map_append, ih, List.range'_1_concat, Nat.add_comm n 1]
    rfl

/-- The number of terms is that of the listing that the last pass has gone through. -/
theorem exists_listing (h : Watched watcher d s (n + 1) p done r) :
    ∃ q r₀ items t, Watched watcher d s n q false r₀ ∧ TermStore.terms r₀.store = .ok items t ∧
      (∀ e, .error e ∉ items) ∧ p.termCount = items.length := by
  cases h with
  | @pass _ q p done r₀ r hbefore hpass =>
    obtain ⟨a, _, _, hsweep, _, hp⟩ := watchedPass_eq_ok hpass
    obtain ⟨items, t, hterms, _, hrun, _⟩ := sweepStore_eq_ok hsweep
    obtain ⟨hvisited, hitems⟩ := PassContext.sweep_visits hrun
    refine ⟨q, r₀, items, t, hbefore, hterms, hitems, ?_⟩
    have hcount : p.termCount = a.visited := by
      obtain ⟨_, rfl, _⟩ | ⟨_, rfl, _⟩ := hp <;> rfl
    rw [hcount, hvisited]
    exact Nat.zero_add _

end Watched

/-- A run that has begun makes its passes and settles what they have come to. -/
theorem optimizeWatched_eq [LawfulTermStore σ] {s₀ : σ} (hbegin : TermStore.beginRun s = .ok () s₀)
    (watcher : Nat → σ → σ) (d : Descent) (cancelled : Nat → Bool) :
    optimizeWatched watcher d cancelled ⟨s, #[]⟩ =
      (watchedFrom watcher d.options cancelled (unobservedAtoms s) (maxPasses d.options) 1
        (.start d.options (TermStore.atoms s).kinds) >>= fun q => settle q.1 q.2) ⟨s₀, #[]⟩ := by
  have hatoms := LawfulTermStore.atoms_of_beginRun hbegin
  have hstart : onStore TermStore.beginRun (⟨s, #[]⟩ : Run σ) = .ok () ⟨s₀, #[]⟩ := by
    simp only [onStore, hbegin]
  have htable : atoms (⟨s₀, #[]⟩ : Run σ) = .ok (TermStore.atoms s) ⟨s₀, #[]⟩ := by
    rw [← hatoms]
    rfl
  unfold optimizeWatched
  rw [bind_ok hstart, bind_ok htable]
  rfl

/-! ## Runs in which nothing fails -/

/-- A store on which no operation of a watched run fails. -/
structure NoneFails (watcher : Nat → σ → σ) (d : Descent) (s : σ) : Prop where
  begins : succeeds (TermStore.beginRun s) = true
  passes : ∀ {n p r}, Watched watcher d s n p false r →
    succeeds (watchedPass watcher d.options (unobservedAtoms s) (n + 1) p r) = true
  settles : ∀ {n p r}, Watched watcher d s n p true r → succeeds (settle n p r) = true

namespace NoneFails

/-- The passes of a run end with one that has decided to end it. -/
theorem exists_watchedFrom (h : NoneFails watcher d s) (hr : Watched watcher d s n p false r)
    {left : Nat} (hleft : n + left = maxPasses d.options) :
    ∃ m q r', watchedFrom watcher d.options (fun _ => false) (unobservedAtoms s) left (n + 1) p r =
        .ok (m, q) r' ∧ Watched watcher d s m q true r' := by
  induction left generalizing n p r with
  | zero =>
    have hlt := hr.lt_maxPasses
    omega
  | succ left ih =>
    obtain ⟨⟨q, done⟩, hpass⟩ := eq_ok_of_succeeds (h.passes hr)
    have hnext := hr.pass hpass
    unfold watchedFrom
    rw [bind_ok (checkCancelled_of_false rfl r), bind_ok hpass]
    cases done with
    | true => exact ⟨_, _, _, rfl, hnext⟩
    | false => exact ih hnext (by omega)

/-- **A run in which nothing fails succeeds.**  It settles what its last pass has come to, which is
the one that has decided to end it. -/
theorem exists_optimizeWatched [LawfulTermStore σ] (h : NoneFails watcher d s) :
    ∃ n p r report r', Watched watcher d s n p true r ∧ settle n p r = .ok report r' ∧
      optimizeWatched watcher d (fun _ => false) ⟨s, #[]⟩ = .ok report r' := by
  obtain ⟨s₀, hbegin⟩ : ∃ s₀, TermStore.beginRun s = .ok () s₀ :=
    (eq_ok_of_succeeds h.begins).elim fun _ hbegin => ⟨_, hbegin⟩
  obtain ⟨n, p, r, hpasses, hends⟩ := h.exists_watchedFrom (.start hbegin) (Nat.zero_add _)
  obtain ⟨report, hsettle⟩ := eq_ok_of_succeeds (h.settles hends)
  refine ⟨n, p, r, report, _, hends, hsettle, ?_⟩
  rw [optimizeWatched_eq hbegin]
  exact (bind_ok hpasses).trans hsettle

end NoneFails

/-! ### Where nothing fails -/

section Bounds

variable [LawfulTermStore σ] {E : Fault → Prop} {I : σ → Prop} {size : Nat}
  {kinds : Array AtomKind}

/-- A watched pass over a store that does not fail succeeds, and leaves such a store. -/
theorem exists_watchedPass (h : StoreBounds size E I) (hE : ∀ e, ¬ E e)
    (hwatcher : ∀ n s, I s →
      I (watcher n s) ∧ (TermStore.atoms (watcher n s)).kinds = (TermStore.atoms s).kinds)
    (hp : Fits size kinds n p) (hr : I r.store) (hkinds : (TermStore.atoms r.store).kinds = kinds) :
    ∃ q done r', watchedPass watcher o unobserved (n + 1) p r = .ok (q, done) r' ∧
      Fits size kinds (n + 1) q ∧ I r'.store ∧ (TermStore.atoms r'.store).kinds = kinds := by
  have hsize : kinds.size = size := by
    rw [← hkinds, ← h.size_eq hr]
    exact Array.size_map ..
  have hsweep := keeps_bounds_sweepStore h (fits_context (o := o) hsize hp)
    (fun values hvalues => fits_startState hp hvalues) r hr
  cases hrun : sweepStore (context o kinds (n + 1) p) (startState p) r with
  | error e r₁ =>
    rw [hrun] at hsweep
    exact absurd hsweep.1 (hE e)
  | ok a r₁ =>
    rw [hrun] at hsweep
    obtain ⟨ha, hr₁⟩ := hsweep
    obtain ⟨_, _, _, _, _, _, hatoms, _⟩ := sweepStore_eq_ok hrun
    obtain ⟨hseen, hseenKinds⟩ := hwatcher (n + 1) r₁.store hr₁
    have hleft := h.endPass hseen
    have hleftKinds : (TermStore.atoms (TermStore.endPass (watcher (n + 1) r₁.store))).kinds =
        kinds := by
      rw [LawfulTermStore.atoms_endPass, hseenKinds, AtomTable.kinds, hatoms, ← hkinds,
        AtomTable.kinds]
    -- what is handed on has the values that the watcher has left
    have hvalues := (TermStore.atoms
      (TermStore.endPass (watcher (n + 1) r₁.store))).size_values.trans (h.size_eq hleft)
    have hlive : PassState.Fits size (context o kinds (n + 1) p) { a with values :=
        (TermStore.atoms (TermStore.endPass (watcher (n + 1) r₁.store))).values } :=
      ⟨hvalues, ha.size_gradient, ha.accumulators, ha.held⟩
    have hatomsOf : atoms r = .ok (TermStore.atoms r.store) r := rfl
    unfold watchedPass
    rw [bind_ok hatomsOf, hkinds, bind_ok hrun]
    by_cases hfirst : n = 0
    · subst hfirst
      rw [if_pos rfl, bind_ok (handOver_apply ..)]
      exact ⟨_, _, _, rfl, fits_begin hlive, hleft, hleftKinds⟩
    · have hprevious := hvalues.trans (hp.size_previous hfirst).symm
      have hnext : requireSize (TermStore.atoms
          (TermStore.endPass (watcher (n + 1) r₁.store))).values p.previous = .ok () :=
        if_pos hprevious
      rw [if_neg (by omega), bind_ok (handOver_apply ..), hnext]
      exact ⟨_, _, _, rfl, hp.next hfirst hlive, hleft, hleftKinds⟩

/-- **Nothing fails on a store that lists terms about its atoms and can be committed**, if the
watcher leaves it so and the kinds of its atoms alone. -/
theorem noneFails_of_bounds (h : StoreBounds size E I) (hE : ∀ e, ¬ E e)
    (hwatcher : ∀ n s, I s →
      I (watcher n s) ∧ (TermStore.atoms (watcher n s)).kinds = (TermStore.atoms s).kinds)
    (hs : I s) (d : Descent) : NoneFails watcher d s := by
  have hbegin := h.beginRun s hs
  have hreached {n p done r} (hr : Watched watcher d s n p done r) :
      Fits size (TermStore.atoms s).kinds n p ∧ I r.store ∧
        (TermStore.atoms r.store).kinds = (TermStore.atoms s).kinds := by
    induction hr with
    | start hrun =>
      rw [hrun] at hbegin
      have hatoms := LawfulTermStore.atoms_of_beginRun hrun
      exact ⟨⟨Accumulators.fits_start _ _, fun h => absurd rfl h, fun h => absurd rfl h⟩,
        hbegin.2, congrArg AtomTable.kinds hatoms⟩
    | pass _ hpass ih =>
      obtain ⟨q', done', u, hrun, hq, hu, hkinds⟩ :=
        exists_watchedPass h hE hwatcher ih.1 ih.2.1 ih.2.2
      rw [hpass] at hrun
      injection hrun with hq' hr'
      injection hq' with hq' _
      exact ⟨hq' ▸ hq, hr' ▸ hu, hr' ▸ hkinds⟩
  refine ⟨?_, fun hr => ?_, fun {n p r} hr => ?_⟩
  · cases hrun : TermStore.beginRun s with
    | ok _ s₀ => rfl
    | error e s₀ =>
      rw [hrun] at hbegin
      exact absurd hbegin.1 (hE e)
  · obtain ⟨hp, hstore, hkinds⟩ := hreached hr
    obtain ⟨q, done, r', hpass, _⟩ := exists_watchedPass h hE hwatcher hp hstore hkinds
    rw [hpass]
    rfl
  · obtain ⟨hp, hstore, _⟩ := hreached hr
    have hsettle := keeps_bounds_settle h hp (by have := hr.two_le; omega) _ hstore
    cases hrun : settle n p r with
    | ok report r' => rfl
    | error e r' =>
      rw [hrun] at hsettle
      exact absurd hsettle.1 (hE e)

end Bounds

/-! ## Runs that no one watches -/

section Idle

variable [LawfulTermStore σ]

/-- A pass with a watcher that does nothing is one that no one watches. -/
theorem watchedPass_idle {kinds : Array AtomKind}
    (hkinds : (TermStore.atoms r.store).kinds = kinds) :
    watchedPass (fun _ s => s) o (kinds.countP (!·.isObserved)) n p r = pass o kinds n p r := by
  have hatomsOf : atoms r = .ok (TermStore.atoms r.store) r := rfl
  unfold watchedPass pass
  rw [bind_ok hatomsOf, hkinds]
  refine bind_apply_congr rfl fun a r₁ hrun => ?_
  obtain ⟨_, _, _, _, _, hlive, _, _⟩ := sweepStore_eq_ok hrun
  have hvalues : (TermStore.atoms (TermStore.endPass r₁.store)).values = a.values := by
    rw [LawfulTermStore.atoms_endPass, hlive]
  by_cases hfirst : n = 1
  · rw [if_pos hfirst, if_pos hfirst, bind_ok (handOver_apply ..), hvalues]
    rfl
  · rw [if_neg hfirst, if_neg hfirst, bind_ok (handOver_apply ..)]
    simp only [hvalues]
    rfl

/-- A run with a watcher that does nothing makes the same passes. -/
theorem watchedFrom_idle {kinds : Array AtomKind} (hkinds : (TermStore.atoms r.store).kinds = kinds)
    (cancelled : Nat → Bool) (left : Nat) :
    watchedFrom (fun _ s => s) o cancelled (kinds.countP (!·.isObserved)) left n p r =
      passesFrom o kinds cancelled left n p r := by
  induction left generalizing n p r with
  | zero => rfl
  | succ left ih =>
    unfold watchedFrom passesFrom
    refine bind_apply_congr rfl fun _ r₁ hcheck => ?_
    obtain ⟨_, rfl⟩ := checkCancelled_eq_ok hcheck
    refine bind_apply_congr (watchedPass_idle hkinds) fun q r₂ hpass => ?_
    obtain ⟨q, done⟩ := q
    cases done with
    | true => rfl
    | false =>
      refine ih ?_
      obtain ⟨_, r₃, _, hsweep, rfl, _⟩ := pass_eq_ok hpass
      obtain ⟨_, _, _, _, _, _, hatoms, _⟩ := sweepStore_eq_ok hsweep
      rw [LawfulTermStore.atoms_endPass, AtomTable.kinds, hatoms, ← hkinds, AtomTable.kinds]

/-- **A run whose watcher does nothing is one that no one watches.** -/
theorem optimizeWatched_idle (d : Descent) (cancelled : Nat → Bool) :
    optimizeWatched (fun _ s => s) d cancelled = optimize (σ := σ) d cancelled := by
  funext r
  refine bind_apply_congr rfl fun _ r₁ _ => bind_apply_congr rfl fun t r₂ ht => ?_
  injection ht with ht hr
  subst ht hr
  exact bind_apply_congr (watchedFrom_idle rfl cancelled (maxPasses d.options)) fun _ _ _ => rfl

end Idle

end Descent

end HingeLoss

import HingeLoss.Proofs.Descent.Failing
import HingeLoss.Proofs.Descent.Watching

/-!
# HingeLoss.Proofs.Descent.Cancelling

Runs that are cut off.

A run looks at the start of each pass whether it has been cancelled, and nowhere else.

1. Up to there it makes the passes that it makes when nobody cancels it: from where `n` of these have
   led, the cancelled run and the other one go on (`Watched.watchedFrom_eq`).
2. Passes that have been noted down stay so, whatever becomes of the run.  So those of the cancelled
   run are the first ones of the other.
3. Nothing is measured, kept or committed behind the last pass (`optimizeWatched_cancelled`).
-/

namespace HingeLoss

namespace Descent

variable {σ : Type} [TermStore σ] {watcher : Nat → σ → σ} {d : Descent} {o : DescentOptions}
  {s : σ} {n m : Nat} {p q : Progress} {done : Bool} {r r' : Run σ} {cancelled : Nat → Bool}

/-! ## Going on -/

namespace Watched

theorem exists_begin (h : Watched watcher d s n p done r) :
    ∃ s₀, TermStore.beginRun s = .ok () s₀ := by
  induction h with
  | start hbegin => exact ⟨_, hbegin⟩
  | pass _ _ ih => exact ih

/-- Passes go on from where the first of them have led, if these have not been cancelled. -/
theorem watchedFrom_eq {s₀ : σ} (hbegin : TermStore.beginRun s = .ok () s₀)
    (h : Watched watcher d s n p false r) (hbefore : ∀ i, 1 ≤ i → i ≤ n → cancelled i = false)
    {left total : Nat} (htotal : n + left = total) :
    watchedFrom watcher d.options cancelled (unobservedAtoms s) total 1
        (.start d.options (TermStore.atoms s).kinds) ⟨s₀, #[]⟩ =
      watchedFrom watcher d.options cancelled (unobservedAtoms s) left (n + 1) p r := by
  generalize hgoes : false = done at h
  induction h generalizing left with
  | start hrun =>
    rw [hrun] at hbegin
    injection hbegin with _ hs
    rw [hs, ← htotal, Nat.zero_add]
  | @pass n p q done r r' _ hpass ih =>
    subst hgoes
    have hsplit : n + (left + 1) = total := by omega
    have hgo := ih (fun i h₁ hi => hbefore i h₁ (Nat.le_succ_of_le hi)) hsplit rfl
    have hcheck := checkCancelled_of_false (hbefore (n + 1) (Nat.le_add_left 1 n) (Nat.le_refl _)) r
    rw [hgo, watchedFrom, bind_ok hcheck, bind_ok hpass]
    rfl

/-- A run goes on from where its passes have led, and there is a pass left. -/
theorem optimizeWatched_goesOn [LawfulTermStore σ] (h : Watched watcher d s n p false r)
    (hbefore : ∀ i, 1 ≤ i → i ≤ n → cancelled i = false) :
    ∃ left, optimizeWatched watcher d cancelled ⟨s, #[]⟩ =
      (watchedFrom watcher d.options cancelled (unobservedAtoms s) (left + 1) (n + 1) p >>=
        fun q => settle q.1 q.2) r := by
  obtain ⟨s₀, hbegin⟩ := h.exists_begin
  obtain ⟨left, htotal⟩ := Nat.exists_eq_add_of_lt h.lt_maxPasses
  rw [optimizeWatched_eq hbegin]
  exact ⟨left, bind_congr_outcome (h.watchedFrom_eq hbegin hbefore htotal.symm)⟩

/-- The passes of a run that is not cancelled end with one that has decided to end it. -/
theorem of_watchedFrom {left : Nat} (h : Watched watcher d s n p false r)
    (hleft : n + left = maxPasses d.options)
    (hrun : watchedFrom watcher d.options (fun _ => false) (unobservedAtoms s) left (n + 1) p r =
      .ok (m, q) r') : Watched watcher d s m q true r' := by
  induction left generalizing n p r with
  | zero =>
    have hlt := h.lt_maxPasses
    omega
  | succ left ih =>
    rw [watchedFrom, bind_ok (checkCancelled_of_false rfl r)] at hrun
    obtain ⟨⟨p₁, done⟩, r₁, hpass, hrun⟩ := bind_eq_ok hrun
    have h₁ := h.pass hpass
    cases done with
    | true =>
      injection hrun with hmq hr
      injection hmq with hm hq
      subst hm hq hr
      exact h₁
    | false => exact ih h₁ (by omega) hrun

/-- A run that ends has made each of its passes. -/
theorem exists_before (h : Watched watcher d s n p done r) (hm : m < n) :
    ∃ q u, Watched watcher d s m q false u := by
  induction h with
  | start => omega
  | @pass n p q done r r' hbefore _ ih =>
    by_cases hlast : m = n
    · exact hlast ▸ ⟨p, r, hbefore⟩
    · exact ih (by omega)

end Watched

/-! ## What has been noted down -/

section Noted

variable (ps : List Pass) {unobserved : Nat}

omit [TermStore σ] in
/-- What is done to the store does not change what has been noted down. -/
theorem prefix_onStore {α : Type} (x : EStateM Fault σ α) :
    Preserves (fun u : Run σ => ps <+: u.passes.toList) (onStore x) := by
  refine .of_finalState fun u hu => ?_
  unfold onStore
  cases x u.store <;> exact hu

theorem prefix_handOver (pass : Pass) :
    Preserves (fun u : Run σ => ps <+: u.passes.toList) (handOver watcher pass) := by
  refine .of_finalState fun u hu => ?_
  rw [handOver_apply, finalState_ok, Array.toList_push]
  exact hu.trans (List.prefix_append _ _)

theorem prefix_watchedPass : Preserves (fun u : Run σ => ps <+: u.passes.toList)
    (watchedPass watcher o unobserved n p) := by
  have hsweep (c : PassContext) (start : Array Single → PassState) :
      Preserves (fun u : Run σ => ps <+: u.passes.toList) (sweepStore c start) :=
    keeps_sweepStore_of_onStore (prefix_onStore ps _) (fun _ => prefix_onStore ps _) c start
  refine keeps_atoms_bind fun t => (hsweep _ _).bind fun a _ => ?_
  split
  · exact (prefix_handOver ps _).bind fun _ _ => Keeps.pure trivial
  · refine (prefix_handOver ps _).bind fun values _ => ?_
    cases requireSize values p.previous with
    | error e => exact Keeps.throw trivial
    | ok _ => exact Keeps.pure trivial

theorem prefix_watchedFrom {left : Nat} : Preserves (fun u : Run σ => ps <+: u.passes.toList)
    (watchedFrom watcher o cancelled unobserved left n p) := by
  induction left generalizing n p with
  | zero => exact Keeps.pure trivial
  | succ left ih =>
    refine (keeps_checkCancelled fun _ => trivial).bind fun _ _ => ?_
    refine (prefix_watchedPass ps).bind fun ⟨q, done⟩ _ => ?_
    cases done with
    | true => exact Keeps.pure trivial
    | false => exact ih

theorem prefix_settle :
    Preserves (fun u : Run σ => ps <+: u.passes.toList) (settle n p) :=
  keeps_settle_of_onStore (prefix_onStore ps _) (fun _ => prefix_onStore ps _) (prefix_onStore ps _)

end Noted

section Lawful

variable [LawfulTermStore σ]

namespace Watched

/-- What a run notes down begins with the passes that it has made. -/
theorem passes_eq_take (h : Watched watcher d s n p false r) :
    r.passes.toList =
      (finalState (optimizeWatched watcher d (fun _ => false) ⟨s, #[]⟩)).passes.toList.take n := by
  have hnever (i : Nat) (_ : 1 ≤ i) (_ : i ≤ n) : (fun _ => false) i = false := rfl
  obtain ⟨left, hgo⟩ := h.optimizeWatched_goesOn hnever
  have hkeeps : Preserves (fun u : Run σ => r.passes.toList <+: u.passes.toList)
      (watchedFrom watcher d.options (fun _ => false) (unobservedAtoms s) (left + 1) (n + 1) p >>=
        fun q => settle q.1 q.2) :=
    (prefix_watchedFrom _).bind fun q _ =>
      prefix_settle r.passes.toList
  have htake := List.prefix_iff_eq_take.mp (hkeeps.finalState (List.prefix_refl r.passes.toList))
  have hlength : r.passes.toList.length = n := by
    rw [← List.length_map, h.calls_eq, List.length_range']
  rw [hlength] at htake
  rw [hgo]
  exact htake

/-- A run that succeeds comes to the start of each pass up to its last one. -/
theorem exists_of_optimizeWatched {report : Report}
    (hrun : optimizeWatched watcher d (fun _ => false) ⟨s, #[]⟩ = .ok report r')
    (hn : n < report.iterations) : ∃ p r, Watched watcher d s n p false r := by
  obtain ⟨_, ⟨s₀, ps⟩, hbegin, _⟩ := bind_eq_ok hrun
  obtain ⟨hbegin, rfl⟩ := onStore_eq_ok hbegin
  rw [optimizeWatched_eq hbegin] at hrun
  obtain ⟨⟨m, q⟩, u, hpasses, hsettle⟩ := bind_eq_ok hrun
  obtain ⟨_, _, _, hm, _⟩ := settle_evaluates hsettle
  exact ((Watched.start hbegin).of_watchedFrom (Nat.zero_add _) hpasses).exists_before
    (Nat.lt_of_lt_of_eq hn hm)

/-- If the watcher leaves the values alone, they are those of the last pass. -/
theorem values_eq (h : Watched watcher d s n p done r)
    (hwatcher : ∀ i u, (TermStore.atoms (watcher i u)).values = (TermStore.atoms u).values) :
    (TermStore.atoms r.store).values =
      (r.passes.back?.map (·.values)).getD (TermStore.atoms s).values := by
  cases h with
  | start hbegin =>
    have hatoms := LawfulTermStore.atoms_of_beginRun hbegin
    rw [hatoms]
    rfl
  | pass _ hpass =>
    obtain ⟨a, r₁, m, hsweep, rfl, _⟩ := watchedPass_eq_ok hpass
    obtain ⟨_, _, _, _, _, hvalues, _, _⟩ := sweepStore_eq_ok hsweep
    rw [LawfulTermStore.atoms_endPass, hwatcher, hvalues, Array.back?_push]
    rfl

/-- If the watcher commits nothing, nothing is committed. -/
theorem sameCommit (h : Watched watcher d s n p done r)
    (hwatcher : ∀ i u, (TermStore.atoms u).IsSameCommit (TermStore.atoms (watcher i u))) :
    (TermStore.atoms s).IsSameCommit (TermStore.atoms r.store) := by
  refine h.keeps_of_setValues (J := fun u => (TermStore.atoms s).IsSameCommit (TermStore.atoms u))
    ?_ (sameCommit_terms _) (sameCommit_setValues _) (fun u hu => ?_) (fun i u hu => ?_) ⟨rfl, rfl⟩
  · exact .of_finalState fun u hu => by rwa [LawfulTermStore.atoms_beginRun]
  · rwa [LawfulTermStore.atoms_endPass]
  · have hsame := hwatcher i u
    exact ⟨hsame.atoms_eq.trans hu.atoms_eq, hsame.place_eq.trans hu.place_eq⟩

end Watched

/-! ## Cutting off -/

/-- **A run that is cancelled stops where its last pass has led.**  Say a run comes to the start of
pass `n + 1` when nobody cancels it, and has been cancelled there and not before.

1. It says that it has been cancelled at that pass, and is left as the other run comes to it.
2. It has made `n` passes, and its watcher has been told of each of them once; they are the first
   passes of the other run.
3. If the watcher leaves the values alone, those that stay are those after the last pass, or those
   of the start if there has been none.
4. If the watcher commits nothing, nothing has been committed: initial values, committed values and
   the disk of the atoms are those of the start. -/
theorem optimizeWatched_cancelled (hreach : Watched watcher d s n p false r)
    (hbefore : ∀ i, 1 ≤ i → i ≤ n → cancelled i = false) (hnow : cancelled (n + 1) = true) :
    optimizeWatched watcher d cancelled ⟨s, #[]⟩ = .error (.cancelled (n + 1)) r ∧
    r.passes.toList.map (·.iteration) = List.range' 1 n ∧
    r.passes.toList =
      (finalState (optimizeWatched watcher d (fun _ => false) ⟨s, #[]⟩)).passes.toList.take n ∧
    ((∀ i u, (TermStore.atoms (watcher i u)).values = (TermStore.atoms u).values) →
      (TermStore.atoms r.store).values =
        (r.passes.back?.map (·.values)).getD (TermStore.atoms s).values) ∧
    ((∀ i u, (TermStore.atoms u).IsSameCommit (TermStore.atoms (watcher i u))) →
      (TermStore.atoms s).IsSameCommit (TermStore.atoms r.store)) := by
  refine ⟨?_, hreach.calls_eq, hreach.passes_eq_take, hreach.values_eq, hreach.sameCommit⟩
  obtain ⟨left, hgo⟩ := hreach.optimizeWatched_goesOn hbefore
  rw [hgo, watchedFrom]
  exact bind_error (bind_error (checkCancelled_of_true hnow r))

/-- A run of four passes that is cancelled at the third. -/
theorem optimizeWatched_cancelled_swing :
    ∃ r, optimizeWatched (fun _ u => u) swingDescent (· = 3) ⟨swingStore, #[]⟩ =
        .error (.cancelled 3) r ∧
      r.passes.toList.map (·.iteration) = [1, 2] ∧ r.store.atoms.values = #[0.5] ∧
      r.store.atoms.committed = #[1] := by
  have hfull : onSuccess (fun report _ => report.iterations)
      (optimize swingDescent (fun _ => false) ⟨swingStore, #[]⟩) = some 4 := by
    decide +kernel
  obtain ⟨report, u, hrun, hfour⟩ := exists_of_onSuccess hfull
  rw [← optimizeWatched_idle] at hrun
  obtain ⟨p, r, hreach⟩ := Watched.exists_of_optimizeWatched (n := 2) hrun (by omega)
  have hbefore (i : Nat) (_ : 1 ≤ i) (hi : i ≤ 2) : (· = 3 : Nat → Bool) i = false :=
    decide_eq_false (by omega)
  obtain ⟨hcancelled, hcalls, -, -, hsame⟩ := optimizeWatched_cancelled hreach hbefore rfl
  have hvalues : onFailure (fun _ r => r.store.atoms.values)
      (optimizeWatched (fun _ u => u) swingDescent (· = 3) ⟨swingStore, #[]⟩) = some #[0.5] := by
    decide +kernel
  rw [hcancelled] at hvalues
  injection hvalues with hvalues
  have hstart : swingStore.atoms.committed = #[1] := by decide +kernel
  exact ⟨r, hcancelled, hcalls, hvalues,
    (hsame fun _ _ => ⟨rfl, rfl⟩).committed_eq.trans hstart⟩

end Lawful

end Descent

end HingeLoss

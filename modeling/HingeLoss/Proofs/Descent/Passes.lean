import HingeLoss.Descent.Run
import HingeLoss.Proofs.Atoms.Commit
import HingeLoss.Proofs.Store.Lawful

/-!
# HingeLoss.Proofs.Descent.Passes

The passes of a run, one after the other.

`After o kinds cancelled start n p done r` says that a run from `start` has completed `n` passes,
that the last one has handed on `p` and told by `done` whether the run ends, and that it has left
the run `r`.  Its rules are the start and one more pass, so what every pass preserves holds after
each of them, by induction.  The passes of a run that does not fail come to an end, and never
because they are used up: the last one has always decided to end.
-/

namespace HingeLoss

namespace Descent

section OnStore

variable {σ α : Type} {I : σ → Prop} {Q : α → Prop} {E : Fault → Prop}

theorem keeps_onStore {x : EStateM Fault σ α} (h : Keeps I Q E x) :
    Keeps (fun r : Run σ => I r.store) Q E (onStore x) := by
  intro r hr
  unfold onStore
  cases hx : x r.store with
  | ok a s => exact h.ok hr hx
  | error e s => exact h.error hr hx

theorem onStore_ok {x : EStateM Fault σ α} {r : Run σ} {a : α} {s : σ}
    (h : x r.store = .ok a s) : onStore x r = .ok a { r with store := s } := by
  simp only [onStore, h]

theorem onStore_error {x : EStateM Fault σ α} {r : Run σ} {e : Fault} {s : σ}
    (h : x r.store = .error e s) : onStore x r = .error e { r with store := s } := by
  simp only [onStore, h]

theorem onStore_eq_ok {x : EStateM Fault σ α} {r r' : Run σ} {a : α}
    (h : onStore x r = .ok a r') :
    x r.store = .ok a r'.store ∧ r'.passes = r.passes := by
  unfold onStore at h
  cases hx : x r.store with
  | ok b s =>
    rw [hx] at h
    injection h with h₁ h₂
    subst h₁ h₂
    exact ⟨rfl, rfl⟩
  | error e s => rw [hx] at h; contradiction

theorem onStore_eq_error {x : EStateM Fault σ α} {r r' : Run σ} {e : Fault}
    (h : onStore x r = .error e r') : x r.store = .error e r'.store := by
  unfold onStore at h
  cases hx : x r.store with
  | ok b s => rw [hx] at h; contradiction
  | error e' s =>
    rw [hx] at h
    injection h with h₁ h₂
    subst h₁ h₂
    rfl

/-- A pass that may start has not been cancelled. -/
theorem checkCancelled_eq_ok {cancelled : Nat → Bool} {iteration : Nat} {r r' : Run σ}
    (h : checkCancelled cancelled iteration r = .ok () r') :
    cancelled iteration = false ∧ r' = r := by
  unfold checkCancelled at h
  cases hcancelled : cancelled iteration with
  | true => rw [hcancelled] at h; contradiction
  | false =>
    rw [hcancelled] at h
    injection h with _ h
    exact ⟨rfl, h.symm⟩

theorem checkCancelled_of_false {cancelled : Nat → Bool} {iteration : Nat}
    (h : cancelled iteration = false) (r : Run σ) :
    checkCancelled cancelled iteration r = .ok () r := by
  rw [checkCancelled, h]
  rfl

theorem checkCancelled_of_true {cancelled : Nat → Bool} {iteration : Nat}
    (h : cancelled iteration = true) (r : Run σ) :
    checkCancelled cancelled iteration r = .error (.cancelled iteration) r := by
  rw [checkCancelled, if_pos h]
  rfl

/-- A look at the flag changes nothing. -/
theorem keeps_checkCancelled {I : Run σ → Prop} {cancelled : Nat → Bool} {iteration : Nat}
    (h : cancelled iteration = true → E (.cancelled iteration)) :
    Keeps I (fun _ => True) E (checkCancelled cancelled iteration) := by
  unfold checkCancelled
  split
  · next hcancelled => exact Keeps.throw (h hcancelled)
  · exact Keeps.pure trivial

end OnStore

section Store

variable {σ : Type} [TermStore σ]

theorem onAtoms_ok {α : Type} {op : EStateM Fault AtomTable α} {a : α} {s : σ} {t : AtomTable}
    (h : op (TermStore.atoms s) = .ok a t) :
    TermStore.onAtoms op s = .ok a (TermStore.withAtoms t s) := by
  simp only [TermStore.onAtoms, h]

theorem onAtoms_error {α : Type} {op : EStateM Fault AtomTable α} {e : Fault} {s : σ}
    {t : AtomTable} (h : op (TermStore.atoms s) = .error e t) :
    TermStore.onAtoms op s = .error e (TermStore.withAtoms t s) := by
  simp only [TermStore.onAtoms, h]

theorem onAtoms_eq_ok {α : Type} {op : EStateM Fault AtomTable α} {a : α} {s s' : σ}
    (h : TermStore.onAtoms op s = .ok a s') :
    ∃ t, op (TermStore.atoms s) = .ok a t ∧ s' = TermStore.withAtoms t s := by
  unfold TermStore.onAtoms at h
  cases hop : op (TermStore.atoms s) with
  | ok b t =>
    rw [hop] at h
    injection h with ha hs
    exact ⟨t, ha ▸ rfl, hs.symm⟩
  | error e t => rw [hop] at h; contradiction

theorem onAtoms_eq_error {α : Type} {op : EStateM Fault AtomTable α} {e : Fault} {s s' : σ}
    (h : TermStore.onAtoms op s = .error e s') :
    ∃ t, op (TermStore.atoms s) = .error e t ∧ s' = TermStore.withAtoms t s := by
  unfold TermStore.onAtoms at h
  cases hop : op (TermStore.atoms s) with
  | ok b t => rw [hop] at h; contradiction
  | error e' t =>
    rw [hop] at h
    injection h with he hs
    exact ⟨t, he ▸ rfl, hs.symm⟩

/-- An operation on the atoms that keeps their number keeps what new values do not matter to. -/
theorem keeps_onAtoms {α : Type} {op : EStateM Fault AtomTable α} {I : σ → Prop}
    (hop : ∀ n, Preserves (fun t : AtomTable => t.size = n) op)
    (hatoms : ∀ t s, t.size = (TermStore.atoms s).size → I s → I (TermStore.withAtoms t s)) :
    Preserves I (TermStore.onAtoms op) := by
  intro s hs
  have hsize := (hop (TermStore.atoms s).size).finalState (s := TermStore.atoms s) rfl
  unfold TermStore.onAtoms
  cases hrun : op (TermStore.atoms s) with
  | ok a t =>
    rw [hrun] at hsize
    exact ⟨trivial, hatoms t s hsize hs⟩
  | error e t =>
    rw [hrun] at hsize
    exact ⟨trivial, hatoms t s hsize hs⟩

/-! ## One pass -/

/-- What a pass does that succeeds: it sweeps over the terms, notes down the values that it has come
to, and hands them on. -/
theorem pass_eq_ok {o : DescentOptions} {kinds : Array AtomKind} {iteration : Nat} {p q : Progress}
    {done : Bool} {r r' : Run σ} (h : pass o kinds iteration p r = .ok (q, done) r') :
    ∃ s r₁ m, sweepStore (context o kinds iteration p) (startState p) r = .ok s r₁ ∧
      r' = ⟨TermStore.endPass r₁.store, r₁.passes.push ⟨iteration, s.values, m⟩⟩ ∧
      (iteration = 1 ∧ q = p.begin s ∧ done = false ∨
        iteration ≠ 1 ∧ q = p.next iteration s ∧ s.values.size = p.previous.size ∧
        (o.iterationLimit < iteration → done = true)) := by
  unfold pass at h
  obtain ⟨s, r₁, hsweep, h⟩ := bind_eq_ok h
  by_cases hfirst : iteration = 1
  · rw [if_pos hfirst] at h
    injection h with h₁ h₂
    injection h₁ with hq hdone
    exact ⟨s, r₁, none, hsweep, h₂.symm, .inl ⟨hfirst, hq.symm, hdone.symm⟩⟩
  · rw [if_neg hfirst] at h
    obtain ⟨_, r₂, hrecord, h⟩ := bind_eq_ok h
    injection hrecord with _ hrecord
    subst hrecord
    by_cases hsize : s.values.size = p.previous.size
    · rw [requireSize, if_pos hsize] at h
      injection h with h₁ h₂
      injection h₁ with hq hdone
      refine ⟨s, r₁, _, hsweep, h₂.symm, .inr ⟨hfirst, hq.symm, hsize, fun hlimit => ?_⟩⟩
      rw [← hdone, shouldStop, if_pos hlimit]
    · rw [requireSize, if_neg hsize] at h
      contradiction

/-! ## What passes keep -/

section Keeping

variable {o : DescentOptions} {kinds : Array AtomKind} {cancelled : Nat → Bool} {I : Run σ → Prop}
  {P : Nat → Progress → Prop} {S : PassState → Prop} {E : Fault → Prop} {n : Nat} {p : Progress}

/-- What a sweep keeps, and what its note keeps, a pass keeps. -/
theorem keeps_pass (hsweep : Keeps I S E (sweepStore (context o kinds n p) (startState p)))
    (hrecord : ∀ s m, S s → Keeps I (fun _ => True) E (record (σ := σ) ⟨n, s.values, m⟩))
    (hbegin : n = 1 → ∀ s, S s → P n (p.begin s))
    (hnext : n ≠ 1 → ∀ s, S s → P n (p.next n s))
    (hsize : n ≠ 1 → ∀ s, S s → s.values.size ≠ p.previous.size →
      E (.outOfBounds s.values.size p.previous.size)) :
    Keeps I (fun q => P n q.1) E (pass o kinds n p) := by
  refine hsweep.bind fun s hs => ?_
  by_cases hfirst : n = 1
  · rw [if_pos hfirst]
    exact (hrecord s _ hs).bind fun _ _ => Keeps.pure (hbegin hfirst s hs)
  · rw [if_neg hfirst]
    refine (hrecord s _ hs).bind fun _ _ => ?_
    by_cases hsame : s.values.size = p.previous.size
    · rw [requireSize, if_pos hsame]
      exact Keeps.pure (hnext hfirst s hs)
    · rw [requireSize, if_neg hsame]
      exact Keeps.throw (hsize hfirst s hs hsame)

/-- A look at the atoms changes nothing. -/
theorem keeps_atoms_bind {α : Type} {Q : α → Prop} {f : AtomTable → EStateM Fault (Run σ) α}
    (hf : ∀ t, Keeps I Q E (f t)) : Keeps I Q E (atoms >>= f) :=
  Keeps.bind (Q := fun _ => True) (fun _ hr => ⟨trivial, hr⟩) fun t _ => hf t

/-- What the steps of a sweep keep, a sweep keeps. -/
theorem keeps_sweepStore_of_onStore (hterms : Preserves I (onStore TermStore.terms))
    (hset : ∀ values, Preserves I (onStore (TermStore.onAtoms (AtomTable.setValues values))))
    (c : PassContext) (start : Array Single → PassState) : Preserves I (sweepStore c start) := by
  refine hterms.bind fun items _ => keeps_atoms_bind fun t => ?_
  split
  · exact (hset _).bind fun _ _ => Keeps.pure trivial
  · exact (hset _).bind fun _ _ => Keeps.throw trivial

/-- What listing and giving other values keep of a store, a sweep keeps. -/
theorem keeps_sweepStore {J : σ → Prop} (hterms : Preserves J TermStore.terms)
    (hvalues : ∀ values, Preserves J (TermStore.onAtoms (AtomTable.setValues values)))
    (c : PassContext) (start : Array Single → PassState) :
    Preserves (fun r : Run σ => J r.store) (sweepStore c start) :=
  keeps_sweepStore_of_onStore (keeps_onStore hterms) (fun values => keeps_onStore (hvalues values))
    c start

/-- What listing, giving other values and ending a pass keep of a store, a pass keeps. -/
theorem keeps_pass_of_setValues {J : σ → Prop} (hterms : Preserves J TermStore.terms)
    (hvalues : ∀ values, Preserves J (TermStore.onAtoms (AtomTable.setValues values)))
    (hend : ∀ s, J s → J (TermStore.endPass s)) :
    Preserves (fun r : Run σ => J r.store) (pass o kinds n p) :=
  keeps_pass (S := fun _ => True) (P := fun _ _ => True) (keeps_sweepStore hterms hvalues _ _)
    (fun _ _ _ => Keeps.modify fun r hr => hend r.store hr) (fun _ _ _ => trivial)
    (fun _ _ _ => trivial) fun _ _ _ _ => trivial

/-- A pass also keeps what does not depend on the values. -/
theorem keeps_pass_of_store {J : σ → Prop} (hterms : Preserves J TermStore.terms)
    (hatoms : ∀ t s, t.size = (TermStore.atoms s).size → J s → J (TermStore.withAtoms t s))
    (hend : ∀ s, J s → J (TermStore.endPass s)) :
    Preserves (fun r : Run σ => J r.store) (pass o kinds n p) :=
  keeps_pass_of_setValues hterms
    (fun values => keeps_onAtoms (AtomTable.keeps_size_setValues · values) hatoms) hend

theorem keeps_evaluate {J : σ → Prop} (hterms : Preserves J TermStore.terms) :
    Preserves J TermStore.evaluate := by
  refine hterms.bind fun items _ => Keeps.get.bind fun s _ => ?_
  split
  · exact Keeps.pure trivial
  · exact Keeps.throw trivial

/-- What the steps of its end keep, the end of a run keeps. -/
theorem keeps_settle_of_onStore (hevaluate : Preserves I (onStore TermStore.evaluate))
    (hset : ∀ values, Preserves I (onStore (TermStore.onAtoms (AtomTable.setValues values))))
    (hsync : Preserves I (onStore TermStore.sync)) : Preserves I (settle n p) := by
  refine hevaluate.bind fun last _ => keeps_atoms_bind fun t => ?_
  exact (hset _).bind fun _ _ => hsync.bind fun _ _ => Keeps.pure trivial

/-- The same keeps the end of a run. -/
theorem keeps_settle {J : σ → Prop} {iterations : Nat} (hterms : Preserves J TermStore.terms)
    (hatoms : ∀ t s, t.size = (TermStore.atoms s).size → J s → J (TermStore.withAtoms t s)) :
    Preserves (fun r : Run σ => J r.store) (settle iterations p) :=
  keeps_settle_of_onStore (keeps_onStore (keeps_evaluate hterms))
    (fun _ => keeps_onStore (keeps_onAtoms (AtomTable.keeps_size_setValues · _) hatoms))
    (keeps_onStore (keeps_onAtoms AtomTable.keeps_size_sync hatoms))

/-- What every pass keeps, all passes keep. -/
theorem keeps_passesFrom
    (hpass : ∀ n p, P n p → Keeps I (fun q => P (n + 1) q.1) E (pass o kinds (n + 1) p))
    (hcancelled : ∀ n, cancelled n = true → E (.cancelled n)) {left : Nat} (hp : P n p) :
    Keeps I (fun q => n ≤ q.1 ∧ (0 < left → n < q.1) ∧ P q.1 q.2) E
      (passesFrom o kinds cancelled left (n + 1) p) := by
  induction left generalizing n p with
  | zero => exact Keeps.pure ⟨Nat.le_refl n, fun h => absurd h (Nat.lt_irrefl 0), hp⟩
  | succ left ih =>
    refine (keeps_checkCancelled (hcancelled (n + 1))).bind fun _ _ => ?_
    refine (hpass n p hp).bind fun ⟨q, done⟩ hq => ?_
    cases done with
    | true => exact Keeps.pure ⟨Nat.le_succ n, fun _ => Nat.lt_succ_self n, hq⟩
    | false =>
      exact (ih hq).mono (fun r hr => ⟨Nat.le_of_succ_le hr.1, fun _ => hr.1, hr.2.2⟩) fun _ h => h

/-- What the steps of a run keep of a store, a run keeps. -/
theorem keeps_optimize_of_setValues {J : σ → Prop} (hbegin : Preserves J TermStore.beginRun)
    (hterms : Preserves J TermStore.terms)
    (hset : ∀ values, Preserves J (TermStore.onAtoms (AtomTable.setValues values)))
    (hsync : Preserves J TermStore.sync) (hend : ∀ s, J s → J (TermStore.endPass s))
    (d : Descent) : Preserves (fun r : Run σ => J r.store) (optimize d cancelled) := by
  refine (keeps_onStore hbegin).bind fun _ _ => keeps_atoms_bind fun table => ?_
  refine (keeps_passesFrom (P := fun _ _ => True)
    (fun n p _ => keeps_pass_of_setValues hterms hset hend) (fun _ _ => trivial)
    trivial).bind fun q _ => ?_
  exact keeps_settle_of_onStore (keeps_onStore (keeps_evaluate hterms))
    (fun values => keeps_onStore (hset values)) (keeps_onStore hsync)

/-- What beginning a run, listing and ending a pass keep of a store, and new values do not matter
to, a run keeps. -/
theorem keeps_optimize {J : σ → Prop} (hbegin : Preserves J TermStore.beginRun)
    (hterms : Preserves J TermStore.terms)
    (hatoms : ∀ t s, t.size = (TermStore.atoms s).size → J s → J (TermStore.withAtoms t s))
    (hend : ∀ s, J s → J (TermStore.endPass s)) (d : Descent) :
    Preserves (fun r : Run σ => J r.store) (optimize d cancelled) :=
  keeps_optimize_of_setValues hbegin hterms
    (fun values => keeps_onAtoms (AtomTable.keeps_size_setValues · values) hatoms)
    (keeps_onAtoms AtomTable.keeps_size_sync hatoms) hend d

end Keeping

/-! ## All passes -/

/-- Where a run stands after a number of passes. -/
inductive After (o : DescentOptions) (kinds : Array AtomKind) (cancelled : Nat → Bool)
    (start : Run σ) : Nat → Progress → Bool → Run σ → Prop where
  | start : After o kinds cancelled start 0 (.start o kinds) false start
  | pass {n p r q done r'} : After o kinds cancelled start n p false r →
      cancelled (n + 1) = false → pass o kinds (n + 1) p r = .ok (q, done) r' →
      After o kinds cancelled start (n + 1) q done r'

namespace After

variable {o : DescentOptions} {kinds : Array AtomKind} {cancelled : Nat → Bool} {start : Run σ}
  {n : Nat} {p : Progress} {done : Bool} {r : Run σ}

/-- A run that goes on has not used up its passes. -/
theorem lt_maxPasses (h : After o kinds cancelled start n p false r) : n < maxPasses o := by
  have htwo : 2 ≤ maxPasses o := Nat.le_max_left ..
  cases h with
  | start => omega
  | pass _ _ hpass =>
    obtain ⟨_, _, _, _, _, h | h⟩ := pass_eq_ok hpass
    · omega
    · have hlimit : ¬ o.iterationLimit < _ := fun hlimit => nomatch h.2.2.2 hlimit
      have hmax : o.iterationLimit + 1 ≤ maxPasses o := Nat.le_max_right ..
      omega

/-- A run ends with its second pass at the earliest. -/
theorem two_le (h : After o kinds cancelled start n p true r) : 2 ≤ n := by
  cases h with
  | pass _ _ hpass =>
    obtain ⟨_, _, _, _, _, h | h⟩ := pass_eq_ok hpass
    · nomatch h.2.2
    · omega

/-- What every pass preserves holds after each of them. -/
theorem keeps {I : Run σ → Prop} {P : Nat → Progress → Prop} {E : Fault → Prop}
    (hpass : ∀ n p, P n p → Keeps I (fun q => P (n + 1) q.1) E (Descent.pass o kinds (n + 1) p))
    (hprogress : P 0 (.start o kinds)) (hstart : I start)
    (h : After o kinds cancelled start n p done r) : P n p ∧ I r := by
  induction h with
  | start => exact ⟨hprogress, hstart⟩
  | pass _ _ hrun ih => exact (hpass _ _ ih.1).ok ih.2 hrun

/-- The state after a number of passes is the only one. -/
theorem unique {p' : Progress} {done' : Bool} {r' : Run σ}
    (h : After o kinds cancelled start n p done r)
    (h' : After o kinds cancelled start n p' done' r') :
    p = p' ∧ done = done' ∧ r = r' := by
  induction h generalizing p' done' r' with
  | start =>
    cases h'
    exact ⟨rfl, rfl, rfl⟩
  | pass _ _ hpass ih =>
    cases h' with
    | pass h' _ hpass' =>
      obtain ⟨rfl, _, rfl⟩ := ih h'
      rw [hpass] at hpass'
      injection hpass' with hq hr
      injection hq with hp hdone
      exact ⟨hp, hdone, hr⟩

/-- What is read off the run after each pass is a function of the number of the pass. -/
theorem exists_fun {α : Type} [Inhabited α] (f : Run σ → α) (o : DescentOptions)
    (kinds : Array AtomKind) (cancelled : Nat → Bool) (start : Run σ) :
    ∃ g : Nat → α, ∀ t p done r, After o kinds cancelled start t p done r → f r = g t := by
  refine Classical.axiomOfChoice (r := fun t a => ∀ p done r,
    After o kinds cancelled start t p done r → f r = a) fun t => ?_
  by_cases h : ∃ p done r, After o kinds cancelled start t p done r
  · obtain ⟨p, done, r, h⟩ := h
    refine ⟨f r, fun p' done' r' h' => ?_⟩
    obtain ⟨_, _, rfl⟩ := h.unique h'
    rfl
  · exact ⟨default, fun p done r h' => absurd ⟨p, done, r, h'⟩ h⟩

/-- A run that has made `n` passes has made each of them. -/
theorem exists_pass {t : Nat} (h : After o kinds cancelled start n p done r) (ht : t < n) :
    ∃ p q done r r', After o kinds cancelled start t p false r ∧
      Descent.pass o kinds (t + 1) p r = .ok (q, done) r' := by
  induction h with
  | start => omega
  | @pass n p r q done r' hbefore _ hpass ih =>
    by_cases hlast : t = n
    · subst hlast
      exact ⟨p, q, done, r, r', hbefore, hpass⟩
    · exact ih (by omega)

theorem of_passesFrom {left m : Nat} {q : Progress} {r' : Run σ}
    (h : After o kinds cancelled start n p false r) (hleft : n + left = maxPasses o)
    (hrun : passesFrom o kinds cancelled left (n + 1) p r = .ok (m, q) r') :
    After o kinds cancelled start m q true r' := by
  induction left generalizing n p r with
  | zero =>
    have hlt := h.lt_maxPasses
    omega
  | succ left ih =>
    unfold passesFrom at hrun
    obtain ⟨_, r₀, hcheck, hrest⟩ := bind_eq_ok hrun
    obtain ⟨hcancelled, rfl⟩ := checkCancelled_eq_ok hcheck
    obtain ⟨⟨p₁, done⟩, r₁, hpass, hrest⟩ := bind_eq_ok hrest
    have h₁ := h.pass hcancelled hpass
    cases done with
    | true =>
      injection hrest with hmq hr
      injection hmq with hm hq
      subst hm hq hr
      exact h₁
    | false => exact ih h₁ (by omega) hrest

/-- The passes of a run end with one that has decided to end it. -/
theorem of_passes {m : Nat} {q : Progress} {r' : Run σ}
    (hrun : passes o kinds cancelled start = .ok (m, q) r') :
    After o kinds cancelled start m q true r' :=
  After.start.of_passesFrom (Nat.zero_add _) hrun

end After

end Store

section Lawful

variable {σ : Type} [TermStore σ] [LawfulTermStore σ]

/-- Evaluating a store leaves its atoms alone. -/
theorem atoms_evaluate (s : σ) :
    TermStore.atoms (finalState (TermStore.evaluate s)) = TermStore.atoms s := by
  have hatoms := LawfulTermStore.atoms_terms s
  unfold TermStore.evaluate
  cases hterms : TermStore.terms s with
  | error e t =>
    rw [bind_error hterms]
    rwa [hterms] at hatoms
  | ok items t =>
    rw [bind_ok hterms, bind_ok (get_apply t)]
    rw [hterms] at hatoms
    cases Evaluation.ofListing (TermStore.atoms t).values items <;> exact hatoms

/-- A sweep that succeeds goes through the terms of the store from its present values, and leaves
the values that it has come to. -/
theorem sweepStore_eq_ok {c : PassContext} {start : Array Single → PassState} {r r' : Run σ}
    {s : PassState} (h : sweepStore c start r = .ok s r') :
    ∃ items t, TermStore.terms r.store = .ok items t ∧
      TermStore.atoms t = TermStore.atoms r.store ∧
      c.sweep items (start (TermStore.atoms r.store).values) = .ok () s ∧
      (TermStore.atoms r'.store).values = s.values ∧
      (TermStore.atoms r'.store).atoms = (TermStore.atoms r.store).atoms ∧
      r'.passes = r.passes := by
  unfold sweepStore at h
  obtain ⟨items, r₁, hterms, h⟩ := bind_eq_ok h
  obtain ⟨hterms, hpasses⟩ := onStore_eq_ok hterms
  have hatoms : TermStore.atoms r₁.store = TermStore.atoms r.store := by
    have := LawfulTermStore.atoms_terms r.store
    rwa [hterms] at this
  refine ⟨items, r₁.store, hterms, hatoms, ?_⟩
  obtain ⟨table, _, htable, h⟩ := bind_eq_ok h
  injection htable with htable hr
  subst htable hr
  rw [hatoms] at h
  cases hsweep : c.sweep items (start (TermStore.atoms r.store).values) with
  | error e s₁ =>
    simp only [hsweep] at h
    obtain ⟨_, _, _, h⟩ := bind_eq_ok h
    contradiction
  | ok u s₁ =>
    simp only [hsweep] at h
    obtain ⟨_, r₂, hset, h⟩ := bind_eq_ok h
    injection h with hs hr
    subst hs hr
    obtain ⟨hset, hpasses₂⟩ := onStore_eq_ok hset
    obtain ⟨t, ht, hstore⟩ := onAtoms_eq_ok hset
    obtain ⟨_, rfl⟩ := AtomTable.setValues_eq_ok ht
    rw [hstore, LawfulTermStore.atoms_withAtoms, ← hatoms]
    exact ⟨rfl, rfl, rfl, hpasses₂.trans hpasses⟩

/-! ## Runs from a store -/

/-- A run from a store makes so many passes and comes to `r`. -/
def Reaches (d : Descent) (cancelled : Nat → Bool) (s : σ) (n : Nat) (p : Progress) (done : Bool)
    (r : Run σ) : Prop :=
  ∃ s₀, TermStore.beginRun s = .ok () s₀ ∧
    After d.options (TermStore.atoms s).kinds cancelled ⟨s₀, #[]⟩ n p done r

/-- A run that succeeds settles what its last pass has come to. -/
theorem exists_reaches_of_optimize {d : Descent} {cancelled : Nat → Bool} {s : σ} {report : Report}
    {r' : Run σ} (h : optimize d cancelled ⟨s, #[]⟩ = .ok report r') :
    ∃ n p r, d.Reaches cancelled s n p true r ∧ settle n p r = .ok report r' := by
  unfold optimize at h
  obtain ⟨_, ⟨s₀, ps⟩, hbegin, h⟩ := bind_eq_ok h
  obtain ⟨hbegin, rfl⟩ := onStore_eq_ok hbegin
  have hatoms := LawfulTermStore.atoms_beginRun s
  rw [hbegin, finalState_ok] at hatoms
  obtain ⟨t, _, ht, h⟩ := bind_eq_ok h
  injection ht with ht hr
  subst ht hr
  obtain ⟨⟨n, p⟩, r, hpasses, h⟩ := bind_eq_ok h
  refine ⟨n, p, r, ⟨s₀, hbegin, ?_⟩, h⟩
  rw [← hatoms]
  exact .of_passes hpasses

/-- In every sweep of a run, the store lists the same terms in the same order. -/
def FixedOrder (d : Descent) (cancelled : Nat → Bool) (s : σ)
    (items : List (Except Fault (Term Single))) : Prop :=
  ∀ {n p done r listed t}, d.Reaches cancelled s n p done r →
    TermStore.terms r.store = .ok listed t → listed = items

end Lawful

/-- A store in memory reorders its terms before the first sweep only. -/
theorem fixedOrder_memory (d : Descent) (cancelled : Nat → Bool) (s : MemoryStore) :
    d.FixedOrder cancelled s ((finalState (MemoryStore.beginRun s)).terms.toList.map .ok) := by
  rintro n p done r listed t ⟨s₀, hbegin, hafter⟩ hterms
  change MemoryStore.beginRun s = .ok () s₀ at hbegin
  have hpass (n : Nat) (p : Progress) : Preserves (fun r : Run MemoryStore =>
      r.store.terms = s₀.terms) (pass d.options (TermStore.atoms s).kinds n p) :=
    keeps_pass_of_store (J := fun u : MemoryStore => u.terms = s₀.terms) MemoryStore.keeps_listTerms
      (fun _ _ _ hs => hs) fun _ hs => hs
  have hr : r.store.terms = s₀.terms :=
    (hafter.keeps (P := fun _ _ => True) (fun n p _ => hpass (n + 1) p) trivial rfl).2
  change MemoryStore.listTerms r.store = _ at hterms
  unfold MemoryStore.listTerms at hterms
  cases hopen : r.store.checkOpen <;> rw [hopen] at hterms
  · contradiction
  · injection hterms with hlisted
    rw [hbegin, finalState_ok, ← hlisted, hr]

end Descent

end HingeLoss

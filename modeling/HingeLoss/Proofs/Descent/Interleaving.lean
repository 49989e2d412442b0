import HingeLoss.Proofs.Descent.Agreement
import HingeLoss.Proofs.Descent.Constraints

/-!
# HingeLoss.Proofs.Descent.Interleaving

Hard terms among soft ones.

A pass holds hard terms back and repairs them when all soft terms have moved, and an evaluation adds
up the soft terms and counts violations of the hard ones.  So it does not matter where between the
soft terms the hard ones stand.

1. To hold a term back commutes with what a visit of a soft term does (`visit_hold`).  So the visits
   of a listing come to the same as those of its soft terms, with the hard ones held back at the end
   (`visitAll_parts`).
2. From there the sweeps go on alike; those that fail leave the same values (`sweep_interleaved`).
3. Behind a measuring pass, all terms are about the atoms of the store, and then the evaluations of
   both listings are the same (`evaluate_interleaved`).
-/

namespace HingeLoss

/-- Listings with the same soft terms and the same hard terms, each in the same order. -/
structure IsInterleaved (ts us : List (Term Single)) : Prop where
  soft_eq : ts.filter (!·.isHard) = us.filter (!·.isHard)
  hard_eq : ts.filter (·.isHard) = us.filter (·.isHard)

theorem IsInterleaved.mem_iff {ts us : List (Term Single)} (h : IsInterleaved ts us)
    {t : Term Single} : t ∈ ts ↔ t ∈ us := by
  have hparts (vs : List (Term Single)) :
      t ∈ vs ↔ t ∈ vs.filter (!·.isHard) ∨ t ∈ vs.filter (·.isHard) := by
    simp only [List.mem_filter, ← and_or_left]
    cases t.isHard <;> simp
  rw [hparts ts, hparts us, h.soft_eq, h.hard_eq]

/-! ## Holding back -/

/-- The state with another hard term held back. -/
def PassState.hold (s : PassState) (t : Term Single) : PassState :=
  { s with visited := s.visited + 1, held := s.held.push t }

/-- The state with some more hard terms held back. -/
def PassState.holdAll (s : PassState) (ts : List (Term Single)) : PassState := ts.foldl hold s

theorem PassState.values_holdAll (s : PassState) (ts : List (Term Single)) :
    (s.holdAll ts).values = s.values := by
  induction ts generalizing s with
  | nil => rfl
  | cons t ts ih => exact ih (s.hold t)

namespace PassContext

variable {c : PassContext} {t : Term Single} {ts us : List (Term Single)} {s : PassState}

theorem measure_hold (c : PassContext) (t u : Term Single) (s : PassState) :
    c.measure t (s.hold u) = (c.measure t s).map (·.hold u) := by
  unfold measure
  cases c.measured with
  | none => rfl
  | some point =>
    have hgradient : (s.hold u).gradient = s.gradient := rfl
    dsimp only
    rw [hgradient]
    cases t.requireWithin point.size with
    | error e => rfl
    | ok _ => cases t.requireWithin s.gradient.size <;> rfl

theorem moveEntries_hold (c : PassContext) (t u : Term Single) (rate : Single)
    (es : List (Entry Single)) (dot movement : Single) (s : PassState) :
    c.moveEntries t rate es dot movement (s.hold u) =
      (c.moveEntries t rate es dot movement s).map fun q => (q.1, q.2.hold u) := by
  induction es generalizing dot movement s with
  | nil => rfl
  | cons e es ih =>
    unfold moveEntries
    by_cases hfree : c.isFree e.var = true
    · have haccumulators : (s.hold u).accumulators = s.accumulators := rfl
      rw [if_pos hfree, if_pos hfree, haccumulators]
      dsimp only
      cases s.accumulators.step c.options c.iteration rate e.var
          (t.partialAt dot t.weight e.coefficient) with
      | error f => rfl
      | ok q =>
        simp only [except_bind_ok]
        exact ih _ _ { s with
          values := (Term.moveTo e.var (s.values.getD e.var.toNat 0 - q.1) (s.values, movement)).1
          accumulators := q.2 }
    · rw [if_neg hfree, if_neg hfree]
      exact ih dot movement s

theorem move_hold (c : PassContext) (t u : Term Single) (s : PassState) :
    c.move t (s.hold u) = (c.move t s).map (·.hold u) := by
  have hvalues : (s.hold u).values = s.values := rfl
  unfold move
  rw [hvalues]
  cases t.requireWithin s.values.size with
  | error e => rfl
  | ok _ =>
    cases t.requireWithin c.kinds.size with
    | error e => rfl
    | ok _ =>
      simp only [except_bind_ok, moveEntries_hold]
      cases c.moveEntries t (c.options.rate c.iteration) t.entries.toList
        (t.dot (Term.valuesAt s.values)) 0 s <;> rfl

/-- A soft term does not notice which hard ones are held back. -/
theorem visit_hold (hsoft : t.isHard = false) (u : Term Single) (s : PassState) :
    c.visit t (s.hold u) = (c.visit t s).map (·.hold u) := by
  have hnot : ¬ t.isHard = true := Bool.eq_false_iff.mp hsoft
  have hcount : { s.hold u with visited := (s.hold u).visited + 1 } =
      ({ s with visited := s.visited + 1 } : PassState).hold u := rfl
  unfold visit
  simp only [if_neg hnot, hcount, measure_hold]
  cases c.measure t { s with visited := s.visited + 1 } with
  | error e => rfl
  | ok w => exact move_hold c t u w

/-- A hard term is held back. -/
theorem visit_of_isHard (hhard : t.isHard = true) (s : PassState) :
    c.visit t s = .ok (s.hold t) := by
  simp only [visit, if_pos hhard]
  rfl

/-! ## Sweeps -/

/-- The outcome with another state. -/
def mapState {ε σ α : Type} (f : σ → σ) : EStateM.Result ε σ α → EStateM.Result ε σ α
  | .ok a s => .ok a (f s)
  | .error e s => .error e (f s)

/-- Outcomes that a run does not tell apart.  Those that succeed leave the same state, and those that
fail have failed alike and leave the same values. -/
def Alike : EStateM.Result Fault PassState Unit → EStateM.Result Fault PassState Unit → Prop
  | .ok _ s, .ok _ s' => s = s'
  | .error e s, .error e' s' => e = e' ∧ s.values = s'.values
  | _, _ => False

namespace Alike

variable {x y z : EStateM.Result Fault PassState Unit}

theorem refl (x : EStateM.Result Fault PassState Unit) : Alike x x := by
  cases x with
  | ok _ s => rfl
  | error e s => exact ⟨rfl, rfl⟩

theorem cases (h : Alike x y) : (∃ s, x = .ok () s ∧ y = .ok () s) ∨
    ∃ e s s', x = .error e s ∧ y = .error e s' ∧ s.values = s'.values := by
  cases x with
  | ok _ s =>
    cases y with
    | ok _ s' => exact .inl ⟨s, rfl, congrArg _ (Eq.symm h)⟩
    | error e s' => exact h.elim
  | error e s =>
    cases y with
    | ok _ s' => exact h.elim
    | error e' s' =>
      obtain ⟨rfl, hvalues⟩ := h
      exact .inr ⟨e, s, s', rfl, rfl, hvalues⟩

theorem symm (h : Alike x y) : Alike y x := by
  obtain ⟨s, rfl, rfl⟩ | ⟨e, s, s', rfl, rfl, hvalues⟩ := h.cases
  · rfl
  · exact ⟨rfl, hvalues.symm⟩

theorem trans (h : Alike x y) (h' : Alike y z) : Alike x z := by
  obtain ⟨s, rfl, rfl⟩ | ⟨e, s, s', rfl, rfl, hvalues⟩ := h.cases
  · exact h'
  · obtain ⟨t, hy, _⟩ | ⟨f, t, t', hy, rfl, hvalues'⟩ := h'.cases
    · contradiction
    · injection hy with he hs
      subst he hs
      exact ⟨rfl, hvalues.trans hvalues'⟩

end Alike

section Visits

variable {items : List (Except Fault (Term Single))} {s' : PassState} {e : Fault}

theorem visitAll_cons_of_ok (h : c.visit t s = .ok s') :
    c.visitAll (.ok t :: items) s = c.visitAll items s' := by
  have hattempt : attempt (fun s => do c.visit (← .ok t) s) s = .ok () s' := by
    simp only [attempt, except_bind_ok, h]
  exact bind_ok hattempt

theorem visitAll_cons_of_error (h : c.visit t s = .error e) :
    c.visitAll (.ok t :: items) s = .error e s := by
  have hattempt : attempt (fun s => do c.visit (← .ok t) s) s = .error e s := by
    simp only [attempt, except_bind_ok, h]
  exact bind_error hattempt

end Visits

/-- Soft terms in a row do not notice it either. -/
theorem visitAll_hold (hsoft : ∀ t ∈ ts, t.isHard = false) (u : Term Single) (s : PassState) :
    c.visitAll (ts.map .ok) (s.hold u) = mapState (·.hold u) (c.visitAll (ts.map .ok) s) := by
  induction ts generalizing s with
  | nil => rfl
  | cons t ts ih =>
    obtain ⟨hfirst, hrest⟩ := List.forall_mem_cons.mp hsoft
    have hvisit := visit_hold (c := c) hfirst u s
    rw [List.map_cons]
    cases hrun : c.visit t s with
    | error e =>
      rw [hrun] at hvisit
      rw [visitAll_cons_of_error hvisit, visitAll_cons_of_error hrun]
      rfl
    | ok w =>
      rw [hrun] at hvisit
      rw [visitAll_cons_of_ok hvisit, visitAll_cons_of_ok hrun]
      exact ih hrest w

/-- The visits of a listing come to what those of its soft terms come to, with its hard terms held
back at the end. -/
theorem visitAll_parts (c : PassContext) (ts : List (Term Single)) (s : PassState) :
    Alike (c.visitAll (ts.map .ok) s) (mapState (·.holdAll (ts.filter (·.isHard)))
      (c.visitAll ((ts.filter (!·.isHard)).map .ok) s)) := by
  induction ts generalizing s with
  | nil => rfl
  | cons t ts ih =>
    rw [List.map_cons]
    cases hkind : t.isHard with
    | true =>
      have hsoft : ∀ u ∈ ts.filter (!·.isHard), u.isHard = false := by
        intro u hu
        simpa using (List.mem_filter.mp hu).2
      have hgo := ih (s.hold t)
      rw [visitAll_hold hsoft] at hgo
      rw [visitAll_cons_of_ok (visit_of_isHard hkind s), List.filter_cons_of_pos hkind,
        List.filter_cons_of_neg (by simp [hkind])]
      cases hrun : c.visitAll ((ts.filter (!·.isHard)).map .ok) s <;> rw [hrun] at hgo <;> exact hgo
    | false =>
      rw [List.filter_cons_of_neg (by simp [hkind]), List.filter_cons_of_pos (by simp [hkind]),
        List.map_cons]
      cases hrun : c.visit t s with
      | error e =>
        rw [visitAll_cons_of_error hrun, visitAll_cons_of_error hrun]
        exact ⟨rfl, (s.values_holdAll _).symm⟩
      | ok w =>
        rw [visitAll_cons_of_ok hrun, visitAll_cons_of_ok hrun]
        exact ih w

/-- **A sweep does not depend on where the hard terms stand.** -/
theorem sweep_interleaved (c : PassContext) (h : IsInterleaved ts us) (s : PassState) :
    Alike (c.sweep (ts.map .ok) s) (c.sweep (us.map .ok) s) := by
  have hvisits : Alike (c.visitAll (ts.map .ok) s) (c.visitAll (us.map .ok) s) := by
    have hus := visitAll_parts c us s
    rw [← h.soft_eq, ← h.hard_eq] at hus
    exact (visitAll_parts c ts s).trans hus.symm
  unfold sweep
  obtain ⟨w, hrun, hrun'⟩ | ⟨e, w, w', hrun, hrun', hvalues⟩ := hvisits.cases
  · rw [bind_ok hrun, bind_ok hrun']
    exact Alike.refl _
  · rw [bind_error hrun, bind_error hrun']
    exact ⟨rfl, hvalues⟩

end PassContext

/-! ## Evaluations -/

namespace Evaluation

variable {ts us : List (Term Single)} {values : Array Single}

/-- Soft terms are added to the objective, and hard ones to the violations. -/
theorem foldl_addTerm (ts : List (Term Single)) (x : Variable → Single) (e : Evaluation) :
    (ts.foldl (fun e t => e.addTerm t x) e).objective =
        (ts.filter (!·.isHard)).foldl (fun o t => o + Double.ofSingle (t.evaluate x)) e.objective ∧
      (ts.foldl (fun e t => e.addTerm t x) e).violated =
        e.violated + (ts.filter (·.isHard)).countP (·.isViolated x) := by
  induction ts generalizing e with
  | nil => exact ⟨rfl, rfl⟩
  | cons t ts ih =>
    obtain ⟨hobjective, hviolated⟩ := ih (e.addTerm t x)
    rw [List.foldl_cons, hobjective, hviolated, violated_addTerm]
    cases hkind : t.isHard with
    | true =>
      have hsame : (e.addTerm t x).objective = e.objective := by rw [addTerm, if_pos hkind]
      rw [List.filter_cons_of_neg (by simp [hkind]), List.filter_cons_of_pos hkind,
        List.countP_cons, hsame]
      exact ⟨rfl, (Nat.add_assoc ..).trans (congrArg _ (Nat.add_comm ..))⟩
    | false =>
      have hadded : (e.addTerm t x).objective = e.objective + Double.ofSingle (t.evaluate x) := by
        rw [addTerm, if_neg (by simp [hkind])]
      have hnone : t.isViolated x = false := by rw [Term.isViolated, hkind, Bool.false_and]
      rw [List.filter_cons_of_pos (by simp [hkind]), List.filter_cons_of_neg (by simp [hkind]),
        List.foldl_cons, hadded, hnone]
      exact ⟨rfl, rfl⟩

theorem ofListing_of_within (h : ∀ t ∈ ts, t.requireWithin values.size = .ok ()) :
    ofListing values (ts.map .ok) =
      .ok (ts.foldl (fun e t => e.addTerm t (Term.valuesAt values)) {}) := by
  unfold ofListing
  generalize ({} : Evaluation) = e
  induction ts generalizing e with
  | nil => rfl
  | cons t ts ih =>
    obtain ⟨hfirst, hrest⟩ := List.forall_mem_cons.mp h
    rw [List.map_cons, List.foldlM_cons, addItem_ok e hfirst]
    exact ih hrest _

theorem within_of_ofListing {e : Evaluation} (h : ofListing values (ts.map .ok) = .ok e) :
    ∀ t ∈ ts, t.requireWithin values.size = .ok () := by
  unfold ofListing at h
  generalize ({} : Evaluation) = e₀ at h
  induction ts generalizing e₀ with
  | nil => exact fun _ ht => absurd ht List.not_mem_nil
  | cons t ts ih =>
    rw [List.map_cons, List.foldlM_cons] at h
    obtain ⟨e₁, hitem, h⟩ := except_bind_eq_ok h
    obtain ⟨u, hu, hitem⟩ := except_bind_eq_ok hitem
    injection hu with hu
    obtain ⟨_, hwithin, _⟩ := except_bind_eq_ok hitem
    exact List.forall_mem_cons.mpr ⟨hu ▸ hwithin, ih e₁ h⟩

/-- An evaluation does not depend on where the hard terms stand, if all terms can be evaluated. -/
theorem ofListing_interleaved (h : IsInterleaved ts us)
    (hwithin : ∀ t ∈ ts, t.requireWithin values.size = .ok ()) :
    ofListing values (us.map .ok) = ofListing values (ts.map .ok) := by
  have hus : ∀ t ∈ us, t.requireWithin values.size = .ok () :=
    fun t ht => hwithin t (h.mem_iff.mpr ht)
  rw [ofListing_of_within hwithin, ofListing_of_within hus]
  obtain ⟨hobjective, hviolated⟩ := foldl_addTerm ts (Term.valuesAt values) {}
  obtain ⟨hobjective', hviolated'⟩ := foldl_addTerm us (Term.valuesAt values) {}
  rw [← h.soft_eq, ← hobjective] at hobjective'
  rw [← h.hard_eq, ← hviolated] at hviolated'
  generalize us.foldl _ _ = e' at hobjective' hviolated' ⊢
  generalize ts.foldl _ _ = e at hobjective' hviolated' ⊢
  cases e
  cases e'
  cases hobjective'
  cases hviolated'
  rfl

end Evaluation

/-! ## Stores -/

namespace MemoryStore

variable {m m' : MemoryStore}

/-- Stores that shuffle nothing, and that differ only in where the hard terms stand. -/
structure SameParts (m m' : MemoryStore) : Prop where
  atoms_eq : m.atoms = m'.atoms
  closed_eq : m.generator.isNone = m'.generator.isNone
  unshuffled_left : m.shuffler = none
  unshuffled_right : m'.shuffler = none
  terms : IsInterleaved m.terms.toList m'.terms.toList

namespace SameParts

theorem checkOpen_eq (h : m.SameParts m') : m'.checkOpen = m.checkOpen := by
  rw [checkOpen, checkOpen, m.closed_eq, m'.closed_eq, h.closed_eq]

theorem simulates_beginRun : Simulates SameParts beginRun beginRun := by
  intro m m' h
  unfold beginRun
  rw [h.checkOpen_eq, h.unshuffled_left, h.unshuffled_right]
  cases m.checkOpen with
  | error e => exact ⟨rfl, h⟩
  | ok _ => exact ⟨rfl, h⟩

theorem simulates_onAtoms {α : Type} (op : EStateM Fault AtomTable α) :
    Simulates SameParts (TermStore.onAtoms (σ := MemoryStore) op) (TermStore.onAtoms op) := by
  intro m m' h
  have hatoms : TermStore.atoms m' = TermStore.atoms m := h.atoms_eq.symm
  unfold TermStore.onAtoms
  rw [hatoms]
  cases op (TermStore.atoms m) with
  | ok a t => exact ⟨rfl, rfl, h.closed_eq, h.unshuffled_left, h.unshuffled_right, h.terms⟩
  | error e t => exact ⟨rfl, rfl, h.closed_eq, h.unshuffled_left, h.unshuffled_right, h.terms⟩

/-- Both stores refuse to be read, or each lists its terms. -/
theorem terms_cases (h : m.SameParts m') :
    (∃ e, TermStore.terms m = .error e m ∧ TermStore.terms m' = .error e m') ∨
      TermStore.terms m = .ok (m.terms.toList.map .ok) m ∧
        TermStore.terms m' = .ok (m'.terms.toList.map .ok) m' := by
  change (∃ e, listTerms m = .error e m ∧ listTerms m' = .error e m') ∨
    listTerms m = .ok (m.terms.toList.map .ok) m ∧ listTerms m' = .ok (m'.terms.toList.map .ok) m'
  unfold listTerms
  rw [h.checkOpen_eq]
  cases m.checkOpen with
  | error e => exact .inl ⟨e, rfl, rfl⟩
  | ok _ => exact .inr ⟨rfl, rfl⟩

theorem evaluate_interleaved (h : m.SameParts m')
    (hwithin : ∀ t ∈ m.terms.toList, t.requireWithin m.atoms.values.size = .ok ()) :
    Agree SameParts (TermStore.evaluate m) (TermStore.evaluate m') := by
  obtain ⟨e, hlist, hlist'⟩ | ⟨hlist, hlist'⟩ := h.terms_cases
  · unfold TermStore.evaluate
    rw [bind_error hlist, bind_error hlist']
    exact ⟨rfl, h⟩
  · have hatoms : m.atoms = TermStore.atoms m' := h.atoms_eq
    obtain ⟨e, hlisting⟩ : ∃ e, Evaluation.ofListing m.atoms.values (m.terms.toList.map .ok) =
        .ok e := ⟨_, Evaluation.ofListing_of_within hwithin⟩
    have hlisting' := (Evaluation.ofListing_interleaved h.terms hwithin).trans hlisting
    rw [hatoms] at hlisting'
    rw [Descent.evaluate_ok hlist hlisting, Descent.evaluate_ok hlist' hlisting']
    exact ⟨rfl, h⟩

end SameParts

end MemoryStore

/-! ## Runs -/

namespace Descent

open MemoryStore

variable {m m' : MemoryStore} {o : DescentOptions} {kinds : Array AtomKind}
  {cancelled : Nat → Bool} {n : Nat} {p : Progress} {r : Run MemoryStore}

theorem simulates_sweepStore_interleaved (c : PassContext) (start : Array Single → PassState) :
    Simulates (Run.Related SameParts) (sweepStore c start) (sweepStore c start) := by
  rintro ⟨m, passes⟩ ⟨m', _⟩ ⟨h, rfl⟩
  have hset (values : Array Single) :=
    simulates_onStore (SameParts.simulates_onAtoms (AtomTable.setValues values))
  unfold sweepStore
  obtain ⟨e, hlist, hlist'⟩ | ⟨hlist, hlist'⟩ := h.terms_cases
  · have hread : onStore TermStore.terms ⟨m, passes⟩ = .error e ⟨m, passes⟩ := by
      simp only [onStore, hlist]
    have hread' : onStore TermStore.terms ⟨m', passes⟩ = .error e ⟨m', passes⟩ := by
      simp only [onStore, hlist']
    rw [bind_error hread, bind_error hread']
    exact ⟨rfl, h, rfl⟩
  · have hread : onStore TermStore.terms ⟨m, passes⟩ =
        .ok (m.terms.toList.map .ok) ⟨m, passes⟩ := by
      simp only [onStore, hlist]
    have hread' : onStore TermStore.terms ⟨m', passes⟩ =
        .ok (m'.terms.toList.map .ok) ⟨m', passes⟩ := by
      simp only [onStore, hlist']
    have hatoms : atoms ⟨m, passes⟩ = .ok m.atoms ⟨m, passes⟩ := rfl
    have hatoms' : atoms ⟨m', passes⟩ = .ok m.atoms ⟨m', passes⟩ := by
      rw [h.atoms_eq]
      rfl
    rw [bind_ok hread, bind_ok hread', bind_ok hatoms, bind_ok hatoms']
    obtain ⟨w, hrun, hrun'⟩ | ⟨e, w, w', hrun, hrun', hvalues⟩ :=
      (c.sweep_interleaved h.terms (start m.atoms.values)).cases
    · simp only [hrun, hrun']
      exact (hset w.values).bind (fun _ => Simulates.pure w) _ _ ⟨h, rfl⟩
    · simp only [hrun, hrun', hvalues]
      exact (hset w'.values).bind (fun _ => Simulates.throw e) _ _ ⟨h, rfl⟩

/-- When a run ends, all terms of its store are about atoms: its last pass has measured them. -/
theorem within_of_after {start : Run MemoryStore} (h : After o kinds cancelled start n p true r) :
    ∀ t ∈ r.store.terms.toList, t.requireWithin r.store.atoms.values.size = .ok () := by
  have htwo := h.two_le
  cases h with
  | @pass k p₀ r₀ _ _ _ hbefore _ hpass =>
    obtain ⟨k, rfl⟩ := Nat.exists_eq_add_of_le' (Nat.le_of_succ_le_succ htwo)
    obtain ⟨_, _, _, _, hobjective, _⟩ := hbefore.offer_eq hpass
    obtain ⟨e, _, hevaluate, _⟩ := bind_eq_ok hobjective
    obtain ⟨_, items, hlist, hlisting⟩ := exists_listing_of_evaluate hevaluate
    have hitems : r₀.store.terms.toList.map .ok = items := by
      change listTerms r₀.store = _ at hlist
      unfold listTerms at hlist
      cases hopen : r₀.store.checkOpen <;> rw [hopen] at hlist
      · contradiction
      · injection hlist
    rw [← hitems] at hlisting
    have hwithin := Evaluation.within_of_ofListing hlisting
    have hkept : Preserves (fun u : Run MemoryStore => u.store.terms = r₀.store.terms ∧
        u.store.atoms.size = r₀.store.atoms.size) (pass o kinds (k + 2) p₀) :=
      keeps_pass_of_store (J := fun u : MemoryStore => u.terms = r₀.store.terms ∧
        u.atoms.size = r₀.store.atoms.size) keeps_listTerms
        (fun t s ht hs => ⟨hs.1, ht.trans hs.2⟩) fun _ hs => hs
    obtain ⟨hterms, hsize⟩ := (hkept.ok ⟨rfl, rfl⟩ hpass).2
    have hvalues : r.store.atoms.values.size = r₀.store.atoms.values.size := by
      rw [r.store.atoms.size_values, r₀.store.atoms.size_values]
      exact hsize
    rw [hterms, hvalues]
    exact hwithin

/-- **Where the hard terms stand does not matter.**  Runs on stores in memory that shuffle nothing
and have the same atoms, the same soft terms and the same hard terms, each in the same order, give
the same report or the same failure, make the same passes, and leave the same atoms, however hard
and soft terms are interleaved.  On an open store whose terms are about its atoms, a run that is not
cancelled fails only when its atoms cannot be saved. -/
theorem optimize_interleaved (h : m.SameParts m') (d : Descent) (cancelled : Nat → Bool) :
    Agree (fun r r' => r.store.atoms = r'.store.atoms ∧ r.passes = r'.passes)
      (d.optimize cancelled ⟨m, #[]⟩) (d.optimize cancelled ⟨m', #[]⟩) ∧
    (m.IsReady m.atoms.size m.atoms.place.isSome → (∀ i, cancelled i = false) →
      (∃ report r, d.optimize cancelled ⟨m, #[]⟩ = .ok report r) ∨
        m.atoms.place.isSome = true ∧
          ∃ f r, d.optimize cancelled ⟨m, #[]⟩ = .error (.file f) r) := by
  refine ⟨?_, fun hready hcancelled => hready.optimize_cases d hcancelled⟩
  suffices hrun : Agree (Run.Related SameParts)
      (d.optimize cancelled ⟨m, #[]⟩) (d.optimize cancelled ⟨m', #[]⟩) from
    hrun.mono fun r r' hr => ⟨hr.1.atoms_eq, hr.2⟩
  have hbegin := simulates_onStore SameParts.simulates_beginRun ⟨m, #[]⟩ ⟨m', #[]⟩ ⟨h, rfl⟩
  refine hbegin.bind fun _ s s' _ _ hs => ?_
  have hatoms : atoms s = .ok s.store.atoms s := rfl
  have hatoms' : atoms s' = .ok s.store.atoms s' := by
    rw [hs.1.atoms_eq]
    rfl
  rw [bind_ok hatoms, bind_ok hatoms']
  have hpass (n : Nat) (p : Progress) : Simulates (Run.Related SameParts)
      (pass d.options s.store.atoms.kinds n p) (pass d.options s.store.atoms.kinds n p) :=
    simulates_pass simulates_sweepStore_interleaved id
  have hpasses : Simulates (Run.Related SameParts)
      (passes d.options s.store.atoms.kinds cancelled)
      (passes d.options s.store.atoms.kinds cancelled) :=
    simulates_passesFrom hpass cancelled _
  refine (hpasses s s' hs).bind fun q r r' hrun _ hr => ?_
  have hwithin := within_of_after (After.of_passes hrun)
  exact agree_settle SameParts.atoms_eq (fun values => SameParts.simulates_onAtoms _)
    (SameParts.simulates_onAtoms _)
    (agree_onStore (hr.1.evaluate_interleaved hwithin) hr.2)

/-- The terms of `crossedStore` with the soft one between the hard ones. -/
def betweenStore : MemoryStore :=
  { crossedStore with
    terms := #[hardTerm 0.25 #[⟨1, ⟨0⟩⟩], softTerm .linear 0 #[⟨1, ⟨1⟩⟩],
      hardTerm (-1) #[⟨-1, ⟨0⟩⟩, ⟨-1, ⟨1⟩⟩]] }

theorem optimize_interleaved_crossed :
    crossedStore.SameParts betweenStore ∧
    ∃ report r r', optimize shortDescent (fun _ => false) ⟨crossedStore, #[]⟩ = .ok report r ∧
      optimize shortDescent (fun _ => false) ⟨betweenStore, #[]⟩ = .ok report r' ∧
      report.violated = 1 ∧ r'.store.atoms.values = #[0.5, 0.5] := by
  have hparts : crossedStore.SameParts betweenStore := ⟨rfl, rfl, rfl, rfl, ⟨rfl, rfl⟩⟩
  have heval : onSuccess (fun report r => (report.violated, r.store.atoms.values))
      (optimize shortDescent (fun _ => false) ⟨crossedStore, #[]⟩) = some (1, #[0.5, 0.5]) := by
    decide +kernel
  obtain ⟨report, r, hrun, heval⟩ := exists_of_onSuccess heval
  injection heval with hviolated hvalues
  obtain ⟨hagree, -⟩ := optimize_interleaved hparts shortDescent fun _ => false
  rw [hrun] at hagree
  generalize optimize shortDescent (fun _ => false) ⟨betweenStore, #[]⟩ = outcome at hagree ⊢
  cases outcome with
  | error e r' => exact hagree.elim
  | ok report' r' =>
    obtain ⟨rfl, hatoms, _⟩ := hagree
    exact ⟨hparts, report, r, r', hrun, rfl, hviolated, hatoms ▸ hvalues⟩

end Descent

end HingeLoss

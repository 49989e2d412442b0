import HingeLoss.Proofs.Descent.Writes

/-!
# HingeLoss.Proofs.Descent.UnitValues

The values of a run stay in `[0, 1]`.

Every value that a run writes has gone through `Scalar.clamp`, which gives a number in `[0, 1]` for
every pattern, whether it is a number or not.  So nothing is asked of the coefficients, the constants
or the steps.

A `Moment` of a sweep is a state of the values between two writes: after some variables of a soft
term have moved, or after some hard terms have been repaired.
-/

namespace HingeLoss

/-! ## Numbers in the unit interval -/

/-- Whether a pattern is a number in `[0, 1]`. -/
def Single.InUnit (a : Single) : Prop := a.isNaN = false ∧ 0 ≤ a ∧ a ≤ 1

instance (a : Single) : Decidable a.InUnit := inferInstanceAs (Decidable (_ ∧ _ ∧ _))

/-- Clamping gives a number in `[0, 1]`, also for what is no number. -/
theorem Single.inUnit_clamp (a : Single) : (Scalar.clamp a).InUnit := by
  have hzero : InUnit 0 := by decide
  have hone : InUnit 1 := by decide
  unfold Scalar.clamp Scalar.min Scalar.max
  by_cases hpos : 0 < a
  · rw [if_pos hpos]
    by_cases hlt : a < 1
    · rw [if_pos hlt]
      exact ⟨hlt.1, ⟨hpos.1, hpos.2.1, Int.le_of_lt hpos.2.2⟩, hlt.1, hlt.2.1, Int.le_of_lt hlt.2.2⟩
    · rw [if_neg hlt]
      exact hone
  · rw [if_neg hpos, if_pos (by decide)]
    exact hzero

/-- Whether all values are numbers in `[0, 1]`. -/
def AllInUnit (values : Array Single) : Prop := ∀ a ∈ values, a.InUnit

theorem AllInUnit.setIfInBounds {values : Array Single} (h : AllInUnit values) (i : Nat)
    {a : Single} (ha : a.InUnit) : AllInUnit (values.setIfInBounds i a) := by
  intro b hb
  cases Array.mem_or_eq_of_mem_setIfInBounds hb with
  | inl hb => exact h b hb
  | inr hb => exact hb ▸ ha

/-- Whatever is written by a run is in `[0, 1]`. -/
theorem AllInUnit.untouched (kinds : Array AtomKind) :
    Untouched kinds (fun _ => True) AllInUnit :=
  fun _ _ e _ _ _ target h => h.setIfInBounds e.var.toNat (Single.inUnit_clamp target)

/-! ## Sweeps -/

namespace PassContext

variable {c : PassContext} {t : Term Single} {s s' : PassState}
  {items : List (Except Fault (Term Single))}

/-- The values between two writes of a sweep. -/
inductive Moment (c : PassContext) (items : List (Except Fault (Term Single)))
    (start : PassState) : Array Single → Prop where
  /-- Some variables of a soft term have moved. -/
  | moved {before after t s u es rest moved w} : items = before ++ .ok t :: after →
      c.visitAll before start = .ok () s → t.isHard = false →
      c.measure t { s with visited := s.visited + 1 } = .ok u → t.entries.toList = es ++ rest →
      c.moveEntries t (c.options.rate c.iteration) es (t.dot (Term.valuesAt u.values)) 0 u =
        .ok (moved, w) → Moment c items start w.values
  /-- Some hard terms have been repaired. -/
  | repaired {s ts rest u} : c.visitAll items start = .ok () s → s.held.toList = ts ++ rest →
      c.repairAll ts s = .ok () u → Moment c items start u.values

/-- The values that a sweep leaves are the last ones. -/
theorem Moment.of_sweep {start : PassState} (h : c.sweep items start = .ok () s) :
    c.Moment items start s.values := by
  obtain ⟨u, hvisit, hrepair⟩ := sweep_eq_ok h
  exact .repaired hvisit (List.append_nil _).symm hrepair

theorem Moment.allInUnit {start : PassState} {values : Array Single}
    (h : Moment c items start values) (hstart : AllInUnit start.values) : AllInUnit values := by
  have hwrites := AllInUnit.untouched c.kinds
  have hvisited (items : List (Except Fault (Term Single))) {u : PassState}
      (hvisit : c.visitAll items start = .ok () u) : AllInUnit u.values :=
    ((untouched_visitAll hwrites fun _ _ => trivial).ok ⟨hstart, fun _ _ => trivial⟩ hvisit).2.1
  cases h with
  | moved _ hvisit _ hmeasure hentries hmove =>
    have hs := hvisited _ hvisit
    refine untouched_moveEntries hwrites trivial (fun e he => ?_) hmove ?_
    · exact Array.mem_toList_iff.mp (hentries ▸ List.mem_append_left _ he)
    · rw [values_measure hmeasure]
      exact hs
  | repaired hvisit _ hrepair =>
    exact ((untouched_repairAll hwrites fun _ _ => trivial).ok (hvisited _ hvisit) hrepair).2

end PassContext

/-! ## Runs -/

/-- The values of the store, and those after each pass, are in `[0, 1]`. -/
def Run.AllInUnit {σ : Type} [TermStore σ] (r : Run σ) : Prop :=
  HingeLoss.AllInUnit (TermStore.atoms r.store).values ∧
    ∀ pass ∈ r.passes, HingeLoss.AllInUnit pass.values

namespace Descent

variable {σ : Type} [TermStore σ]

/-- A run writes no value outside `[0, 1]`, whatever its store does. -/
theorem writes_allInUnit (stock : Array (AtomKind × Single)) :
    Writes (σ := σ) stock (fun _ => True) AllInUnit fun _ => True where
  untouched := AllInUnit.untouched _
  beginRun := .of_finalState fun _ _ => trivial
  terms := Keeps.of_outcomes (.of_finalState fun _ _ => trivial) (fun _ _ _ _ _ _ _ => trivial)
    fun _ _ _ _ _ => trivial
  withAtoms _ _ := trivial
  endPass _ := trivial

variable [LawfulTermStore σ]

/-- A run from a store makes a sweep of a context over a listing, from a state. -/
def Sweeps (d : Descent) (cancelled : Nat → Bool) (s : σ) (c : PassContext)
    (items : List (Except Fault (Term Single))) (start : PassState) : Prop :=
  ∃ s₀ n p r t, TermStore.beginRun s = .ok () s₀ ∧
    After d.options (TermStore.atoms s₀).kinds cancelled ⟨s₀, #[]⟩ n p false r ∧
    cancelled (n + 1) = false ∧ TermStore.terms r.store = .ok items t ∧
    c = context d.options (TermStore.atoms s₀).kinds (n + 1) p ∧
    start = startState p (TermStore.atoms t).values

/-- **The values of a run stay in `[0, 1]`**: between any two writes of each sweep, after each pass,
and at the end of the run, also when it fails. -/
theorem allInUnit_run (d : Descent) (cancelled : Nat → Bool) {s : σ}
    (h : AllInUnit (TermStore.atoms s).values) :
    (∀ c items start values, Sweeps d cancelled s c items start → c.Moment items start values →
      AllInUnit values) ∧ Run.AllInUnit (finalState (optimize d cancelled ⟨s, #[]⟩)) := by
  have hstart (s : σ) (h : AllInUnit (TermStore.atoms s).values) :
      Run.IsUntouched (TermStore.atoms s).stock AllInUnit (fun _ => True) (⟨s, #[]⟩ : Run σ) :=
    ⟨trivial, rfl, h, fun _ h => absurd h (Array.not_mem_empty _)⟩
  refine ⟨?_, ?_⟩
  · rintro c items start values ⟨s₀, n, p, r, t, hbegin, hafter, _, hterms, rfl, rfl⟩ hmoment
    have hatoms := LawfulTermStore.atoms_of_beginRun hbegin
    rw [AtomTable.kinds_eq] at hafter
    have hr := (hafter.keeps (fun n p hp => (writes_allInUnit _).keeps_pass hp)
      (fun h => absurd rfl h) (hstart s₀ (hatoms ▸ h))).2
    have hatoms := LawfulTermStore.atoms_terms r.store
    rw [hterms, finalState_ok] at hatoms
    have hvalues : AllInUnit (TermStore.atoms t).values := hatoms ▸ hr.values
    exact hmoment.allInUnit hvalues
  · have hend := ((writes_allInUnit _).keeps_optimize d cancelled).finalState (hstart s h)
    exact ⟨hend.values, hend.passes⟩

/-- A soft term with coefficients that are not finite. -/
def wildTerm : Term Single :=
  ⟨⟨0, ⟨0⟩, "prior", .soft 1, .squaredHinge⟩, .squaredHinge, 0,
    #[⟨Single.infinity, ⟨0⟩⟩, ⟨Single.nan, ⟨1⟩⟩]⟩

/-- A hard term with a constant that is not finite. -/
def wildLimit : Term Single :=
  ⟨⟨0, ⟨1⟩, "limit", .hard, .hinge⟩, .hinge, -Single.infinity, #[⟨Single.infinity, ⟨0⟩⟩]⟩

/-- A store of terms that are no numbers. -/
def wildStore : MemoryStore where
  terms := #[wildTerm, wildLimit]
  atoms := { atoms := #[⟨.unobserved, 1, 1⟩, ⟨.unobserved, 1, 1⟩], values := #[1, 1] }

theorem allInUnit_run_wild :
    let d : Descent := ⟨{ schedule := .constant }, rfl⟩
    let p := Progress.start d.options wildStore.atoms.kinds
    let c := context d.options wildStore.atoms.kinds 1 p
    AllInUnit wildStore.atoms.values ∧
      Sweeps d (fun _ => false) wildStore c [.ok wildTerm, .ok wildLimit] (startState p #[1, 1]) ∧
      c.Moment [.ok wildTerm, .ok wildLimit] (startState p #[1, 1]) #[0, 1] ∧
      AllInUnit #[0, 1] ∧
      Run.AllInUnit (finalState (optimize d (fun _ => false) ⟨wildStore, #[]⟩)) := by
  intro d p c
  have hstart : AllInUnit wildStore.atoms.values := by
    unfold AllInUnit
    decide
  have hsweep : Sweeps d (fun _ => false) wildStore c [.ok wildTerm, .ok wildLimit]
      (startState p #[1, 1]) :=
    ⟨wildStore, 0, _, _, wildStore, rfl, .start, rfl, rfl, rfl, rfl⟩
  have hentries : wildTerm.entries.toList = [⟨Single.infinity, ⟨0⟩⟩] ++ [⟨Single.nan, ⟨1⟩⟩] := rfl
  have hmoment : c.Moment [.ok wildTerm, .ok wildLimit] (startState p #[1, 1]) #[0, 1] := by
    have hvalues : (c.moveEntries wildTerm (c.options.rate 1) [⟨Single.infinity, ⟨0⟩⟩]
        (wildTerm.dot (Term.valuesAt #[1, 1])) 0
        { startState p #[1, 1] with visited := 1 }).toOption.map (·.2.values) = some #[0, 1] := by
      decide +kernel
    generalize hmove : c.moveEntries _ _ _ _ _ _ = outcome at hvalues
    cases outcome with
    | error e => contradiction
    | ok w =>
      injection hvalues with hvalues
      exact hvalues ▸ .moved (List.nil_append _).symm rfl rfl rfl hentries hmove
  have h := allInUnit_run d (fun _ => false) (s := wildStore) hstart
  exact ⟨hstart, hsweep, hmoment, h.1 c _ _ _ hsweep hmoment, h.2⟩

end Descent

end HingeLoss

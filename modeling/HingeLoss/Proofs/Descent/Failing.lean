import HingeLoss.Proofs.Atoms.Saving
import HingeLoss.Proofs.Descent.BestValues

/-!
# HingeLoss.Proofs.Descent.Failing

What a run commits that fails.

A run gives its store other values as it goes, and commits at its very end.  So whatever makes it
fail before, be it a listing, a term that does not fit its atoms or a cancellation, nothing is
committed and the disk of the atoms is left alone.  Only the commit itself is different: it comes
before the table is saved, so a run that fails because of the saving has committed its values, and
just the file is as it was (`settle_error_cases`).
-/

namespace HingeLoss

/-! ## Up to the commit -/

/-- A table that has been committed and saved as another one. -/
structure AtomTable.IsSameCommit (t t' : AtomTable) : Prop where
  atoms_eq : t'.atoms = t.atoms
  place_eq : t'.place = t.place

theorem AtomTable.IsSameCommit.committed_eq {t t' : AtomTable} (h : t.IsSameCommit t') :
    t'.committed = t.committed := by rw [committed, committed, h.atoms_eq]

namespace Descent

variable {σ : Type} [TermStore σ] [LawfulTermStore σ] {o : DescentOptions} {kinds : Array AtomKind}
  {cancelled : Nat → Bool} {r r' : Run σ} {s : σ} {n : Nat} {p : Progress} {e : Fault}
  {t : AtomTable}

/-- What an operation keeps of a table, it keeps of the table of a store. -/
theorem keeps_table {α : Type} {I : AtomTable → Prop} {op : EStateM Fault AtomTable α}
    (h : Preserves I op) :
    Preserves (fun s : σ => I (TermStore.atoms s)) (TermStore.onAtoms op) :=
  .of_finalState fun s hs => by
    rw [TermStore.finalState_onAtoms, LawfulTermStore.atoms_withAtoms]
    exact h.finalState hs

theorem sameCommit_setValues (t : AtomTable) (values : Array Single) :
    Preserves (fun s : σ => t.IsSameCommit (TermStore.atoms s))
      (TermStore.onAtoms (AtomTable.setValues values)) :=
  keeps_table (AtomTable.keeps_setValues fun _ _ h => ⟨h.atoms_eq, h.place_eq⟩)

theorem sameCommit_terms (t : AtomTable) :
    Preserves (fun s : σ => t.IsSameCommit (TermStore.atoms s)) TermStore.terms :=
  .of_finalState fun s h => by rwa [LawfulTermStore.atoms_terms]

/-- No pass commits anything. -/
theorem sameCommit_pass (t : AtomTable) : Preserves
    (fun r : Run σ => t.IsSameCommit (TermStore.atoms r.store)) (pass o kinds n p) :=
  keeps_pass_of_setValues (J := fun s : σ => t.IsSameCommit (TermStore.atoms s))
    (sameCommit_terms t) (sameCommit_setValues t) fun s h => by
      rwa [LawfulTermStore.atoms_endPass]

theorem sameCommit_passes (t : AtomTable) : Preserves
    (fun r : Run σ => t.IsSameCommit (TermStore.atoms r.store)) (passes o kinds cancelled) :=
  (keeps_passesFrom (P := fun _ _ => True) (fun _ _ _ => sameCommit_pass t) (fun _ _ => trivial)
    trivial).mono (fun _ _ => trivial) fun _ h => h

/-! ## The commit -/

/-- A run whose values could not be saved: they are committed, and the files are as they were. -/
structure IsUnsaved (t : AtomTable) (e : Fault) (t' : AtomTable) : Prop where
  committed_eq : t'.committed = t'.values
  exists_save : ∃ p p' f, t.place = some p ∧ t'.place = some p' ∧ e = .file f ∧
    p.save t'.archive.encode.toArray = .error f p' ∧ p.IsSpared p'

theorem isUnsaved_of_sync {t t₁ t' : AtomTable} (h : t.IsSameCommit t₁)
    (hsync : AtomTable.sync t₁ = .error e t') : IsUnsaved t e t' := by
  obtain ⟨p, p', f, hplace, he, rfl, hsave⟩ := AtomTable.exists_save_of_sync_error hsync
  have hspared := Place.isSpared_of_save hsave
  rw [h.place_eq] at hplace
  exact ⟨AtomTable.committed_commit t₁, p, p', f, hplace, rfl, he, hsave, hspared⟩

/-- The end of a run fails before the commit, or because the values cannot be saved. -/
theorem settle_error_cases (hr : t.IsSameCommit (TermStore.atoms r.store))
    (h : settle n p r = .error e r') :
    t.IsSameCommit (TermStore.atoms r'.store) ∨ IsUnsaved t e (TermStore.atoms r'.store) := by
  unfold settle at h
  have hevaluate : Preserves (fun r : Run σ => t.IsSameCommit (TermStore.atoms r.store))
      (onStore TermStore.evaluate) := keeps_onStore (keeps_evaluate (sameCommit_terms t))
  have hset (values : Array Single) : Preserves
      (fun r : Run σ => t.IsSameCommit (TermStore.atoms r.store))
      (onStore (TermStore.onAtoms (AtomTable.setValues values))) :=
    keeps_onStore (sameCommit_setValues t values)
  obtain h | ⟨last, r₁, hrun, h⟩ := bind_eq_error h
  · exact .inl (hevaluate.error hr h).2
  have hr₁ := (hevaluate.ok hr hrun).2
  obtain h | ⟨_, _, hatoms, h⟩ := bind_eq_error h
  · contradiction
  injection hatoms with hatoms hr₂
  subst hatoms hr₂
  obtain h | ⟨_, r₃, hrun, h⟩ := bind_eq_error h
  · exact .inl ((hset _).error hr₁ h).2
  have hr₃ := ((hset _).ok hr₁ hrun).2
  obtain h | ⟨_, _, _, h⟩ := bind_eq_error h
  · obtain ⟨t', hsync, hstore⟩ := onAtoms_eq_error (onStore_eq_error h)
    rw [hstore, LawfulTermStore.atoms_withAtoms]
    exact .inr (isUnsaved_of_sync hr₃ hsync)
  · contradiction

/-- **What a run that fails has committed**: nothing, and the disk of the atoms is as before; or all
its values, where these could not be saved at its end, and then just the files are as before. -/
theorem optimize_error_cases {d : Descent} {cancelled : Nat → Bool} {s : σ} {e : Fault} {r : Run σ}
    (h : optimize d cancelled ⟨s, #[]⟩ = .error e r) :
    (TermStore.atoms s).IsSameCommit (TermStore.atoms r.store) ∨
      IsUnsaved (TermStore.atoms s) e (TermStore.atoms r.store) := by
  unfold optimize at h
  have hbegin : Preserves (fun u : σ => (TermStore.atoms s).IsSameCommit (TermStore.atoms u))
      TermStore.beginRun := .of_finalState fun u hu => by rwa [LawfulTermStore.atoms_beginRun]
  have hstart : (TermStore.atoms s).IsSameCommit (TermStore.atoms s) := ⟨rfl, rfl⟩
  obtain h | ⟨_, r₁, hrun, h⟩ := bind_eq_error h
  · exact .inl ((keeps_onStore hbegin).error hstart h).2
  have hr₁ := ((keeps_onStore hbegin).ok hstart hrun).2
  obtain h | ⟨_, _, hatoms, h⟩ := bind_eq_error h
  · contradiction
  injection hatoms with hatoms hr₂
  subst hatoms hr₂
  obtain h | ⟨⟨n, p⟩, r₃, hrun, h⟩ := bind_eq_error h
  · exact .inl ((sameCommit_passes _).error hr₁ h).2
  exact settle_error_cases ((sameCommit_passes _).ok hr₁ hrun).2 h

/-- A run that is cancelled after its first pass leaves what it has committed before. -/
theorem optimize_cancelled_sameCommit :
    ∃ r, optimize swingDescent (· = 2) ⟨swingStore, #[]⟩ = .error (.cancelled 2) r ∧
      r.store.atoms.values = #[0] ∧ r.store.atoms.committed = #[1] := by
  have heval : onFailure (fun e r => (e, r.store.atoms.values))
      (optimize swingDescent (· = 2) ⟨swingStore, #[]⟩) = some (.cancelled 2, #[0]) := by
    decide +kernel
  obtain ⟨e, r, hrun, heval⟩ := exists_of_onFailure heval
  injection heval with he hvalues
  have hstart : swingStore.atoms.committed = #[1] := by decide +kernel
  obtain hsame | hunsaved := optimize_error_cases hrun
  · have hcommitted : r.store.atoms.committed = swingStore.atoms.committed := hsame.committed_eq
    exact ⟨r, he ▸ hrun, hvalues, hcommitted.trans hstart⟩
  · obtain ⟨_, _, _, hplace, _⟩ := hunsaved.exists_save
    contradiction

/-- The atoms of `swingStore` on a disk on which no directory can be made. -/
def unsavedStore : MemoryStore :=
  { swingStore with
    atoms := { swingStore.atoms with
      place := some { path := "atoms", refused := some .createDirectory } } }

/-- A run fails, its values are committed all the same, and what it has moved by is lost. -/
theorem optimize_unsaved_commits :
    ∃ r, optimize swingDescent (fun _ => false) ⟨unsavedStore, #[]⟩ =
        .error (.file .createVariableDirectory) r ∧
      unsavedStore.atoms.committed = #[1] ∧ r.store.atoms.committed = #[0] ∧
      r.store.atoms.change = 0 := by
  have heval : onFailure (fun e r => (e, r.store.atoms.committed, r.store.atoms.change))
      (optimize swingDescent (fun _ => false) ⟨unsavedStore, #[]⟩) =
        some (.file .createVariableDirectory, #[0], 0) := by decide +kernel
  obtain ⟨e, r, hrun, heval⟩ := exists_of_onFailure heval
  injection heval with he heval
  injection heval with hcommitted hchange
  exact ⟨r, he ▸ hrun, by decide +kernel, hcommitted, hchange⟩

end Descent

end HingeLoss

import HingeLoss.Proofs.Store.Flushing
import HingeLoss.Store.Memory

/-!
# HingeLoss.Proofs.Store.Lawful

Stores that leave their atoms alone.  Listing terms and preparing passes may change a store, but
neither the table of its atoms, which only `withAtoms` replaces, nor the number of its terms.  Both
stores of the library are lawful, whatever they shuffle and whether or not their disk fails.
-/

namespace HingeLoss

/-- A store that changes its atoms through `withAtoms` only. -/
class LawfulTermStore (σ : Type) [TermStore σ] : Prop where
  atoms_withAtoms : ∀ (t : AtomTable) (s : σ), TermStore.atoms (TermStore.withAtoms t s) = t
  atoms_terms : ∀ s : σ, TermStore.atoms (finalState (TermStore.terms s)) = TermStore.atoms s
  atoms_beginRun : ∀ s : σ, TermStore.atoms (finalState (TermStore.beginRun s)) = TermStore.atoms s
  atoms_endPass : ∀ s : σ, TermStore.atoms (TermStore.endPass s) = TermStore.atoms s

/-- A run begins with the atoms of its store. -/
theorem LawfulTermStore.atoms_of_beginRun {σ : Type} [TermStore σ] [LawfulTermStore σ] {s s₀ : σ}
    (h : TermStore.beginRun s = .ok () s₀) : TermStore.atoms s₀ = TermStore.atoms s := by
  have hatoms := atoms_beginRun s
  rwa [h, finalState_ok] at hatoms

/-- A store whose number of terms is the same before and after it is read. -/
class SizedTermStore (σ : Type) [TermStore σ] : Prop where
  size_withAtoms : ∀ (t : AtomTable) (s : σ), TermStore.size (TermStore.withAtoms t s) =
    TermStore.size s
  size_terms : ∀ s : σ, TermStore.size (finalState (TermStore.terms s)) = TermStore.size s
  size_beginRun : ∀ s : σ, TermStore.size (finalState (TermStore.beginRun s)) = TermStore.size s
  size_endPass : ∀ s : σ, TermStore.size (TermStore.endPass s) = TermStore.size s

/-- An operation on the atoms of a store leaves the rest of the store alone. -/
theorem TermStore.finalState_onAtoms {σ α : Type} [TermStore σ] (op : EStateM Fault AtomTable α)
    (s : σ) : finalState (onAtoms op s) = withAtoms (finalState (op (atoms s))) s := by
  unfold onAtoms
  cases op (atoms s) <;> rfl

namespace MemoryStore

theorem keeps_listTerms {I : MemoryStore → Prop} : Preserves I listTerms := by
  intro s hs
  unfold listTerms
  cases s.checkOpen <;> exact ⟨trivial, hs⟩

instance : LawfulTermStore MemoryStore where
  atoms_withAtoms _ _ := rfl
  atoms_terms s := (keeps_listTerms (I := fun t => atoms t = atoms s)).finalState rfl
  atoms_beginRun s := by
    change atoms (finalState (beginRun s)) = atoms s
    unfold beginRun
    split <;> rfl
  atoms_endPass _ := rfl

instance : SizedTermStore MemoryStore where
  size_withAtoms _ _ := rfl
  size_terms s :=
    (keeps_listTerms (I := fun t => TermStore.size t = TermStore.size s)).finalState rfl
  size_beginRun s := by
    change TermStore.size (finalState (beginRun s)) = TermStore.size s
    unfold beginRun
    cases s.checkOpen with
    | error e => rfl
    | ok _ =>
      cases s.shuffler with
      | none => rfl
      | some shuffler => exact (shuffler.perm_apply 0 s.terms).length_eq
  size_endPass _ := rfl

end MemoryStore

namespace PagedStore

section Frame

variable (a : AtomTable)

theorem keeps_atoms_flush : Preserves (fun s => atoms s = a) flush :=
  keeps_flush (fun _ _ hs => hs) fun _ _ hs => hs

theorem atoms_of_rearranged {s s' : PagedStore} (h : Rearranged s s') (hs : atoms s = a) :
    atoms s' = a := by
  rw [h.eq]
  exact hs

end Frame

instance : LawfulTermStore PagedStore where
  atoms_withAtoms _ _ := rfl
  atoms_terms s :=
    (keeps_listTerms (keeps_atoms_flush (atoms s)) fun _ _ => atoms_of_rearranged _).finalState rfl
  atoms_beginRun s :=
    (keeps_beginRun (keeps_atoms_flush (atoms s)) fun _ _ => atoms_of_rearranged _).finalState rfl
  atoms_endPass s := atoms_of_rearranged _ (rearranged_endPass s) rfl

theorem keeps_total_flush (n : Nat) : Preserves (fun s => s.total = n) flush :=
  keeps_flush (fun _ _ hs => hs) fun _ _ hs => hs

theorem total_of_rearranged (n : Nat) {s s' : PagedStore} (h : Rearranged s s') (hs : s.total = n) :
    s'.total = n := by
  rw [h.eq]
  exact hs

instance : SizedTermStore PagedStore where
  size_withAtoms _ _ := rfl
  size_terms s :=
    (keeps_listTerms (keeps_total_flush s.total) fun _ _ => total_of_rearranged _).finalState rfl
  size_beginRun s :=
    (keeps_beginRun (keeps_total_flush s.total) fun _ _ => total_of_rearranged _).finalState rfl
  size_endPass s := total_of_rearranged _ (rearranged_endPass s) rfl

end PagedStore

end HingeLoss

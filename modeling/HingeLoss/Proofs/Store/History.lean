import HingeLoss.Proofs.Store.Agreement
import HingeLoss.Proofs.Store.Lawful

/-!
# HingeLoss.Proofs.Store.History

What a history of operations makes of a store in memory.

1. an operation changes the terms and the generator of a store at most, and the generator only by
   closing it;
2. without a shuffler a reading operation changes nothing, so a history comes to the same store as
   its insertions and removals alone.
-/

namespace HingeLoss

namespace MemoryStore

variable {I : MemoryStore → Prop}

theorem keeps_insert (h : ∀ s ts, I s → I { s with terms := ts }) (t : Term Single) :
    Preserves I (insert t) := by
  intro s hs
  unfold insert
  cases s.checkInsert t with
  | error e => exact ⟨trivial, hs⟩
  | ok _ => exact ⟨trivial, h s _ hs⟩

theorem keeps_termAt (i : Nat) : Preserves I (termAt i) := by
  intro s hs
  unfold termAt
  cases s.checkOpen <;> cases s.terms[i]? <;> exact ⟨trivial, hs⟩

/-- Beginning a run reorders the terms at most, and only with a shuffler. -/
theorem keeps_beginRun (h : ∀ s ts, I s → s.shuffler = none ∨ I { s with terms := ts }) :
    Preserves I beginRun := by
  intro s hs
  unfold beginRun
  cases s.checkOpen with
  | error e => exact ⟨trivial, hs⟩
  | ok _ =>
    cases hshuffler : s.shuffler with
    | none => exact ⟨trivial, hs⟩
    | some shuffler =>
      have hs' := h s (shuffler.apply 0 s.terms) hs
      rw [hshuffler] at hs'
      exact ⟨trivial, hs'.resolve_left fun h => nomatch h⟩

end MemoryStore

namespace StoreOp

open MemoryStore

variable {I : MemoryStore → Prop} {op : StoreOp} {m : MemoryStore}

/-- A reading operation keeps what does not depend on the terms, and without a shuffler it keeps
everything. -/
theorem keeps_read (hread : op.isRead = true)
    (h : ∀ s ts, I s → s.shuffler = none ∨ I { s with terms := ts }) :
    Preserves I (op.run : EStateM Fault MemoryStore StoreAnswer) :=
  keeps_run_of_isRead hread keeps_termAt keeps_listTerms (keeps_beginRun h) fun _ hs => hs

/-- An operation keeps what does not depend on the terms, and, if it closes the store, nor on the
generator. -/
theorem keeps_run (h : ∀ s ts, I s → I { s with terms := ts })
    (hclose : op = .close → ∀ s, I s → I s.shut) :
    Preserves I (op.run : EStateM Fault MemoryStore StoreAnswer) := by
  refine keeps_run_of_writes (fun hread => keeps_read hread fun s ts hs => .inr (h s ts hs))
    (keeps_insert h) (Keeps.modify fun s hs => h s _ hs) fun heq => ?_
  exact Keeps.modify fun s hs => hclose heq _ (h s _ hs)

/-- What every operation of a history keeps, the history keeps. -/
theorem keeps_runAll {ops : List StoreOp} (h : ∀ s ts, I s → I { s with terms := ts })
    (hclose : .close ∈ ops → ∀ s, I s → I s.shut) (hm : I m) :
    I (runAll ops m) :=
  Keeps.stateAfter (fun _ hop => keeps_run h fun heq => hclose (heq ▸ hop)) hm

/-- Without a shuffler, a history comes to the same store as its insertions and removals alone. -/
theorem runAll_filter (ops : List StoreOp) (hm : m.shuffler = none) :
    runAll (ops.filter (!·.isRead)) m = runAll ops m := by
  induction ops generalizing m with
  | nil => rfl
  | cons op ops ih =>
    cases hread : op.isRead with
    | true =>
      have hsame : finalState (op.run m) = m :=
        (keeps_read (I := (· = m)) hread fun s _ hs => .inl (hs ▸ hm)).finalState rfl
      rw [List.filter_cons_of_neg (by simp [hread]), ih hm]
      change _ = runAll ops (finalState (op.run m))
      rw [hsame]
    | false =>
      rw [List.filter_cons_of_pos (by simp [hread])]
      refine ih ?_
      exact (keeps_run (I := fun s => s.shuffler = none) (fun _ _ hs => hs)
        fun _ _ hs => hs).finalState hm

end StoreOp

end HingeLoss

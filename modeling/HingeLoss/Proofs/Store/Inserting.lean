import HingeLoss.Proofs.Store.Reachable

/-!
# HingeLoss.Proofs.Store.Inserting

What an insertion that fails leaves in a paged store.

A term that is refused leaves the store as it was.  A term that is not refused comes onto the open
page, and is counted, before the page is written; when the page is full and cannot be written, the
insertion fails, and the term stays where it is.  So an insertion is whole unless its term fills the
open page and the disk refuses the page (`FillsUnwritable`), and then a caller who tries again
stores the term twice.
-/

namespace HingeLoss

namespace PagedStore

variable {s : PagedStore} {t : Term Single} {taken : List (Term Single)}

/-- An insertion puts its term behind those that have been taken, or it fails and changes neither
the terms nor their number. -/
def InsertsWhole (s : PagedStore) (t : Term Single) (taken : List (Term Single)) : Prop :=
  match insert t s with
  | .ok () s' => s'.Carries (taken ++ [t]) ∧ s'.total = s.total + 1
  | .error _ s' => s'.Carries taken ∧ s'.total = s.total

/-- The store on another disk. -/
def onDisk (s : PagedStore) (d : PageDirectory) : PagedStore := { s with directory := d }

/-- The page that is written when a term has filled the open page. -/
def writeFilled (s : PagedStore) (t : Term Single) : EStateM.Result FileFault PageDirectory Unit :=
  PageDirectory.write s.pages.size (s.append t).buffer s.directory

/-- A term that is not refused fills the open page, and the disk refuses the page. -/
structure FillsUnwritable (s : PagedStore) (t : Term Single) : Prop where
  accepted : s.checkInsert t = .ok ()
  full : s.options.pageSize ≤ s.buffered + 1
  unwritable : succeeds (s.writeFilled t) = false

section Full

variable (haccepted : s.checkInsert t = .ok ()) (hfull : s.options.pageSize ≤ s.buffered + 1)

include haccepted hfull

theorem insert_eq_flush : insert t s = flush (s.append t) :=
  (insert_of_checkInsert haccepted).trans (if_pos hfull)

theorem insert_of_written {d : PageDirectory} (hwrite : s.writeFilled t = .ok () d) :
    insert t s = .ok () ((s.append t).withPage d) := by
  have hne : (s.append t).buffered ≠ 0 := Nat.succ_ne_zero s.buffered
  have hwrite : PageDirectory.write (s.append t).pages.size (s.append t).buffer
      (s.append t).directory = .ok () d := hwrite
  simp only [insert_eq_flush haccepted hfull, flush, if_neg hne, hwrite, withPage]

/-- The term stays on the open page when the page cannot be written. -/
theorem insert_of_unwritable (hunwritable : succeeds (s.writeFilled t) = false) :
    ∃ e s', insert t s = .error (.file e) s' ∧ s' = (s.append t).onDisk s'.directory := by
  have hne : (s.append t).buffered ≠ 0 := Nat.succ_ne_zero s.buffered
  cases hwrite : s.writeFilled t with
  | ok _ d =>
    rw [hwrite] at hunwritable
    contradiction
  | error e d =>
    have hwrite : PageDirectory.write (s.append t).pages.size (s.append t).buffer
        (s.append t).directory = .error e d := hwrite
    refine ⟨e, (s.append t).onDisk d, ?_, rfl⟩
    simp only [insert_eq_flush haccepted hfull, flush, if_neg hne, hwrite, onDisk]

end Full

/-- An insertion whose page is not refused by the disk is whole. -/
theorem Carries.insertsWhole (h : s.Carries taken) (hsize : t.size ≤ Term.maxSize)
    (hwritable : ¬ s.FillsUnwritable t) : s.InsertsWhole t taken := by
  have hafter := h.insert hsize
  unfold InsertsWhole
  unfold takenAfter at hafter
  obtain ⟨e, hcheck, hinsert⟩ | ⟨hcheck, hinsert⟩ := insert_eq s t
  · rw [hinsert]
    exact ⟨h, rfl⟩
  · rw [hcheck] at hafter
    by_cases hfull : s.options.pageSize ≤ s.buffered + 1
    · cases hwrite : s.writeFilled t with
      | ok _ d =>
        rw [insert_of_written hcheck hfull hwrite] at hafter ⊢
        exact ⟨hafter, rfl⟩
      | error e d => exact (hwritable ⟨hcheck, hfull, by rw [hwrite]; rfl⟩).elim
    · have hroom : PagedStore.insert t s = .ok () (s.append t) := hinsert.trans (if_neg hfull)
      rw [hroom] at hafter ⊢
      exact ⟨hafter, rfl⟩

/-- An insertion whose page is refused by the disk fails and stores its term, and another attempt
stores it a second time. -/
theorem Carries.insert_of_fillsUnwritable (h : s.Carries taken) (hsize : t.size ≤ Term.maxSize)
    (hfills : s.FillsUnwritable t) :
    ∃ e s', PagedStore.insert t s = .error (.file e) s' ∧ s'.Carries (taken ++ [t]) ∧
      s'.total = s.total + 1 ∧
      ∀ d : PageDirectory, (∀ k < s'.pages.size, d.entry k = s'.directory.entry k) →
        (finalState (PagedStore.insert t (s'.onDisk d))).Carries (taken ++ [t, t]) := by
  obtain ⟨e, s', hinsert, hsame⟩ := insert_of_unwritable hfills.accepted hfills.full
    hfills.unwritable
  have hafter := h.insert hsize
  rw [takenAfter, hfills.accepted, hinsert] at hafter
  refine ⟨e, s', hinsert, hafter, by rw [hsame]; rfl, fun d hd => ?_⟩
  -- The check of a term looks at nothing that a failed insertion has changed.
  have haccepted : (s'.onDisk d).checkInsert t = .ok () := by
    rw [hsame]
    exact hfills.accepted
  have hagain := (show (s'.onDisk d).Carries _ from hafter.of_directory hd).insert hsize
  rw [takenAfter, haccepted] at hagain
  change Carries _ (taken ++ [t] ++ [t]) at hagain
  rwa [List.append_assoc] at hagain

/-- **An insertion is whole, unless its term fills the open page and the disk refuses the page.**
Then it fails, but the term is stored and counted, and a caller who tries again on a disk with the
same page files stores it twice. -/
theorem Reachable.insertsWhole_iff {allowed : PageDirectory → Prop} {l : Ledger}
    (h : Reachable allowed s l) (hsize : t.size ≤ Term.maxSize) :
    (s.InsertsWhole t l.taken ↔ ¬ s.FillsUnwritable t) ∧
      (s.FillsUnwritable t → ∃ e s', insert t s = .error (.file e) s' ∧
        s'.Carries (l.taken ++ [t]) ∧ s'.total = s.total + 1 ∧
        ∀ d : PageDirectory, (∀ k < s'.pages.size, d.entry k = s'.directory.entry k) →
          (finalState (insert t (s'.onDisk d))).Carries (l.taken ++ [t, t])) := by
  have hcarries := ((isInvariant_isSound allowed).holds h).carries
  refine ⟨⟨fun hwhole hfills => ?_, hcarries.insertsWhole hsize⟩,
    hcarries.insert_of_fillsUnwritable hsize⟩
  obtain ⟨e, s', hinsert, _, htotal, _⟩ := hcarries.insert_of_fillsUnwritable hsize hfills
  rw [InsertsWhole, hinsert] at hwhole
  have hsame : s'.total = s.total := hwhole.2
  omega

/-- A disk with a plain file in the place of the pages. -/
def blockedDisk : PageDirectory := { path := "pages", blocked := true }

/-- On the blocked disk the insertion of the sample term fails, and stores it. -/
theorem insertsWhole_iff_blocked :
    ∃ l, Reachable (fun _ => True) (sampleStore blockedDisk) l ∧
      sampleTerm.size ≤ Term.maxSize ∧ (sampleStore blockedDisk).FillsUnwritable sampleTerm ∧
      ¬ (sampleStore blockedDisk).InsertsWhole sampleTerm l.taken := by
  have hreach : Reachable (fun _ => True) (sampleStore blockedDisk) _ :=
    reachable_sampleStore trivial
  have hsize : sampleTerm.size ≤ Term.maxSize := by decide
  have hfills : (sampleStore blockedDisk).FillsUnwritable sampleTerm :=
    ⟨rfl, Nat.le_refl 1, rfl⟩
  exact ⟨_, hreach, hsize, hfills, fun hwhole =>
    (hreach.insertsWhole_iff hsize).1.mp hwhole hfills⟩

/-- An insertion fails on the blocked disk and is tried again when the way is free.  The first
attempt changes the number of terms, and the term is stored twice. -/
theorem insert_again_doubles :
    ∃ e s₁ s₂, insert sampleTerm (sampleStore blockedDisk) = .error (.file e) s₁ ∧
      (sampleStore blockedDisk).total = 0 ∧ s₁.total = 1 ∧
      insert sampleTerm (s₁.onDisk { path := "pages" }) = .ok () s₂ ∧
      s₂.total = 2 ∧
      s₂.pages.toList.flatMap s₂.fileBytes = records [sampleTerm, sampleTerm] :=
  ⟨_, _, _, rfl, rfl, rfl, rfl, rfl, rfl⟩

end PagedStore

end HingeLoss

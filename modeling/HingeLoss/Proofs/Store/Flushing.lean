import HingeLoss.Proofs.Program
import HingeLoss.Proofs.Store.Pages

/-!
# HingeLoss.Proofs.Store.Flushing

Flushing on a disk that may refuse, and what comes between a flush and reading.

1. A flush can fail at three places: the directory cannot be made, the file cannot be made, or only
   a part of it can be written.  At each of them the files of the earlier pages stay as they are,
   because the new file has a number of its own, and the open page stays open (`Holds.flush_cases`).
2. Everything else that a reading operation does to a store is to arrange the pages anew
   (`Rearranged`), and what it arranges is always an order of the first pages, however many there
   are by now (`IsOrdered`).

So a property that a flush and a new arrangement keep is kept by every reading operation.
-/

namespace HingeLoss

/-- Whether a fault is one of those that a flush ends with. -/
def Fault.isFlush : Fault → Bool
  | file (.createPageDirectory _) | file (.createPage _) | file (.writePage _) => true
  | _ => false

namespace PageDirectory

/-- Putting an entry in its place, where nothing is in the way, leaves the others alone. -/
theorem entry_put_of_free {d : PageDirectory} (hfree : d.blocked = false) (n k : Nat)
    (e : DiskEntry) : (d.put n e).entry k = if k = n then e else d.entry k := by
  rw [entry_put, hfree]
  rfl

/-- A page is written as it is or not at all, and the other files stay as they are.  A failure may
leave a part of the page under its number. -/
theorem write_cases (d : PageDirectory) (n : Nat) (bytes : Array UInt8) :
    (∃ d', write n bytes d = .ok () d' ∧ d'.entry n = .file bytes ∧
      ∀ k, k ≠ n → d'.entry k = d.entry k) ∨
    ∃ e d', write n bytes d = .error e d' ∧ (Fault.file e).isFlush = true ∧
      ∀ k, k ≠ n → d'.entry k = d.entry k := by
  by_cases hdirectory : d.blocked = true ∨ d.refused = some .createDirectory
  · refine Or.inr ⟨.createPageDirectory d.path, d, ?_, rfl, fun k _ => rfl⟩
    unfold write
    rw [bind_ok (get_apply d), if_pos hdirectory]
    rfl
  · have hfree : d.blocked = false := by
      rw [not_or, Bool.not_eq_true] at hdirectory
      exact hdirectory.1
    have hothers (e : DiskEntry) (k : Nat) (hk : k ≠ n) : (d.put n e).entry k = d.entry k := by
      rw [entry_put_of_free hfree, if_neg hk]
    by_cases hpage : (d.entry n).isDirectory = true ∨ d.refused = some .createPage
    · refine Or.inr ⟨.createPage (d.pagePath n), d, ?_, rfl, fun k _ => rfl⟩
      unfold write
      rw [bind_ok (get_apply d), if_neg hdirectory, if_pos hpage]
      rfl
    · cases hrefused : d.refused with
      | none =>
        refine Or.inl ⟨d.put n (.file bytes), ?_, ?_, hothers _⟩
        · unfold write
          rw [bind_ok (get_apply d), if_neg hdirectory, if_neg hpage, hrefused]
          rfl
        · rw [entry_put_of_free hfree, if_pos rfl]
      | some step =>
        cases step with
        | createDirectory => exact (hdirectory (Or.inr hrefused)).elim
        | createPage => exact (hpage (Or.inr hrefused)).elim
        | write kept =>
          refine Or.inr ⟨.writePage (d.pagePath n), d.put n (.file (bytes.take kept)), ?_, rfl,
            hothers _⟩
          unfold write
          rw [bind_ok (get_apply d), if_neg hdirectory, if_neg hpage, hrefused]
          rfl

end PageDirectory

/-- An order that a draw gives has the same things. -/
theorem Shuffler.perm_apply {α : Type} (f : Shuffler) (draw : Nat) (xs : Array α) :
    (f.apply draw xs).toList.Perm xs.toList := by
  have hperm := (f.order_perm draw xs.size).filterMap fun i => xs[i]?
  rw [filterMap_range_getElem?] at hperm
  exact hperm

namespace PagedStore

variable {s s' : PagedStore} {flushed : List (List (Term Single))} {opened : List (Term Single)}

/-! ## Flushing -/

/-- Two stores that differ at most in what a flush changes. -/
def Flushed (s s' : PagedStore) : Prop :=
  s' = { s with
    directory := s'.directory, pages := s'.pages, buffer := s'.buffer, buffered := s'.buffered }

/-- What a flush can do: nothing on an empty page, the next page, or a failure that may have put
something under the number of the next page. -/
theorem flush_cases (s : PagedStore) :
    (s.buffered = 0 ∧ flush s = .ok () s) ∨
    (s.buffered ≠ 0 ∧ ∃ d, flush s = .ok () (s.withPage d) ∧
      d.entry s.pages.size = .file s.buffer ∧
      ∀ k, k ≠ s.pages.size → d.entry k = s.directory.entry k) ∨
    ∃ e d, flush s = .error (.file e) { s with directory := d } ∧ (Fault.file e).isFlush = true ∧
      ∀ k, k ≠ s.pages.size → d.entry k = s.directory.entry k := by
  by_cases hzero : s.buffered = 0
  · exact Or.inl ⟨hzero, by simp only [flush, hzero, if_true]⟩
  · refine Or.inr ?_
    rcases s.directory.write_cases s.pages.size s.buffer with
      ⟨d, hwrite, hfile, hothers⟩ | ⟨e, d, hwrite, he, hothers⟩
    · refine Or.inl ⟨hzero, d, ?_, hfile, hothers⟩
      simp only [flush, if_neg hzero, hwrite, withPage]
    · refine Or.inr ⟨e, d, ?_, he, hothers⟩
      simp only [flush, if_neg hzero, hwrite]

/-- What the next page and another disk keep, a flush keeps. -/
theorem keeps_flush {I : PagedStore → Prop} (hpage : ∀ s d, I s → I (s.withPage d))
    (hdisk : ∀ s d, I s → I { s with directory := d }) : Preserves I flush := by
  intro s hs
  rcases s.flush_cases with ⟨_, hflush⟩ | ⟨_, d, hflush, _⟩ | ⟨e, d, hflush, _⟩ <;> rw [hflush]
  · exact ⟨trivial, hs⟩
  · exact ⟨trivial, hpage s d hs⟩
  · exact ⟨trivial, hdisk s d hs⟩

/-- Behind a flush that succeeds nothing is buffered, and the order is as before. -/
theorem flush_eq_ok (h : flush s = .ok () s') : s'.buffered = 0 ∧ s'.order = s.order := by
  obtain ⟨hzero, hflush⟩ | ⟨_, d, hflush, _⟩ | ⟨e, d, hflush, _⟩ := s.flush_cases <;>
    rw [hflush] at h
  · injection h with _ h
    exact ⟨h ▸ hzero, by rw [h]⟩
  · injection h with _ h
    rw [← h]
    exact ⟨rfl, rfl⟩
  · contradiction

/-- A flush makes the open page the next one, or it fails and keeps the open page open. -/
theorem Holds.flush_cases (h : s.Holds flushed opened) :
    (∃ s', flush s = .ok () s' ∧ s'.Holds (flushedChunks flushed opened) [] ∧ Flushed s s') ∨
    ∃ e s', flush s = .error (.file e) s' ∧ s'.Holds flushed opened ∧ Flushed s s' := by
  rcases s.flush_cases with
    ⟨hzero, hflush⟩ | ⟨hpos, d, hflush, hfile, hothers⟩ | ⟨e, d, hflush, _, hothers⟩
  · have hopened := h.buffered_eq_zero_iff.mp hzero
    rw [hopened] at h ⊢
    exact Or.inl ⟨s, hflush, h, rfl⟩
  · have hopened : opened ≠ [] := fun hempty => hpos (h.buffered_eq_zero_iff.mpr hempty)
    have hholds := h.push hopened hfile hothers
    have hchunks : flushedChunks flushed opened = flushed ++ [opened] := if_neg hopened
    rw [hchunks]
    exact Or.inl ⟨s.withPage d, hflush, hholds, rfl⟩
  · -- What a failure leaves on the disk has the number of the next page, which no page has.
    refine Or.inr ⟨e, { s with directory := d }, hflush, ?_, rfl⟩
    refine h.of_directory fun k hk => hothers k ?_
    rw [h.size_pages]
    omega

/-- A flush that succeeds has made the open page the next one. -/
theorem Holds.of_flush_eq_ok (h : s.Holds flushed opened) (hflush : flush s = .ok () s') :
    s'.Holds (flushedChunks flushed opened) [] ∧ Flushed s s' := by
  rcases h.flush_cases with ⟨s'', heq, hholds, hsame⟩ | ⟨e, s'', heq, _⟩
  · rw [hflush] at heq
    injection heq with _ heq
    subst heq
    exact ⟨hholds, hsame⟩
  · rw [hflush] at heq
    contradiction

/-- On a calm disk no flush fails. -/
theorem flush_eq_ok_of_calm (h : s.directory.IsCalm) :
    ∃ s', flush s = .ok () s' ∧ s'.directory.IsCalm := by
  by_cases hzero : s.buffered = 0
  · exact ⟨s, by simp only [flush, hzero, if_true], h⟩
  · have hput := h.put s.pages.size (e := .file s.buffer) rfl
    refine ⟨s.withPage (s.directory.put s.pages.size (.file s.buffer)), ?_, hput⟩
    simp only [flush, if_neg hzero, h.write_eq, withPage]

/-- On a calm disk, flushing moves the open chunk behind the others. -/
theorem Holds.flush_eq_ok (h : s.Holds flushed opened) (hcalm : s.directory.IsCalm) :
    ∃ s', flush s = .ok () s' ∧ s'.Holds (flushedChunks flushed opened) [] ∧
      s'.directory.IsCalm ∧ Flushed s s' := by
  obtain ⟨s', hflush, hcalm'⟩ := flush_eq_ok_of_calm hcalm
  obtain ⟨hholds, hsame⟩ := h.of_flush_eq_ok hflush
  exact ⟨s', hflush, hholds, hcalm', hsame⟩

/-! ## The order of the pages -/

/-- The order of the pages is one of the first of them. -/
structure IsOrdered (s : PagedStore) : Prop where
  perm : s.order.toList.Perm (List.range s.order.size)
  size_le : s.order.size ≤ s.pages.size

theorem IsOrdered.empty (h : s.order = #[]) : s.IsOrdered := by
  constructor
  · rw [h]
    exact List.Perm.refl _
  · rw [h]
    exact Nat.zero_le _

/-- An order of as many pages as there are takes each page once. -/
theorem IsOrdered.perm_pages (h : s.IsOrdered) (hsize : s.order.size = s.pages.size) :
    (s.order.toList.filterMap fun i => s.pages[i]?).Perm s.pages.toList := by
  have hperm := h.perm.filterMap fun i => s.pages[i]?
  rw [hsize, filterMap_range_getElem?] at hperm
  exact hperm

theorem perm_shuffled {α : Type} (shuffle : Bool) (xs : Array α) (s : PagedStore) :
    (s.shuffled shuffle xs).1.toList.Perm xs.toList := by
  unfold shuffled
  split
  · exact s.shuffler.perm_apply s.drawn xs
  · exact List.Perm.refl _

/-- What is shuffled may be counted as a draw, and that is all that changes. -/
theorem shuffled_snd {α : Type} (shuffle : Bool) (xs : Array α) (s : PagedStore) :
    (s.shuffled shuffle xs).2 = { s with drawn := (s.shuffled shuffle xs).2.drawn } := by
  unfold shuffled
  split <;> rfl

/-- Two stores that differ at most in the order of the pages and in what has been drawn. -/
structure Rearranged (s s' : PagedStore) : Prop where
  eq : s' = { s with order := s'.order, drawn := s'.drawn }
  isOrdered : s.IsOrdered → s'.IsOrdered

theorem Holds.rearranged (h : s.Holds flushed opened) (hs : Rearranged s s') :
    s'.Holds flushed opened := by
  rw [hs.eq]
  exact ⟨h.pages, h.files, h.buffer, h.buffered, h.total, h.nonempty⟩

/-- A draw leaves the order of the pages alone. -/
theorem Rearranged.of_drawn {n : Nat} (h : s' = { s with drawn := n }) : Rearranged s s' := by
  subst h
  exact ⟨rfl, fun hs => ⟨hs.perm, hs.size_le⟩⟩

/-- The order may be given up. -/
theorem rearranged_empty (s : PagedStore) : Rearranged s { s with order := #[] } :=
  ⟨rfl, fun _ => .empty rfl⟩

/-- Pages in another order, which may have been drawn. -/
theorem rearranged_shuffled (shuffle : Bool) {xs : Array Nat}
    (hperm : s.IsOrdered → xs.toList.Perm (List.range xs.size))
    (hsize : s.IsOrdered → xs.size ≤ s.pages.size) :
    Rearranged s { (s.shuffled shuffle xs).2 with order := (s.shuffled shuffle xs).1 } := by
  have hsame : (s.shuffled shuffle xs).1.size = xs.size := (perm_shuffled shuffle xs s).length_eq
  have hpages : (s.shuffled shuffle xs).2.pages = s.pages := by rw [shuffled_snd]
  constructor
  · simp only
    rw [shuffled_snd]
  · intro hs
    constructor
    · simp only [hsame]
      exact (perm_shuffled shuffle xs s).trans (hperm hs)
    · simp only [hsame, hpages]
      exact hsize hs

theorem rearranged_endPass (s : PagedStore) : Rearranged s s.endPass :=
  rearranged_shuffled _ (·.perm) (·.size_le)

theorem rearranged_refreshOrder (s : PagedStore) : Rearranged s s.refreshOrder := by
  unfold refreshOrder
  split
  · exact ⟨rfl, id⟩
  · refine rearranged_shuffled _ ?_ ?_
    · intro _
      rw [Array.toList_range, Array.size_range]
    · intro _
      exact Nat.le_of_eq Array.size_range

/-- An order that has been made anew is one of all the pages. -/
theorem size_refreshOrder (s : PagedStore) :
    s.refreshOrder.order.size = s.refreshOrder.pages.size := by
  unfold refreshOrder
  split
  · assumption
  · have hperm := perm_shuffled s.options.randomizePageAccess (Array.range s.pages.size) s
    have hsize := hperm.length_eq
    rw [Array.length_toList, Array.length_toList, Array.size_range] at hsize
    simp only [hsize]
    rw [shuffled_snd]

/-- Reading pages draws at most. -/
theorem readPages_snd (ps : List Page) (s : PagedStore) :
    (readPages ps s).2 = { s with drawn := (readPages ps s).2.drawn } := by
  induction ps generalizing s with
  | nil => rfl
  | cons p ps ih =>
    unfold readPages
    split
    · rfl
    · next ts _ =>
      simp only
      rw [ih, shuffled_snd]

/-! ## What reading keeps -/

section Keeping

variable {I : PagedStore → Prop} (hflush : Preserves I flush)
  (harrange : ∀ s s', Rearranged s s' → I s → I s')

include hflush harrange

theorem keeps_prepare : Preserves I prepare := by
  have hopen : Preserves I checkOpen := by
    refine Keeps.get.bind fun s _ => ?_
    split
    · exact Keeps.throw trivial
    · exact Keeps.pure trivial
  refine hopen.bind fun _ _ => hflush.bind fun _ _ => ?_
  exact Keeps.modify fun s hs => harrange _ _ (rearranged_refreshOrder s) hs

/-- What follows on a preparation may read some of the pages. -/
theorem keeps_reading (pages : PagedStore → List Page) :
    Preserves I (prepare >>= fun _ => modifyGet fun s => readPages (pages s) s) := by
  refine (keeps_prepare hflush harrange).bind fun _ _ s hs => ?_
  exact ⟨trivial, harrange _ _ (.of_drawn (readPages_snd (pages s) s)) hs⟩

theorem keeps_listTerms : Preserves I listTerms := keeps_reading hflush harrange _

theorem keeps_listSome (count : Nat) : Preserves I (listSome count) :=
  keeps_reading hflush harrange _

theorem keeps_termAt (i : Nat) : Preserves I (termAt i) := by
  refine (keeps_prepare hflush harrange).bind fun _ _ => Keeps.get.bind fun s _ => ?_
  simp only
  split
  · exact Keeps.throw trivial
  · split
    · exact Keeps.throw trivial
    · split
      · exact Keeps.pure trivial
      · exact Keeps.throw trivial

theorem keeps_beginRun : Preserves I beginRun := by
  unfold beginRun
  refine Keeps.bind (Keeps.modify fun s hs => ?_) fun _ _ => keeps_prepare hflush harrange
  exact harrange _ _ (rearranged_empty s) hs

end Keeping

end PagedStore

end HingeLoss

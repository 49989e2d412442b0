import HingeLoss.Proofs.Store.Flushing

/-!
# HingeLoss.Proofs.Store.Content

How the operations of a paged store change its content, on any disk.

`Carries s taken` says that an open store holds the terms `taken` in this order, however they are
cut into pages, that all of them can be read back, and that the pages have an order.

1. Flushing and reading change nothing of that, whether or not the disk refuses a page.
2. An insertion that is not refused puts its term behind the others, even if the page that it fills
   cannot be flushed, and a removal leaves nothing, even if a file cannot be removed.
3. No page is larger than the options say, and the open page is not full (`IsBounded`), as long as
   no insertion has failed to flush.
4. Once the open page is flushed, each term is found at its position, and the terms are listed in
   some order, each of them once.
-/

namespace HingeLoss

namespace PagedStore

open Holds

variable {s s' : PagedStore} {taken : List (Term Single)} {t : Term Single}

/-! ## The content -/

/-- An open store whose content is a list of terms. -/
structure Carries (s : PagedStore) (taken : List (Term Single)) : Prop where
  isOpen : s.generator.isNone = false
  pageSize_pos : 0 < s.options.pageSize
  content : ∃ flushed opened, s.Holds flushed opened ∧ flushed.flatten ++ opened = taken
  readable : ∀ t ∈ taken, Readable s.rules s.atoms.size t
  isOrdered : s.IsOrdered

namespace Carries

/-- An open store without pages and with an empty open page carries nothing. -/
theorem empty (hopen : s.generator.isNone = false) (hpos : 0 < s.options.pageSize)
    (hpages : s.pages = #[]) (hbuffer : s.buffer = #[]) (hbuffered : s.buffered = 0)
    (htotal : s.total = 0) (horder : s.order = #[]) : s.Carries [] where
  isOpen := hopen
  pageSize_pos := hpos
  content := ⟨[], [], .empty hpages hbuffer hbuffered htotal, rfl⟩
  readable := fun _ ht => nomatch ht
  isOrdered := .empty horder

/-- The order of the pages and the draws do not matter. -/
theorem rearranged (h : s.Carries taken) (hs : Rearranged s s') : s'.Carries taken where
  isOpen := by
    rw [hs.eq]
    exact h.isOpen
  pageSize_pos := by
    rw [hs.eq]
    exact h.pageSize_pos
  content := by
    obtain ⟨flushed, opened, hholds, hterms⟩ := h.content
    exact ⟨flushed, opened, hholds.rearranged hs, hterms⟩
  readable := by
    rw [hs.eq]
    exact h.readable
  isOrdered := hs.isOrdered h.isOrdered

/-- The terms may be cut into pages in another way, as long as there are not fewer pages. -/
theorem flushed (h : s.Carries taken) (hs : Flushed s s') (hsize : s.pages.size ≤ s'.pages.size)
    (hcontent : ∃ flushed opened, s'.Holds flushed opened ∧ flushed.flatten ++ opened = taken) :
    s'.Carries taken where
  isOpen := by
    rw [hs]
    exact h.isOpen
  pageSize_pos := by
    rw [hs]
    exact h.pageSize_pos
  content := hcontent
  readable := by
    rw [hs]
    exact h.readable
  isOrdered := by
    have horder : s'.order = s.order := by rw [hs]
    constructor
    · rw [horder]
      exact h.isOrdered.perm
    · rw [horder]
      exact Nat.le_trans h.isOrdered.size_le hsize

end Carries

/-- A flush loses, doubles and moves no term, whether it succeeds or fails. -/
theorem keeps_carries_flush (taken : List (Term Single)) : Preserves (Carries · taken) flush := by
  intro s hs
  obtain ⟨flushed, opened, hholds, hterms⟩ := hs.content
  rcases hholds.flush_cases with ⟨s', hflush, hholds', hsame⟩ | ⟨e, s', hflush, hholds', hsame⟩
  · rw [hflush]
    refine ⟨trivial, hs.flushed hsame ?_ ⟨_, _, hholds', ?_⟩⟩
    · rw [hholds.size_pages, hholds'.size_pages]
      unfold flushedChunks
      split
      · exact Nat.le_refl _
      · rw [List.length_append]
        omega
    · rw [flatten_flushedChunks, hterms, List.append_nil]
  · rw [hflush]
    refine ⟨trivial, hs.flushed hsame ?_ ⟨_, _, hholds', hterms⟩⟩
    exact Nat.le_of_eq (hholds.size_pages.trans hholds'.size_pages.symm)

/-- A disk with the same page files serves as well. -/
theorem Carries.of_directory (h : s.Carries taken) {d : PageDirectory}
    (hd : ∀ k < s.pages.size, d.entry k = s.directory.entry k) :
    Carries { s with directory := d } taken := by
  obtain ⟨flushed, opened, hholds, hterms⟩ := h.content
  rw [hholds.size_pages] at hd
  exact ⟨h.isOpen, h.pageSize_pos, ⟨flushed, opened, hholds.of_directory hd, hterms⟩, h.readable,
    h.isOrdered.perm, h.isOrdered.size_le⟩

/-- A larger table of atoms serves as well. -/
theorem Carries.grow (h : s.Carries taken) {table : AtomTable}
    (hsize : s.atoms.size ≤ table.size) : Carries { s with atoms := table } taken := by
  obtain ⟨flushed, opened, hholds, hterms⟩ := h.content
  refine ⟨h.isOpen, h.pageSize_pos, ⟨flushed, opened, hholds.frame table s.order,
    hterms⟩, fun t ht => ?_, h.isOrdered.perm, h.isOrdered.size_le⟩
  have hread := h.readable t ht
  exact ⟨hread.recordable, fun e he => Nat.lt_of_lt_of_le (hread.isWithin e he) hsize⟩

/-! ## Inserting and removing -/

/-- What is found out about a term that is not refused. -/
theorem checkInsert_eq_ok (h : s.checkInsert t = .ok ()) :
    s.rules.owns t.rule = true ∧ TermStore.checkVariables s.atoms t = .ok () := by
  unfold checkInsert at h
  by_cases hopen : s.closed = true
  · rw [if_pos hopen] at h
    contradiction
  · by_cases howns : s.rules.owns t.rule = false
    · rw [if_neg hopen, if_pos howns] at h
      contradiction
    · rw [if_neg hopen, if_neg howns] at h
      rw [Bool.not_eq_false] at howns
      exact ⟨howns, h⟩

theorem Carries.append (h : s.Carries taken) (hcheck : s.checkInsert t = .ok ())
    (hsize : t.size ≤ Term.maxSize) : (s.append t).Carries (taken ++ [t]) where
  isOpen := h.isOpen
  pageSize_pos := h.pageSize_pos
  content := by
    obtain ⟨flushed, opened, hholds, hterms⟩ := h.content
    refine ⟨flushed, opened ++ [t], hholds.append t, ?_⟩
    rw [← hterms, List.append_assoc]
  readable := by
    intro u hu
    rw [List.mem_append, List.mem_singleton] at hu
    cases hu with
    | inl hu => exact h.readable u hu
    | inr hu =>
      obtain ⟨howns, hvariables⟩ := checkInsert_eq_ok hcheck
      rw [hu]
      exact .of_checkVariables howns hsize hvariables
  isOrdered := ⟨h.isOrdered.perm, h.isOrdered.size_le⟩

/-- An insertion puts the term behind the others or refuses it, and then it changes nothing. -/
theorem insert_eq (s : PagedStore) (t : Term Single) :
    (∃ e, s.checkInsert t = .error e ∧ insert t s = .error e s) ∨
    s.checkInsert t = .ok () ∧ insert t s =
      if s.options.pageSize ≤ (s.append t).buffered then flush (s.append t)
      else .ok () (s.append t) := by
  cases hcheck : s.checkInsert t with
  | error e => exact Or.inl ⟨e, rfl, insert_of_refused hcheck⟩
  | ok u => exact Or.inr ⟨rfl, insert_of_checkInsert hcheck⟩

/-- On a calm disk an insertion succeeds unless it is refused. -/
theorem insert_of_calm (h : s.directory.IsCalm) (t : Term Single) :
    succeeds (insert t s) = (s.checkInsert t).isOk ∧
      (finalState (insert t s)).directory.IsCalm := by
  rcases insert_eq s t with ⟨e, hcheck, hinsert⟩ | ⟨hcheck, hinsert⟩
  · rw [hinsert, hcheck]
    exact ⟨rfl, h⟩
  · rw [hinsert, hcheck]
    split
    · obtain ⟨s', hflush, hcalm⟩ := flush_eq_ok_of_calm (s := s.append t) h
      rw [hflush]
      exact ⟨rfl, hcalm⟩
    · exact ⟨rfl, h⟩

/-- The content behind an attempt to insert a term. -/
def takenAfter (s : PagedStore) (t : Term Single) (taken : List (Term Single)) :
    List (Term Single) := if (s.checkInsert t).isOk then taken ++ [t] else taken

theorem Carries.insert (h : s.Carries taken) (hsize : t.size ≤ Term.maxSize) :
    (finalState (insert t s)).Carries (s.takenAfter t taken) := by
  unfold takenAfter
  rcases insert_eq s t with ⟨e, hcheck, hinsert⟩ | ⟨hcheck, hinsert⟩
  · rw [hinsert, hcheck]
    exact h
  · have happend := h.append hcheck hsize
    rw [hinsert, hcheck]
    split
    · exact (keeps_carries_flush _).finalState happend
    · exact happend

/-- A removal leaves an empty store, even if a file stays. -/
theorem finalState_clear (s : PagedStore) : finalState (clear s) = { s with
    directory := (removePages s.directory s.pages.toList).1, order := #[], pages := #[],
    buffer := #[], buffered := 0, total := 0 } := by
  unfold clear
  simp only
  split <;> rfl

theorem Carries.clear (h : s.Carries taken) : (finalState (clear s)).Carries [] := by
  rw [finalState_clear]
  exact .empty h.isOpen h.pageSize_pos rfl rfl rfl rfl rfl

/-! ## The files -/

/-- The bytes in the file of a page, none if there is no such file. -/
def fileBytes (s : PagedStore) (p : Page) : List UInt8 :=
  match s.directory.read p.number with
  | .ok bytes => bytes.toList
  | .error _ => []

/-- The number of terms on pages. -/
def countTerms : List Page → Nat
  | [] => 0
  | p :: ps => p.terms + countTerms ps

section Files

variable {flushed : List (List (Term Single))} {opened : List (Term Single)}

theorem fileBytes_ofChunk {c : List (Term Single) × Nat} (hfile : s.HasFile c) :
    s.fileBytes (Page.ofChunk c) = records c.1 := by
  simp only [fileBytes, PageDirectory.read, Page.ofChunk]
  rw [hfile]

/-- The page files one after the other are the records of all terms on them. -/
theorem Holds.files_eq (h : s.Holds flushed opened) :
    s.pages.toList.flatMap s.fileBytes = records flushed.flatten := by
  have hfiles : flushed.zipIdx.map (s.fileBytes ∘ Page.ofChunk) =
      flushed.zipIdx.map (records ∘ (·.1)) :=
    List.map_congr_left fun c hc => fileBytes_ofChunk (h.files c hc)
  rw [h.pages, List.flatMap_def, List.map_map, hfiles, ← List.map_map, List.zipIdx_map_fst,
    records_flatten]

theorem countTerms_ofChunk (cs : List (List (Term Single) × Nat)) :
    countTerms (cs.map Page.ofChunk) = (cs.flatMap (·.1)).length := by
  induction cs with
  | nil => rfl
  | cons c cs ih =>
    rw [List.map_cons, countTerms, ih, List.flatMap_cons, List.length_append]
    rfl

theorem Holds.countTerms_eq (h : s.Holds flushed opened) :
    countTerms s.pages.toList = flushed.flatten.length := by
  rw [h.pages, countTerms_ofChunk, flatMap_zipIdx]

/-- The page at a position has its number and at least one term. -/
theorem Holds.page_at (h : s.Holds flushed opened) {i : Nat} {p : Page}
    (hp : s.pages[i]? = some p) : p.number = i ∧ 0 < p.terms := by
  rw [← Array.getElem?_toList, h.pages, List.getElem?_map, List.getElem?_zipIdx] at hp
  cases hchunk : flushed[i]? with
  | none =>
    rw [hchunk] at hp
    contradiction
  | some ts =>
    rw [hchunk] at hp
    injection hp with hp
    subst hp
    have hne := h.nonempty ts (List.mem_of_getElem? hchunk)
    exact ⟨Nat.zero_add i, List.length_pos_iff.mpr hne⟩

end Files

/-! ## The sizes of the pages -/

/-- Whether no page holds more terms than the options say, and the open page has room. -/
structure IsBounded (s : PagedStore) : Prop where
  pages : ∀ p ∈ s.pages.toList, p.terms ≤ s.options.pageSize
  buffered : s.buffered < s.options.pageSize

theorem IsBounded.empty (hpages : s.pages = #[]) (hbuffered : s.buffered = 0)
    (hpos : 0 < s.options.pageSize) : s.IsBounded where
  pages := by
    intro p hp
    rw [hpages] at hp
    contradiction
  buffered := by
    rw [hbuffered]
    exact hpos

/-- Whether an outcome is that of a flush that has failed. -/
def failsToFlush {α : Type} : EStateM.Result Fault PagedStore α → Bool
  | .ok _ _ => false
  | .error e _ => e.isFlush

/-- A page that is not larger than the options say may become the next one. -/
theorem bounded_withPage (hpages : ∀ p ∈ s.pages.toList, p.terms ≤ s.options.pageSize)
    (hbuffered : s.buffered ≤ s.options.pageSize) (hpos : 0 < s.options.pageSize)
    (d : PageDirectory) : (s.withPage d).IsBounded where
  pages := by
    intro p hp
    simp only [withPage, Array.toList_push, List.mem_append, List.mem_singleton] at hp
    cases hp with
    | inl hp => exact hpages p hp
    | inr hp => exact hp ▸ hbuffered
  buffered := hpos

theorem keeps_bounded_flush : Preserves IsBounded flush := by
  refine keeps_flush (fun s d hs => ?_) fun s d hs => ⟨hs.pages, hs.buffered⟩
  have hpos : 0 < s.options.pageSize := Nat.zero_lt_of_lt hs.buffered
  exact bounded_withPage hs.pages (Nat.le_of_lt hs.buffered) hpos d

theorem IsBounded.rearranged (h : s.IsBounded) (hs : Rearranged s s') : s'.IsBounded := by
  rw [hs.eq]
  exact ⟨h.pages, h.buffered⟩

/-- An insertion fills the open page at most, unless it fails to flush it. -/
theorem IsBounded.insert (h : s.IsBounded) (hflushed : failsToFlush (insert t s) = false) :
    (finalState (insert t s)).IsBounded := by
  rcases insert_eq s t with ⟨e, _, hinsert⟩ | ⟨_, hinsert⟩
  · rw [hinsert]
    exact h
  · rw [hinsert] at hflushed ⊢
    by_cases hfull : s.options.pageSize ≤ (s.append t).buffered
    · -- The open page is full by now, so that flushes keep `IsBounded` is of no use here.
      rw [if_pos hfull] at hflushed ⊢
      rcases (s.append t).flush_cases with ⟨hzero, _⟩ | ⟨_, d, hflush, _⟩ | ⟨e, d, hflush, he, _⟩
      · exact (Nat.succ_ne_zero s.buffered hzero).elim
      · rw [hflush]
        have hpos : 0 < s.options.pageSize := Nat.zero_lt_of_lt h.buffered
        exact bounded_withPage (s := s.append t) h.pages h.buffered hpos d
      · rw [hflush, failsToFlush, he] at hflushed
        contradiction
    · rw [if_neg hfull]
      exact ⟨h.pages, Nat.lt_of_not_le hfull⟩

theorem bounded_clear (hpos : 0 < s.options.pageSize) : (finalState (clear s)).IsBounded := by
  rw [finalState_clear]
  exact .empty rfl rfl hpos

/-! ## Reading the content -/

/-- The terms that a page is read as. -/
def termsOn (s : PagedStore) (p : Page) : List (Term Single) :=
  match s.readPage p with
  | .ok ts => ts.toList
  | .error _ => []

/-- Pages that can all be read are listed term by term, each term once. -/
theorem perm_readPages {ps : List Page} (h : ∀ p ∈ ps, ∃ ts, s.readPage p = .ok ts) :
    (readPages ps s).1.Perm ((ps.flatMap s.termsOn).map .ok) := by
  induction ps generalizing s with
  | nil => exact List.Perm.refl _
  | cons p ps ih =>
    obtain ⟨ts, hts⟩ := h p List.mem_cons_self
    -- The pages behind this one are read from a store in which a draw may have been counted.
    let s' := (s.shuffled s.options.shufflePage ts).2
    have hread (q : Page) : s'.readPage q = s.readPage q := by
      simp only [s']
      rw [shuffled_snd]
      rfl
    have hrest := ih (s := s') fun q hq => by
      rw [hread]
      exact h q (List.mem_cons_of_mem p hq)
    have hsame : s'.termsOn = s.termsOn := by
      funext q
      simp only [termsOn, hread]
    have hpage : s.termsOn p = ts.toList := by simp only [termsOn, hts]
    rw [hsame] at hrest
    simp only [readPages, hts, List.flatMap_cons, List.map_append, hpage]
    exact ((perm_shuffled _ ts s).map _).append hrest

/-- The pages of chunks that can be read are read as the chunks. -/
theorem Holds.flatMap_termsOn {flushed : List (List (Term Single))} {opened : List (Term Single)}
    (h : s.Holds flushed opened)
    (hreadable : ∀ t ∈ flushed.flatten, Readable s.rules s.atoms.size t) :
    s.pages.toList.flatMap s.termsOn = flushed.flatten := by
  have hterms : flushed.zipIdx.map (s.termsOn ∘ Page.ofChunk) = flushed.zipIdx.map (·.1) := by
    refine List.map_congr_left fun c hc => ?_
    simp only [Function.comp_apply, termsOn, h.readPage_eq hreadable hc]
  rw [h.pages, List.flatMap_def, List.map_map, hterms, List.zipIdx_map_fst]

/-- A store whose terms are all on pages lists them in some order, if it has an order of all the
pages. -/
theorem Holds.perm_listing {flushed : List (List (Term Single))} (h : s.Holds flushed [])
    (hreadable : ∀ t ∈ flushed.flatten, Readable s.rules s.atoms.size t) (hs : s.IsOrdered)
    (hsize : s.order.size = s.pages.size) :
    (readPages (s.order.toList.filterMap fun i => s.pages[i]?) s).1.Perm
      (flushed.flatten.map .ok) := by
  have hpages := hs.perm_pages hsize
  have hread : ∀ p ∈ s.pages.toList, ∃ ts, s.readPage p = .ok ts := by
    intro p hp
    rw [h.pages] at hp
    obtain ⟨c, hc, rfl⟩ := List.mem_map.mp hp
    exact ⟨_, h.readPage_eq hreadable hc⟩
  have hlisted := perm_readPages fun p hp => hread p (hpages.mem_iff.mp hp)
  have hterms := (hpages.flatMap_right s.termsOn).map (Except.ok (ε := Fault))
  rw [h.flatMap_termsOn hreadable] at hterms
  exact hlisted.trans hterms

/-- A store that can be flushed is prepared by that, and all its terms are on pages then. -/
theorem Carries.prepare (h : s.Carries taken) (hflush : flush s = .ok () s') :
    PagedStore.prepare s = .ok () s'.refreshOrder ∧ s'.refreshOrder.Carries taken ∧
      ∃ flushed, s'.refreshOrder.Holds flushed [] ∧ flushed.flatten = taken := by
  obtain ⟨flushed, opened, hholds, hterms⟩ := h.content
  have hcarries : s'.Carries taken := by
    have := (keeps_carries_flush taken).finalState h
    rwa [hflush] at this
  have harranged := s'.rearranged_refreshOrder
  have hholds' := (hholds.of_flush_eq_ok hflush).1.rearranged harranged
  refine ⟨prepare_eq_ok h.isOpen hflush, hcarries.rearranged harranged, _, hholds', ?_⟩
  rw [flatten_flushedChunks, hterms]

/-- A store that can be flushed finds each term at its position. -/
theorem Carries.termAt (h : s.Carries taken) (hflush : flush s = .ok () s') {i : Nat}
    (hi : taken[i]? = some t) : PagedStore.termAt i s = .ok t s'.refreshOrder := by
  obtain ⟨hprepare, hcarries, flushed, hholds, rfl⟩ := h.prepare hflush
  rw [hholds.termAt_eq hprepare hcarries.readable, hi]

/-- A store that can be flushed lists its terms in some order. -/
theorem Carries.listTerms (h : s.Carries taken) (hflush : flush s = .ok () s') :
    ∃ items s'', PagedStore.listTerms s = .ok items s'' ∧ items.Perm (taken.map .ok) := by
  obtain ⟨hprepare, hcarries, flushed, hholds, rfl⟩ := h.prepare hflush
  have hperm := hholds.perm_listing hcarries.readable hcarries.isOrdered s'.size_refreshOrder
  exact ⟨_, _, (bind_ok hprepare).trans (modifyGet_apply _ _), hperm⟩

end PagedStore

end HingeLoss

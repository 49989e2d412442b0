import HingeLoss.Proofs.Record.Writing
import HingeLoss.Store.Paged

/-!
# HingeLoss.Proofs.Store.Pages

What a paged store holds.

A *chunk* is the list of the terms of one page.  `Holds s flushed opened` says that the pages of a
store are the chunks `flushed`, numbered from zero, that their files hold exactly the records of
these chunks, and that the open page holds the records of the chunk `opened`; all counts agree with
that.  So the content of the store is `flushed.flatten ++ opened`.

1. a page that is added holds the chunk that was open;
2. on pages that hold readable terms, reading a page gives its chunk, listing pages gives their
   chunks one after the other, and locating a position finds the term there;
3. on a calm disk, one that refuses nothing, pages are written and removed.
-/

namespace HingeLoss

/-! ## Calm disks -/

/-- A page directory on a disk that refuses nothing: no file and no directory is in the way. -/
structure PageDirectory.IsCalm (d : PageDirectory) : Prop where
  free : d.blocked = false
  willing : d.refused = none
  no_directory : ∀ n, (d.entry n).isDirectory = false

namespace PageDirectory.IsCalm

variable {d : PageDirectory}

theorem put (h : d.IsCalm) (n : Nat) {e : DiskEntry} (he : e.isDirectory = false) :
    (d.put n e).IsCalm := by
  have hput : (d.put n e).blocked = d.blocked ∧ (d.put n e).refused = d.refused := by
    unfold PageDirectory.put
    cases e <;> exact ⟨rfl, rfl⟩
  refine ⟨hput.1.trans h.free, hput.2.trans h.willing, fun k => ?_⟩
  rw [entry_put, h.free]
  simp only [Bool.false_eq_true, if_false]
  split
  · exact he
  · exact h.no_directory k

theorem write_eq (h : d.IsCalm) (n : Nat) (bytes : Array UInt8) :
    write n bytes d = .ok () (d.put n (.file bytes)) := by
  unfold write
  rw [bind_ok (get_apply d)]
  simp only [h.free, h.willing, h.no_directory n]
  rfl

theorem remove_eq (h : d.IsCalm) (n : Nat) : remove n d = .ok () (d.put n .absent) := by
  unfold remove
  rw [bind_ok (get_apply d)]
  simp only [h.free, h.no_directory n]
  rfl

end PageDirectory.IsCalm

/-! ## Chunks and their records -/

/-- All positions of an array, in order, give the array. -/
theorem filterMap_range_getElem? {α : Type} (xs : Array α) :
    ((List.range xs.size).filterMap fun i => xs[i]?) = xs.toList := by
  obtain ⟨l⟩ := xs
  induction l with
  | nil => rfl
  | cons a l ih =>
    simp only [List.size_toArray, List.getElem?_toArray] at ih ⊢
    rw [List.length_cons, List.range_succ_eq_map, List.filterMap_cons, List.filterMap_map]
    exact congrArg (a :: ·) ih

/-- The page that holds a chunk under a number. -/
def Page.ofChunk (c : List (Term Single) × Nat) : Page := ⟨c.2, c.1.length, (records c.1).length⟩

namespace PagedStore

/-- Whether a term can be read back from a record, for a registry and a number of atoms. -/
structure Readable (rules : Registry) (bound : Nat) (t : Term Single) : Prop where
  recordable : t.IsRecordable rules
  isWithin : t.IsWithin bound

/-- What the check of the variables of a term finds out. -/
theorem isWithin_of_checkVariables {atoms : AtomTable} {t : Term Single}
    (h : TermStore.checkVariables atoms t = .ok ()) : t.IsWithin atoms.size := by
  intro e he
  have hv : e.var ∈ t.vars := List.mem_map_of_mem he
  unfold TermStore.checkVariables at h
  generalize t.vars = vs at h hv
  induction vs with
  | nil => simp at hv
  | cons v vs ih =>
    change (atoms.check v >>= fun _ => vs.forM atoms.check) = .ok () at h
    by_cases hlt : v.toNat < atoms.size
    · rw [List.mem_cons] at hv
      cases hv with
      | inl hv => exact hv ▸ hlt
      | inr hv =>
        simp only [AtomTable.check, if_pos hlt] at h
        exact ih h hv
    · simp only [AtomTable.check, if_neg hlt] at h
      contradiction

/-- A term of a registry that is about atoms of a table can be read back. -/
theorem Readable.of_checkVariables {rules : Registry} {atoms : AtomTable} {t : Term Single}
    (howns : rules.owns t.rule = true) (hsize : t.size ≤ Term.maxSize)
    (h : TermStore.checkVariables atoms t = .ok ()) : Readable rules atoms.size t := by
  have hvars := isWithin_of_checkVariables h
  exact ⟨⟨howns, hsize, fun e he => Nat.lt_of_lt_of_le (hvars e he) atoms.size_le⟩, hvars⟩

open Record

/-! ## Writing records -/

/-- The store with the record of a term behind those of the open page. -/
def append (t : Term Single) (s : PagedStore) : PagedStore :=
  { s with
    buffer := s.buffer ++ t.record
    buffered := s.buffered + 1
    total := s.total + 1 }

/-- The room that is made for a record is filled by it, so it is never taken back. -/
theorem putRecord_eq (t : Term Single) (s : PagedStore) : putRecord t s = .ok () (s.append t) := by
  have hroom : t.record.length ≤ (Writer.start (Array.replicate t.recordSize 0)).remaining := by
    simp [Writer.remaining, Writer.start, Term.length_record]
  obtain ⟨w, hwrite, _, hbuffer⟩ := writes_write t _ hroom
  have hrecord : s.buffer ++ w.buffer = s.buffer ++ t.record := by
    rw [← Array.toList_inj]
    simp [hbuffer, Writer.start, Term.length_record]
  simp only [putRecord, hwrite, hrecord, append]

/-- A term that is not refused is put on the open page, and fills it or does not. -/
theorem insert_of_checkInsert {t : Term Single} {s : PagedStore} (h : s.checkInsert t = .ok ()) :
    insert t s = if s.options.pageSize ≤ (s.append t).buffered then flush (s.append t)
      else .ok () (s.append t) := by
  simp only [insert, h, putRecord_eq]
  rfl

theorem insert_of_refused {t : Term Single} {s : PagedStore} {e : Fault}
    (h : s.checkInsert t = .error e) : insert t s = .error e s := by
  simp only [insert, h]

/-! ## Reading pages -/

theorem reads_readTerm {rules : Registry} {bound : Nat} {t : Term Single}
    (h : Readable rules bound t) : Reads (readTerm rules bound) t.record t := by
  refine Reads.position fun p => ?_
  refine (Term.reads_decode h.recordable).bind_pure ?_
  simp only [Term.pastBound?_eq_none h.isWithin]

theorem reads_readTerms {rules : Registry} {bound : Nat} {ts : List (Term Single)}
    (h : ∀ t ∈ ts, Readable rules bound t) (acc : Array (Term Single)) :
    Reads (readTerms rules bound ts.length acc) (records ts) (acc ++ ts.toArray) := by
  induction ts generalizing acc with
  | nil => simpa [readTerms, records] using Reads.pure acc
  | cons t ts ih =>
    have ht := reads_readTerm (h t List.mem_cons_self)
    have hts := ih (fun u hu => h u (List.mem_cons_of_mem t hu)) (acc.push t)
    have heq : acc.push t ++ ts.toArray = acc ++ (t :: ts).toArray := by simp
    rw [heq] at hts
    exact ht.bind hts

/-- The records of terms that can be read fill a page that is read as these terms. -/
theorem readAll_records {rules : Registry} {bound : Nat} {ts : List (Term Single)}
    (h : ∀ t ∈ ts, Readable rules bound t) :
    ∃ r, readAll rules bound ts.length (.start (records ts).toArray) = .ok ts.toArray r := by
  have hrest : (Reader.start (records ts).toArray).rest = records ts ++ [] := by
    simp [Reader.start, Reader.rest]
  obtain ⟨r, hr, _, hend⟩ := reads_readTerms h #[] _ [] hrest
  have hleft : r.remaining = 0 := by rw [← length_rest, hend, List.length_nil]
  refine ⟨r, ?_⟩
  unfold readAll
  rw [bind_ok hr, bind_ok (get_apply r), if_neg (by simp [Reader.atEnd, hleft])]
  simp

/-- The file of a chunk, in the place that its number gives it. -/
def HasFile (s : PagedStore) (c : List (Term Single) × Nat) : Prop :=
  s.directory.entry c.2 = .file (records c.1).toArray

variable {s : PagedStore}

theorem readPage_ofChunk {c : List (Term Single) × Nat} (hfile : s.HasFile c)
    (h : ∀ t ∈ c.1, Readable s.rules s.atoms.size t) :
    s.readPage (Page.ofChunk c) = .ok c.1.toArray := by
  obtain ⟨r, hr⟩ := readAll_records h
  have hread : s.directory.read (Page.ofChunk c).number = .ok (records c.1).toArray := by
    simp only [PageDirectory.read, Page.ofChunk]
    rw [hfile]
  simp only [readPage, hread]
  simp only [Page.ofChunk, hr]

/-- Pages that are not shuffled are listed chunk by chunk. -/
theorem readPages_ofChunk {cs : List (List (Term Single) × Nat)}
    (hshuffle : s.options.shufflePage = false) (hfile : ∀ c ∈ cs, s.HasFile c)
    (h : ∀ t ∈ cs.flatMap (·.1), Readable s.rules s.atoms.size t) :
    readPages (cs.map Page.ofChunk) s = ((cs.flatMap (·.1)).map .ok, s) := by
  induction cs with
  | nil => rfl
  | cons c cs ih =>
    simp only [List.flatMap_cons, List.mem_append] at h
    have hpage := readPage_ofChunk (hfile c List.mem_cons_self) fun t ht => h t (Or.inl ht)
    have ih := ih (fun c hc => hfile c (List.mem_cons_of_mem _ hc)) fun t ht => h t (Or.inr ht)
    simp only [List.map_cons, readPages, hpage, shuffled, hshuffle, Bool.false_eq_true, if_false, ih,
      List.flatMap_cons, List.map_append]

/-- The page of a position among chunks, and the place on it. -/
theorem locate_ofChunk (cs : List (List (Term Single) × Nat)) (i : Nat) :
    match locate (cs.map Page.ofChunk) i with
    | none => (cs.flatMap (·.1))[i]? = none
    | some (p, j) => ∃ c ∈ cs, p = Page.ofChunk c ∧ j < c.1.length ∧
        c.1[j]? = (cs.flatMap (·.1))[i]? := by
  induction cs generalizing i with
  | nil => rfl
  | cons c cs ih =>
    simp only [List.map_cons, locate, List.flatMap_cons]
    by_cases hi : i < (Page.ofChunk c).terms
    · rw [if_pos hi]
      exact ⟨c, List.mem_cons_self, rfl, hi, (List.getElem?_append_left hi).symm⟩
    · rw [if_neg hi, List.getElem?_append_right (Nat.le_of_not_lt hi)]
      have ih := ih (i - (Page.ofChunk c).terms)
      split
      · next h => simp only [h] at ih; exact ih
      · next p j h =>
        simp only [h] at ih
        obtain ⟨c', hc', rest⟩ := ih
        exact ⟨c', List.mem_cons_of_mem _ hc', rest⟩

/-! ## What a store holds -/

/-- The store whose open page has become its next one, on a directory that has the file. -/
def withPage (s : PagedStore) (d : PageDirectory) : PagedStore :=
  { s with
    directory := d
    pages := s.pages.push ⟨s.pages.size, s.buffered, s.buffer.size⟩
    buffer := #[]
    buffered := 0 }

/-- The pages of a store hold the chunks `flushed`, and its open page holds the chunk `opened`. -/
structure Holds (s : PagedStore) (flushed : List (List (Term Single)))
    (opened : List (Term Single)) : Prop where
  /-- The pages are those of the chunks, numbered from zero. -/
  pages : s.pages.toList = flushed.zipIdx.map Page.ofChunk
  files : ∀ c ∈ flushed.zipIdx, s.HasFile c
  /-- The open page holds the records of the open chunk. -/
  buffer : s.buffer = (records opened).toArray
  /-- The terms on the open page are counted. -/
  buffered : s.buffered = opened.length
  total : s.total = flushed.flatten.length + opened.length
  nonempty : ∀ ts ∈ flushed, ts ≠ []

namespace Holds

variable {flushed : List (List (Term Single))} {opened : List (Term Single)}

theorem size_pages (h : s.Holds flushed opened) : s.pages.size = flushed.length := by
  have := congrArg List.length h.pages
  simpa using this

/-- The chunks with their numbers have the same terms. -/
theorem flatMap_zipIdx (l : List (List (Term Single))) (n : Nat) :
    (l.zipIdx n).flatMap (·.1) = l.flatten := by
  rw [List.flatMap_def, List.zipIdx_map_fst]

/-- The atoms and the order of the pages do not matter. -/
theorem frame (h : s.Holds flushed opened) (atoms : AtomTable) (order : Array Nat) :
    Holds { s with atoms, order } flushed opened :=
  ⟨h.pages, h.files, h.buffer, h.buffered, h.total, h.nonempty⟩

/-- The generator does not matter. -/
theorem shut (h : s.Holds flushed opened) : s.shut.Holds flushed opened :=
  ⟨h.pages, h.files, h.buffer, h.buffered, h.total, h.nonempty⟩

/-- A store without pages and with an empty open page holds nothing. -/
theorem empty (hpages : s.pages = #[]) (hbuffer : s.buffer = #[]) (hbuffered : s.buffered = 0)
    (htotal : s.total = 0) : s.Holds [] [] where
  pages := by rw [hpages]; rfl
  files c hc := by simp at hc
  buffer := hbuffer
  buffered := hbuffered
  total := htotal
  nonempty ts hts := by simp at hts

/-- A record behind those of the open page is a term behind those of the open chunk. -/
theorem append (h : s.Holds flushed opened) (t : Term Single) :
    (s.append t).Holds flushed (opened ++ [t]) where
  pages := h.pages
  files := h.files
  buffer := by simp [PagedStore.append, h.buffer, records]
  buffered := by simp [PagedStore.append, h.buffered]
  total := by simp [PagedStore.append, h.total]; omega
  nonempty := h.nonempty

/-- The chunks when the open page has been flushed. -/
def flushedChunks (flushed : List (List (Term Single))) (opened : List (Term Single)) :
    List (List (Term Single)) := if opened = [] then flushed else flushed ++ [opened]

theorem flatten_flushedChunks (flushed : List (List (Term Single))) (opened : List (Term Single)) :
    (flushedChunks flushed opened).flatten = flushed.flatten ++ opened := by
  unfold flushedChunks
  split
  · next h => rw [h, List.append_nil]
  · rw [List.flatten_append, List.flatten_singleton]

/-- The page of a chunk is read as the chunk. -/
theorem readPage_eq (h : s.Holds flushed opened)
    (hreadable : ∀ t ∈ flushed.flatten, Readable s.rules s.atoms.size t)
    {c : List (Term Single) × Nat} (hc : c ∈ flushed.zipIdx) :
    s.readPage (Page.ofChunk c) = .ok c.1.toArray := by
  refine readPage_ofChunk (h.files c hc) fun t ht => hreadable t ?_
  rw [← flatMap_zipIdx flushed 0]
  exact List.mem_flatMap.mpr ⟨c, hc, ht⟩

/-- What stands at the numbers of the pages is all that matters of a directory. -/
theorem of_directory (h : s.Holds flushed opened) {d : PageDirectory}
    (hd : ∀ k < flushed.length, d.entry k = s.directory.entry k) :
    Holds { s with directory := d } flushed opened where
  pages := h.pages
  files c hc := by
    have hlt := List.snd_lt_add_of_mem_zipIdx hc
    exact (hd c.2 (by omega)).trans (h.files c hc)
  buffer := h.buffer
  buffered := h.buffered
  total := h.total
  nonempty := h.nonempty

/-- The open page becomes the next page when its bytes stand under the next number. -/
theorem push (h : s.Holds flushed opened) (hopened : opened ≠ []) {d : PageDirectory}
    (hfile : d.entry s.pages.size = .file s.buffer)
    (hothers : ∀ k, k ≠ s.pages.size → d.entry k = s.directory.entry k) :
    (s.withPage d).Holds (flushed ++ [opened]) [] := by
  have hzip : (flushed ++ [opened]).zipIdx = flushed.zipIdx ++ [(opened, flushed.length)] := by
    rw [List.zipIdx_append, Nat.zero_add]
    rfl
  have hpage : (⟨s.pages.size, s.buffered, s.buffer.size⟩ : Page) =
      Page.ofChunk (opened, flushed.length) := by
    simp [Page.ofChunk, h.size_pages, h.buffered, h.buffer]
  refine ⟨?_, ?_, rfl, rfl, ?_, ?_⟩
  · simp only [withPage, Array.toList_push, h.pages, hzip, List.map_append, List.map_singleton,
      hpage]
  · intro c hc
    rw [hzip, List.mem_append, List.mem_singleton] at hc
    cases hc with
    | inl hc =>
      have hlt := List.snd_lt_add_of_mem_zipIdx hc
      have hne : c.2 ≠ s.pages.size := by
        rw [h.size_pages]
        omega
      exact (hothers c.2 hne).trans (h.files c hc)
    | inr hc =>
      rw [h.buffer] at hfile
      rw [hc, ← h.size_pages]
      exact hfile
  · simp [withPage, h.total]
  · intro ts hts
    rw [List.mem_append, List.mem_singleton] at hts
    cases hts with
    | inl hts => exact h.nonempty ts hts
    | inr hts => exact hts ▸ hopened

/-- Nothing is buffered exactly if the open page holds no term. -/
theorem buffered_eq_zero_iff (h : s.Holds flushed opened) : s.buffered = 0 ↔ opened = [] := by
  rw [h.buffered, List.length_eq_zero_iff]

end Holds

theorem checkOpen_apply (s : PagedStore) :
    checkOpen s = if s.generator.isNone then .error .storeClosed s else .ok () s := by
  unfold checkOpen
  rw [bind_ok (get_apply s), s.closed_eq]
  split <;> rfl

/-- Preparing an open store that can be flushed puts its terms on pages and settles their order. -/
theorem prepare_eq_ok {s' : PagedStore} (hopen : s.generator.isNone = false)
    (hflush : flush s = .ok () s') : prepare s = .ok () s'.refreshOrder := by
  have hcheck : checkOpen s = .ok () s := by
    rw [checkOpen_apply, if_neg (by simp [hopen])]
  unfold prepare
  rw [bind_ok hcheck, bind_ok hflush]
  rfl

/-- A store whose terms are all on pages finds each of them at its position. -/
theorem Holds.termAt_eq {s' : PagedStore} {flushed : List (List (Term Single))}
    (hprepare : prepare s = .ok () s') (h : s'.Holds flushed [])
    (hreadable : ∀ t ∈ flushed.flatten, Readable s'.rules s'.atoms.size t) (i : Nat) :
    termAt i s = match flushed.flatten[i]? with
      | none => .error (.capacity .termIndex i s'.total) s'
      | some t => .ok t s' := by
  have hflat := flatMap_zipIdx flushed 0
  have hlocate := locate_ofChunk flushed.zipIdx i
  rw [hflat] at hlocate
  unfold termAt
  rw [bind_ok hprepare, bind_ok (get_apply s'), h.pages]
  split at hlocate
  · next hnone =>
    simp only [hnone, hlocate]
    rfl
  · next page j hsome =>
    obtain ⟨c, hc, rfl, hj, hterm⟩ := hlocate
    have hpage := h.readPage_eq hreadable hc
    have hget : c.1.toArray[j]? = some c.1[j] := by simp [hj]
    rw [List.getElem?_eq_getElem hj] at hterm
    simp only [hsome, hpage, hget, ← hterm]
    rfl

/-- On a calm disk, all pages can be removed. -/
theorem removePages_eq {d : PageDirectory} (h : d.IsCalm) (ps : List Page) :
    (removePages d ps).2 = none ∧ (removePages d ps).1.IsCalm := by
  induction ps generalizing d with
  | nil => exact ⟨rfl, h⟩
  | cons p ps ih =>
    simp only [removePages, h.remove_eq]
    exact ih (h.put p.number rfl)

end PagedStore

end HingeLoss

import HingeLoss.Proofs.Rule.Registration
import HingeLoss.Proofs.Store.Flushing
import HingeLoss.Proofs.Store.Simulation
import HingeLoss.Store.Memory

/-!
# HingeLoss.Proofs.Store.Agreement

A paged store that shuffles nothing, on a calm disk, answers like a store in memory without capacity
and shuffler.

`Mirrors` relates the two.  The paged store holds some chunks, and what they hold together are the
terms in memory, in their order; how the terms are cut into chunks is left open, since each reading
operation cuts them.  The order of the pages is the one of their numbers as far as it goes.  The
relation is a `StoreSimulation`, so it gives the answers to every sequence of operations at once.
-/

namespace HingeLoss

/-- A paged store and a store in memory with the same content. -/
structure Mirrors (rules : Registry) (p : PagedStore) (m : MemoryStore) : Prop where
  /-- The chunks of the paged store are the terms in memory. -/
  content : ∃ flushed opened, p.Holds flushed opened ∧ flushed.flatten ++ opened = m.terms.toList
  /-- All terms can be read back. -/
  readable : ∀ t ∈ m.terms.toList, PagedStore.Readable rules m.atoms.size t
  order_eq : p.order = Array.range p.order.size
  /-- Nothing is in the way on the disk. -/
  calm : p.directory.IsCalm
  randomizePageAccess_eq : p.options.randomizePageAccess = false
  shufflePage_eq : p.options.shufflePage = false
  rules_eq : p.rules = rules
  generator_eq : p.generator = m.generator
  atoms_eq : p.atoms = m.atoms
  capacity_eq : m.capacity = none
  shuffler_eq : m.shuffler = none

/-- The terms that a store takes in for a registry: those of its rules that are not too long. -/
def Registry.Admits (rules : Registry) (t : Term Single) : Prop :=
  rules.owns t.rule = true ∧ t.size ≤ Term.maxSize

namespace Mirrors

variable {rules : Registry} {p : PagedStore} {m : MemoryStore}

theorem size_eq (h : Mirrors rules p m) : p.total = m.terms.size := by
  obtain ⟨flushed, opened, hholds, hterms⟩ := h.content
  have := congrArg List.length hterms
  rw [hholds.total]
  simpa using this

/-- The pages move, and everything else of the paged store stays. -/
theorem of_pages (h : Mirrors rules p m) {p' : PagedStore}
    {flushed : List (List (Term Single))} {opened : List (Term Single)}
    (hholds : p'.Holds flushed opened) (hterms : flushed.flatten ++ opened = m.terms.toList)
    (horder : p'.order = Array.range p'.order.size) (hcalm : p'.directory.IsCalm)
    (hframe : p' = { p with
      directory := p'.directory, pages := p'.pages, buffer := p'.buffer,
      buffered := p'.buffered, total := p'.total, order := p'.order }) :
    Mirrors rules p' m where
  content := ⟨flushed, opened, hholds, hterms⟩
  readable := h.readable
  order_eq := horder
  calm := hcalm
  randomizePageAccess_eq := by rw [hframe]; exact h.randomizePageAccess_eq
  shufflePage_eq := by rw [hframe]; exact h.shufflePage_eq
  rules_eq := by rw [hframe]; exact h.rules_eq
  generator_eq := by rw [hframe]; exact h.generator_eq
  atoms_eq := by rw [hframe]; exact h.atoms_eq
  capacity_eq := h.capacity_eq
  shuffler_eq := h.shuffler_eq

/-- Preparing an open store puts all terms on pages and settles the order of these. -/
theorem prepare_eq_ok (h : Mirrors rules p m) (hopen : p.generator.isNone = false) :
    ∃ p' flushed, PagedStore.prepare p = .ok () p' ∧ Mirrors rules p' m ∧ p'.Holds flushed [] ∧
      flushed.flatten = m.terms.toList ∧ p'.order = Array.range p'.pages.size := by
  obtain ⟨flushed, opened, hholds, hterms⟩ := h.content
  obtain ⟨s, hflush, hs, hcalm, hframe⟩ := hholds.flush_eq_ok h.calm
  have hchunks : (PagedStore.Holds.flushedChunks flushed opened).flatten = m.terms.toList := by
    rw [PagedStore.Holds.flatten_flushedChunks, hterms]
  have hms : Mirrors rules s m := by
    refine h.of_pages hs (by rw [hchunks, List.append_nil]) ?_ hcalm ?_
    · rw [hframe]; exact h.order_eq
    · rw [hframe]
  let p' := s.refreshOrder
  have hp' : p' = { s with order := Array.range s.pages.size } := by
    simp only [p', PagedStore.refreshOrder]
    split
    · next hsize => rw [← hsize, ← hms.order_eq]
    · simp only [PagedStore.shuffled, hms.randomizePageAccess_eq]; rfl
  have hholds' : p'.Holds (PagedStore.Holds.flushedChunks flushed opened) [] := by
    rw [hp']
    exact hs.frame s.atoms _
  refine ⟨p', _, PagedStore.prepare_eq_ok hopen hflush, ?_, hholds', hchunks, ?_⟩
  · refine hms.of_pages hholds' (by rw [hchunks, List.append_nil]) ?_ ?_ ?_
    · rw [hp', Array.size_range]
    · rw [hp']; exact hcalm
    · rw [hp']
  · rw [hp']

/-- Preparing a closed store fails. -/
theorem prepare_eq_error (hclosed : p.generator.isNone = true) :
    PagedStore.prepare p = .error .storeClosed p := by
  have hcheck : PagedStore.checkOpen p = .error .storeClosed p := by
    rw [PagedStore.checkOpen_apply, if_pos hclosed]
  unfold PagedStore.prepare
  rw [bind_error hcheck]

theorem checkOpen_eq (h : Mirrors rules p m) :
    m.checkOpen = if p.generator.isNone then .error .storeClosed else .ok () := by
  rw [MemoryStore.checkOpen, m.closed_eq, h.generator_eq]

/-- Both stores refuse the same terms of the registry, for the same reason. -/
theorem checkInsert_eq (h : Mirrors rules p m) {t : Term Single} (ht : rules.Admits t) :
    p.checkInsert t = m.checkInsert t := by
  have howns : p.rules.owns t.rule = true := by rw [h.rules_eq]; exact ht.1
  have hroom : m.checkRoom = .ok () := by simp only [MemoryStore.checkRoom, h.capacity_eq]
  unfold PagedStore.checkInsert MemoryStore.checkInsert
  rw [h.checkOpen_eq, hroom, h.atoms_eq, howns, p.closed_eq]
  cases p.generator.isNone with
  | true => rfl
  | false =>
    cases TermStore.checkVariables m.atoms t <;> rfl

theorem simulates_insert {t : Term Single} (ht : rules.Admits t) :
    Simulates (Mirrors rules) (PagedStore.insert t) (MemoryStore.insert t) := by
  intro p m h
  have hsame := h.checkInsert_eq ht
  unfold MemoryStore.insert
  cases hcheck : m.checkInsert t with
  | error e =>
    rw [PagedStore.insert_of_refused (hsame.trans hcheck)]
    exact ⟨rfl, h⟩
  | ok u =>
    rw [PagedStore.insert_of_checkInsert (hsame.trans hcheck)]
    have hreadable : PagedStore.Readable rules m.atoms.size t := by
      refine .of_checkVariables ht.1 ht.2 ?_
      unfold MemoryStore.checkInsert at hcheck
      rw [MemoryStore.checkRoom, h.capacity_eq] at hcheck
      cases hopen : m.checkOpen <;> rw [hopen] at hcheck
      · contradiction
      · cases hv : TermStore.checkVariables m.atoms t <;> rw [hv] at hcheck
        · contradiction
    obtain ⟨flushed, opened, hholds, hterms⟩ := h.content
    have happend : Mirrors rules (p.append t) { m with terms := m.terms.push t } := by
      refine ⟨⟨flushed, opened ++ [t], hholds.append t, ?_⟩, ?_, h.order_eq, h.calm,
        h.randomizePageAccess_eq, h.shufflePage_eq, h.rules_eq, h.generator_eq, h.atoms_eq,
        h.capacity_eq, h.shuffler_eq⟩
      · rw [Array.toList_push, ← hterms, List.append_assoc]
      · intro u hu
        rw [Array.toList_push, List.mem_append, List.mem_singleton] at hu
        cases hu with
        | inl hu => exact h.readable u hu
        | inr hu => exact hu ▸ hreadable
    simp only
    split
    · obtain ⟨flushed, opened, hholds, hterms⟩ := happend.content
      obtain ⟨s, hflush, hs, hcalm, hframe⟩ := hholds.flush_eq_ok happend.calm
      rw [hflush]
      refine ⟨rfl, happend.of_pages hs ?_ ?_ hcalm ?_⟩
      · rw [PagedStore.Holds.flatten_flushedChunks, hterms, List.append_nil]
      · rw [hframe]; exact happend.order_eq
      · rw [hframe]
    · exact ⟨rfl, happend⟩

/-- The terms on the pages in the order of a pass. -/
theorem readPages_eq (h : Mirrors rules p m) {flushed : List (List (Term Single))}
    (hholds : p.Holds flushed []) (hterms : flushed.flatten = m.terms.toList)
    (horder : p.order = Array.range p.pages.size) :
    PagedStore.readPages (p.order.toList.filterMap fun i => p.pages[i]?) p =
      (m.terms.toList.map .ok, p) := by
  have hpages :
      (p.order.toList.filterMap fun i => p.pages[i]?) = flushed.zipIdx.map Page.ofChunk := by
    rw [← hholds.pages, horder, Array.toList_range]
    exact filterMap_range_getElem? p.pages
  have hflat := PagedStore.Holds.flatMap_zipIdx flushed 0
  rw [hpages, PagedStore.readPages_ofChunk h.shufflePage_eq hholds.files, hflat, hterms]
  rw [hflat, hterms, h.rules_eq, h.atoms_eq]
  exact h.readable

theorem simulates_terms :
    Simulates (Mirrors rules) PagedStore.listTerms MemoryStore.listTerms := by
  intro p m h
  unfold PagedStore.listTerms MemoryStore.listTerms
  rw [h.checkOpen_eq]
  cases hopen : p.generator.isNone with
  | true =>
    rw [bind_error (prepare_eq_error hopen)]
    exact ⟨rfl, h⟩
  | false =>
    obtain ⟨p', flushed, hprepare, h', hholds, hterms, horder⟩ := h.prepare_eq_ok hopen
    rw [bind_ok hprepare, modifyGet_apply, h'.readPages_eq hholds hterms horder]
    exact ⟨rfl, h'⟩

theorem simulates_termAt (i : Nat) :
    Simulates (Mirrors rules) (PagedStore.termAt i) (MemoryStore.termAt i) := by
  intro p m h
  unfold MemoryStore.termAt
  rw [h.checkOpen_eq]
  cases hopen : p.generator.isNone with
  | true =>
    unfold PagedStore.termAt
    rw [bind_error (prepare_eq_error hopen)]
    exact ⟨rfl, h⟩
  | false =>
    obtain ⟨p', flushed, hprepare, h', hholds, hterms, horder⟩ := h.prepare_eq_ok hopen
    have hreadable : ∀ t ∈ flushed.flatten, PagedStore.Readable p'.rules p'.atoms.size t := by
      rw [hterms, h'.rules_eq, h'.atoms_eq]
      exact h'.readable
    rw [hholds.termAt_eq hprepare hreadable i, hterms, Array.getElem?_toList, h'.size_eq]
    cases m.terms[i]? with
    | none => exact ⟨rfl, h'⟩
    | some t => exact ⟨rfl, h'⟩

theorem simulates_clear : Simulates (Mirrors rules) PagedStore.clear
    (TermStore.clear (σ := MemoryStore)) := by
  intro p m h
  have hremove := PagedStore.removePages_eq h.calm p.pages.toList
  unfold PagedStore.clear
  simp only [hremove.1]
  refine ⟨rfl, ⟨[], [], .empty rfl rfl rfl rfl, rfl⟩, ?_, rfl, hremove.2,
    h.randomizePageAccess_eq, h.shufflePage_eq, h.rules_eq, h.generator_eq, h.atoms_eq,
    h.capacity_eq, h.shuffler_eq⟩
  intro t ht
  simp at ht

theorem simulates_close : Simulates (Mirrors rules) PagedStore.close
    (TermStore.close (σ := MemoryStore)) := by
  intro p m h
  have hclosed : Mirrors rules p.shut m.shut := by
    obtain ⟨flushed, opened, hholds, hterms⟩ := h.content
    exact ⟨⟨flushed, opened, hholds.shut, hterms⟩, h.readable, h.order_eq,
      h.calm, h.randomizePageAccess_eq, h.shufflePage_eq, h.rules_eq, rfl, h.atoms_eq,
      h.capacity_eq, h.shuffler_eq⟩
  exact simulates_clear _ _ hclosed

theorem simulates_beginRun :
    Simulates (Mirrors rules) PagedStore.beginRun MemoryStore.beginRun := by
  intro p m h
  have hcleared : Mirrors rules { p with order := #[] } m := by
    obtain ⟨flushed, opened, hholds, hterms⟩ := h.content
    exact h.of_pages (hholds.frame p.atoms #[]) hterms rfl h.calm rfl
  unfold PagedStore.beginRun MemoryStore.beginRun
  rw [bind_ok (modify_apply _ p), hcleared.checkOpen_eq, h.shuffler_eq]
  cases hopen : p.generator.isNone with
  | true =>
    rw [prepare_eq_error (p := { p with order := #[] }) hopen]
    exact ⟨rfl, hcleared⟩
  | false =>
    obtain ⟨p', _, hprepare, h', _⟩ := hcleared.prepare_eq_ok hopen
    rw [hprepare]
    exact ⟨rfl, h'⟩

/-- More atoms, and other values, do not matter. -/
theorem grow (h : Mirrors rules p m) {table : AtomTable} (hsize : p.atoms.size ≤ table.size) :
    Mirrors rules { p with atoms := table } { m with atoms := table } := by
  obtain ⟨flushed, opened, hholds, hterms⟩ := h.content
  refine ⟨⟨flushed, opened, hholds.frame table p.order, hterms⟩, fun t ht => ?_,
    h.order_eq, h.calm, h.randomizePageAccess_eq, h.shufflePage_eq, h.rules_eq, h.generator_eq, rfl,
    h.capacity_eq, h.shuffler_eq⟩
  have hread := h.readable t ht
  rw [← h.atoms_eq] at hread
  exact ⟨hread.recordable, fun e he => Nat.lt_of_lt_of_le (hread.isWithin e he) hsize⟩

/-- **A paged store simulates a store in memory**, for terms of its registry. -/
theorem simulation (rules : Registry) :
    StoreSimulation (σ := PagedStore) (τ := MemoryStore) rules.Admits (Mirrors rules) where
  atoms_eq h := h.atoms_eq
  withAtoms table h hsize := h.grow (Nat.le_of_eq hsize.symm)
  size_eq h := h.size_eq
  generator_eq h := h.generator_eq
  insert _ ht := simulates_insert ht
  termAt := simulates_termAt
  terms := simulates_terms
  clear := simulates_clear
  close := simulates_close
  beginRun := simulates_beginRun
  endPass {p m} h := by
    have hend : PagedStore.endPass p = p := by
      simp only [PagedStore.endPass, PagedStore.shuffled, h.randomizePageAccess_eq]
      rfl
    change Mirrors rules (PagedStore.endPass p) m
    rwa [hend]

/-- A new paged store mirrors a new store in memory. -/
theorem of_create {options : PagingOptions} {generator : Generator} {atoms : AtomTable}
    {directory : PageDirectory} (hsize : 0 < options.pageSize)
    (hpages : options.randomizePageAccess = false) (hterms : options.shufflePage = false)
    (hdisk : directory.IsCalm) :
    ∃ s, PagedStore.create options rules generator atoms directory = .ok s ∧
      Mirrors rules s { generator := some generator, atoms } := by
  have hcheck := PagingOptions.check_eq_ok_iff.mpr hsize
  refine ⟨_, by unfold PagedStore.create; rw [hcheck]; rfl, ?_⟩
  exact ⟨⟨[], [], .empty rfl rfl rfl rfl, rfl⟩, fun t ht => by simp at ht, rfl, hdisk, hpages,
    hterms, rfl, rfl, rfl, rfl, rfl⟩

end Mirrors

/-! ## Answers -/

/-- Whether an operation brings in only terms of a registry. -/
def StoreOp.Uses (rules : Registry) : StoreOp → Prop
  | insert t => rules.owns t.rule = true ∧ t.size ≤ Term.maxSize
  | add g => rules.owns g.rule = true
  | addAll gs => ∀ g ∈ gs, rules.owns g.rule = true
  | _ => True

theorem StoreOp.Uses.admitted {rules : Registry} {op : StoreOp} (h : op.Uses rules) :
    op.Admitted rules.Admits := by
  cases op with
  | insert t => exact h
  | add g => exact fun t ht hsize => ⟨ht ▸ h, hsize⟩
  | addAll gs => exact fun g hg t ht hsize => ⟨ht ▸ h g hg, hsize⟩
  | _ => trivial

/-- **A paged store answers like a store in memory.**  For every page size and every sequence of
operations on terms of the registry, a new paged store that shuffles nothing, on a calm disk, gives
the answers and the failures of a new store in memory without capacity and shuffler. -/
theorem exists_create_answers_eq {options : PagingOptions} {rules : Registry}
    {generator : Generator} {atoms : AtomTable} {directory : PageDirectory}
    (hsize : 0 < options.pageSize) (hpages : options.randomizePageAccess = false)
    (hterms : options.shufflePage = false) (hdisk : directory.IsCalm) :
    ∃ s, PagedStore.create options rules generator atoms directory = .ok s ∧
      ∀ ops : List StoreOp, (∀ op ∈ ops, op.Uses rules) → StoreOp.answers ops s =
        StoreOp.answers ops ({ generator := some generator, atoms } : MemoryStore) := by
  obtain ⟨s, hcreate, hs⟩ :=
    @Mirrors.of_create rules options generator atoms directory hsize hpages hterms hdisk
  refine ⟨s, hcreate, fun ops hops => ?_⟩
  exact StoreOp.answers_eq (Mirrors.simulation rules) (fun op hop => (hops op hop).admitted) hs

/-- A free atom and an observed one. -/
def sampleAtoms : AtomTable where
  atoms := #[⟨.unobserved, 1, 1⟩, ⟨.observed, 0, 0⟩]
  values := #[1, 0]

/-- A soft term that pulls the free atom of the sample down. -/
def sampleTerm : Term Single :=
  ⟨⟨0, ⟨0⟩, "prior", .soft 1, .squaredHinge⟩, .squaredHinge, 0, #[⟨1, ⟨0⟩⟩]⟩

/-- A constraint on both atoms of the sample, grounded as two terms. -/
def sampleLimit : GroundRule Single :=
  ⟨⟨0, ⟨1⟩, "limit", .hard, .hinge⟩, .arithmetic [⟨1, ⟨0⟩⟩, ⟨1, ⟨1⟩⟩] .equal 1⟩

/-- Readings between the insertions cut the terms into pages of one and two terms. -/
theorem answers_sample_eq :
    0 < 2 ∧
      ∃ s, PagedStore.create { pageSize := 2, randomizePageAccess := false, shufflePage := false }
          sampleRules {} sampleAtoms { path := "pages" } = .ok s ∧
        StoreOp.answers [.insert sampleTerm, .termAt 0, .add sampleLimit, .terms, .clear,
          .insert sampleTerm, .termAt 1, .close, .terms] s =
        StoreOp.answers [.insert sampleTerm, .termAt 0, .add sampleLimit, .terms, .clear,
          .insert sampleTerm, .termAt 1, .close, .terms]
          ({ atoms := sampleAtoms } : MemoryStore) := by
  obtain ⟨s, hcreate, hs⟩ := @exists_create_answers_eq
    { pageSize := 2, randomizePageAccess := false, shufflePage := false } sampleRules {} sampleAtoms
    { path := "pages" } (by decide) rfl rfl ⟨rfl, rfl, fun _ => rfl⟩
  refine ⟨by decide, s, hcreate, hs _ fun op hop => ?_⟩
  simp only [List.mem_cons, List.not_mem_nil, or_false] at hop
  rcases hop with rfl | rfl | rfl | rfl | rfl | rfl | rfl | rfl | rfl <;>
    simp only [StoreOp.Uses] <;> decide

end HingeLoss

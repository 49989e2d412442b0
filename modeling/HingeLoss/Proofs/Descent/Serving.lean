import HingeLoss.Proofs.Descent.Bounds
import HingeLoss.Proofs.Descent.UnitValues
import HingeLoss.Proofs.Store.Adding
import HingeLoss.Proofs.Store.History
import HingeLoss.Proofs.Store.Reachable
import HingeLoss.Proofs.Store.Reading

/-!
# HingeLoss.Proofs.Descent.Serving

What holds of a store however it has been used.

`TermStore.InUse` are the states that a new store comes to by operations of every kind, by runs of
the optimizer, and while atoms come in, move and are saved between them.

1. `Serves` is a property of all these states that every step keeps, and from which a run fails only
   with certain faults.
2. A store in memory knows the atoms of its terms, because they were there when the terms came in.
3. A paged store relies on nothing that its files hold.  It has an order of its pages, and it checks
   the atoms of a term whenever it reads it.  So its files may be damaged at any time, and the pages
   that are left intact are read as a whole (`PagedStore.reads_intact`).
4. In both stores a run finds every place that it asks for (`Descent.optimize_overruns_nothing`).
-/

namespace HingeLoss

/-! ## Stores in use -/

/-- Whether a fault is that something is not there that the library takes for granted. -/
def Fault.isOverrun : Fault → Bool
  | outOfBounds _ _ | noRoom _ _ => true
  | _ => false

theorem Fault.isOverrun_of_isFlush {e : Fault} (h : e.isFlush = true) : e.isOverrun = false := by
  cases e <;> first | rfl | contradiction

theorem Fault.isOverrun_of_isReading {e : Fault} (h : e.isReading = true) :
    e.isOverrun = false := by
  cases e <;> first | rfl | contradiction

namespace TermStore

variable {σ : Type} [TermStore σ] {isNew : σ → Prop} {disturbs : σ → σ → Prop} {E : Fault → Prop}
  {I : σ → Prop}

/-- The states that a new store comes to.  Every step may fail, and is followed by others all the
same. -/
inductive InUse (isNew : σ → Prop) (disturbs : σ → σ → Prop) : σ → Prop
  | create {s : σ} : isNew s → InUse isNew disturbs s
  | op {s : σ} (op : StoreOp) : InUse isNew disturbs s →
      InUse isNew disturbs (finalState (op.run s))
  /-- Atoms come in, and all of them get other values, are taken back or are saved. -/
  | atoms {s : σ} {table : AtomTable} : InUse isNew disturbs s →
      (TermStore.atoms s).size ≤ table.size → InUse isNew disturbs (withAtoms table s)
  | optimize {s : σ} (d : Descent) (cancelled : Nat → Bool) (passes : Array Pass) :
      InUse isNew disturbs s →
      InUse isNew disturbs (finalState (d.optimize cancelled ⟨s, passes⟩)).store
  /-- Something from outside happens to the store. -/
  | disturb {s s' : σ} : InUse isNew disturbs s → disturbs s s' → InUse isNew disturbs s'

/-- A property of new stores that every step keeps, and from which runs fail only with `E`. -/
structure Serves (isNew : σ → Prop) (disturbs : σ → σ → Prop) (E : Fault → Prop) (I : σ → Prop) :
    Prop where
  create : ∀ {s}, isNew s → I s
  op : ∀ op : StoreOp, Preserves I (op.run : EStateM Fault σ StoreAnswer)
  atoms : ∀ {s table}, I s → (TermStore.atoms s).size ≤ table.size → I (withAtoms table s)
  disturb : ∀ {s s'}, I s → disturbs s s' → I s'
  /-- A run does not change the number of atoms. -/
  bounds : ∀ n, StoreBounds n E fun s => I s ∧ (TermStore.atoms s).size = n
  cancelled : ∀ n, E (.cancelled n)

namespace Serves

theorem keeps_optimize (h : Serves isNew disturbs E I) (d : Descent) (cancelled : Nat → Bool) :
    Keeps (fun r : Run σ => I r.store) (fun _ => True) E (d.optimize cancelled) := by
  intro r hr
  have hcancelled (n : Nat) (_ : cancelled n = true) : E (.cancelled n) := h.cancelled n
  have hrun := Descent.keeps_bounds_optimize (h.bounds (TermStore.atoms r.store).size) d hcancelled
  have hends := hrun r ⟨hr, rfl⟩
  cases hx : d.optimize cancelled r with
  | ok report r' =>
    rw [hx] at hends
    exact ⟨trivial, hends.2.1⟩
  | error e r' =>
    rw [hx] at hends
    exact ⟨hends.1, hends.2.1⟩

/-- What every step keeps holds however a store has been used. -/
theorem holds (h : Serves isNew disturbs E I) {s : σ} (hs : InUse isNew disturbs s) : I s := by
  induction hs with
  | create hnew => exact h.create hnew
  | op op _ ih => exact (h.op op).finalState ih
  | atoms _ hsize ih => exact h.atoms ih hsize
  | optimize d cancelled passes _ ih => exact (h.keeps_optimize d cancelled).finalState ih
  | disturb _ hdisturbs ih => exact h.disturb ih hdisturbs

/-- A run on a store in use fails only with the faults that the property leaves. -/
theorem optimize_eq_error (h : Serves isNew disturbs E I) {s : σ} (hs : InUse isNew disturbs s)
    {d : Descent} {cancelled : Nat → Bool} {passes : Array Pass} {e : Fault} {r : Run σ}
    (hrun : d.optimize cancelled ⟨s, passes⟩ = .error e r) : E e :=
  ((h.keeps_optimize d cancelled).error (h.holds hs) hrun).1

end Serves

/-- Committing atoms overruns nothing, and it neither adds atoms nor takes any away. -/
theorem keeps_sync_of_atoms
    (hatoms : ∀ table s, table.size = (TermStore.atoms s).size → I s → I (withAtoms table s)) :
    Keeps I (fun _ => True) (fun e => e.isOverrun = false) (sync (σ := σ)) := by
  refine Keeps.of_outcomes (Descent.keeps_onAtoms AtomTable.keeps_size_sync hatoms)
    (fun _ _ _ _ _ => trivial) fun s e s' _ hsync => ?_
  obtain ⟨table, hsync, _⟩ := Descent.onAtoms_eq_error hsync
  obtain ⟨_, f, rfl⟩ := AtomTable.sync_eq_error hsync
  rfl

end TermStore

/-! ## In memory -/

namespace MemoryStore

open TermStore

/-- A store without terms. -/
inductive IsNew : MemoryStore → Prop
  | create (generator : Generator) (atoms : AtomTable) (capacity : Option Nat)
      (shuffler : Option Shuffler) :
      IsNew { generator := some generator, atoms, capacity, shuffler }

/-- The states of a store in memory, to which nothing happens from outside. -/
abbrev InUse : MemoryStore → Prop := TermStore.InUse IsNew fun _ _ => False

/-- A store that has the atoms of its terms. -/
def IsKnowing (m : MemoryStore) : Prop := ∀ t ∈ m.terms, t.IsWithin m.atoms.size

theorem IsKnowing.perm {m : MemoryStore} (h : m.IsKnowing) {ts : Array (Term Single)}
    (hperm : ts.toList.Perm m.terms.toList) : IsKnowing { m with terms := ts } := fun t ht =>
  h t (Array.mem_toList_iff.mp (hperm.mem_iff.mp (Array.mem_toList_iff.mpr ht)))

theorem IsKnowing.withAtoms {m : MemoryStore} (h : m.IsKnowing) {table : AtomTable}
    (hsize : m.atoms.size ≤ table.size) : IsKnowing { m with atoms := table } :=
  fun t ht e he => Nat.lt_of_lt_of_le (h t ht e he) hsize

theorem keeps_isKnowing_insert (t : Term Single) : Preserves IsKnowing (insert t) := by
  intro m hm
  unfold insert
  cases hcheck : m.checkInsert t with
  | error e => exact ⟨trivial, hm⟩
  | ok _ =>
    refine ⟨trivial, fun u hu => ?_⟩
    cases Array.mem_push.mp hu with
    | inl hu => exact hm u hu
    | inr hu =>
      obtain ⟨_, hvariables, _⟩ := checkInsert_eq_ok_iff.mp hcheck
      rw [hu]
      exact PagedStore.isWithin_of_checkVariables hvariables

theorem beginRun_cases (m : MemoryStore) :
    beginRun m = .error .storeClosed m ∨
      ∃ ts, ts.toList.Perm m.terms.toList ∧ beginRun m = .ok () { m with terms := ts } := by
  obtain ⟨terms, generator, closed, hclosed, atoms, capacity, shuffler⟩ := m
  cases closed with
  | true => exact .inl rfl
  | false =>
    cases shuffler with
    | none => exact .inr ⟨terms, .refl _, rfl⟩
    | some shuffler => exact .inr ⟨_, shuffler.perm_apply 0 terms, rfl⟩

theorem listTerms_cases (m : MemoryStore) :
    listTerms m = .error .storeClosed m ∨ listTerms m = .ok (m.terms.toList.map .ok) m := by
  unfold listTerms checkOpen
  cases m.closed with
  | true => exact .inl rfl
  | false => exact .inr rfl

theorem keeps_isKnowing_beginRun : Preserves IsKnowing beginRun := by
  intro m hm
  obtain hrun | ⟨ts, hperm, hrun⟩ := beginRun_cases m <;> rw [hrun]
  · exact ⟨trivial, hm⟩
  · exact ⟨trivial, hm.perm hperm⟩

/-- A run on a store that has the atoms of its terms overruns nothing. -/
theorem bounds_isKnowing (n : Nat) :
    StoreBounds n (fun e => e.isOverrun = false) fun m : MemoryStore =>
      m.IsKnowing ∧ (TermStore.atoms m).size = n where
  size_eq h := h.2
  withAtoms table h hsize _ := ⟨h.1.withAtoms (Nat.le_of_eq (h.2.trans hsize.symm)), hsize⟩
  beginRun m hm := by
    obtain hrun | ⟨ts, hperm, hrun⟩ := beginRun_cases m <;>
      change TermStore.beginRun m = _ at hrun <;> rw [hrun]
    · exact ⟨rfl, hm⟩
    · exact ⟨trivial, hm.1.perm hperm, hm.2⟩
  terms m hm := by
    obtain hlist | hlist := listTerms_cases m <;>
      change TermStore.terms m = _ at hlist <;> rw [hlist]
    · exact ⟨rfl, hm⟩
    · refine ⟨⟨fun t ht => ?_, by simp⟩, hm⟩
      have hmem : t ∈ m.terms := by simpa using ht
      exact hm.2 ▸ hm.1 t hmem
  endPass h := h
  sync := keeps_sync_of_atoms fun table m hsize hm =>
    ⟨hm.1.withAtoms (Nat.le_of_eq hsize.symm), hsize.trans hm.2⟩

/-- **A store in memory has the atoms of its terms**, however it has been used. -/
theorem serves_isKnowing :
    Serves IsNew (fun _ _ => False) (fun e => e.isOverrun = false) IsKnowing where
  create hnew := by
    cases hnew with
    | create => exact fun t ht => absurd ht (Array.not_mem_empty t)
  op op := by
    have hempty (m : MemoryStore) (_ : m.IsKnowing) : IsKnowing { m with terms := #[] } :=
      fun t ht => absurd ht (Array.not_mem_empty t)
    refine StoreOp.keeps_run_of_writes (fun hread => ?_) keeps_isKnowing_insert
      (Keeps.modify hempty) fun _ => Keeps.modify hempty
    exact StoreOp.keeps_run_of_isRead hread keeps_termAt keeps_listTerms keeps_isKnowing_beginRun
      fun _ hs => hs
  atoms h hsize := h.withAtoms hsize
  disturb _ hdisturbs := hdisturbs.elim
  bounds := bounds_isKnowing
  cancelled _ := rfl

end MemoryStore

/-! ## On pages -/

namespace PagedStore

open TermStore

/-- A new store, with a registry that registration has made. -/
inductive IsNew : PagedStore → Prop
  | create {options : PagingOptions} {rules : Registry} {generator : Generator} {atoms : AtomTable}
      {directory : PageDirectory} {s : PagedStore} (shuffler : Shuffler) : rules.IsBuilt →
      PagedStore.create options rules generator atoms directory = .ok s →
      IsNew { s with shuffler }

/-- What happens to a store from outside. -/
inductive Disturbs (s : PagedStore) : PagedStore → Prop
  /-- The page files hold other bytes, or are gone, and the table of the atoms is another one. -/
  | damage (directory : PageDirectory) (atoms : AtomTable) : Disturbs s { s with directory, atoms }
  /-- A listing is given up after some pages. -/
  | giveUp (count : Nat) : Disturbs s (finalState (listSome count s))

/-- The states of a paged store, on a disk that may become anything at any time. -/
abbrev InUse : PagedStore → Prop := TermStore.InUse IsNew Disturbs

/-- What no damage takes away from a store. -/
structure IsSteadfast (s : PagedStore) : Prop where
  built : s.rules.IsBuilt
  isOrdered : s.IsOrdered

variable {s s' : PagedStore}

theorem IsSteadfast.rearranged (h : s.IsSteadfast) (hs : Rearranged s s') : s'.IsSteadfast where
  built := by
    rw [hs.eq]
    exact h.built
  isOrdered := hs.isOrdered h.isOrdered

theorem keeps_isSteadfast_flush : Preserves IsSteadfast flush := by
  refine Keeps.of_finalState fun s hs => ⟨?_, keeps_isOrdered_flush.finalState hs.isOrdered⟩
  exact (keeps_flush (I := fun s => s.rules.IsBuilt) (fun _ _ hs => hs) fun _ _ hs => hs).finalState
    hs.built

theorem keeps_isSteadfast_insert (t : Term Single) : Preserves IsSteadfast (insert t) := by
  refine Keeps.of_finalState fun s hs => ?_
  have happend : (s.append t).IsSteadfast := ⟨hs.built, hs.isOrdered.perm, hs.isOrdered.size_le⟩
  rcases insert_eq s t with ⟨e, _, hinsert⟩ | ⟨_, hinsert⟩
  · rw [hinsert]
    exact hs
  · rw [hinsert]
    split
    · exact keeps_isSteadfast_flush.finalState happend
    · exact happend

theorem keeps_isSteadfast_clear : Preserves IsSteadfast clear := by
  refine Keeps.of_finalState fun s hs => ?_
  rw [finalState_clear]
  exact ⟨hs.built, .empty rfl⟩

theorem isOverrun_of_prepare {e : Fault} (h : prepare s = .error e s') : e.isOverrun = false := by
  obtain rfl | hflush := prepare_error h
  · rfl
  · exact Fault.isOverrun_of_isFlush hflush

/-- What is listed is about the atoms of the store, whatever the files hold. -/
theorem IsSteadfast.of_listTerms {items : List (Except Fault (Term Single))} (h : s.IsSteadfast)
    (hlist : listTerms s = .ok items s') :
    (∀ t, .ok t ∈ items → t.IsWithin s.atoms.size) ∧
      ∀ e, .error e ∈ items → e.isOverrun = false := by
  obtain ⟨_, s₁, hprepare, _⟩ := bind_eq_ok hlist
  obtain ⟨hrules, hatoms⟩ := ((keeps_frame_prepare s.rules s.atoms).ok ⟨rfl, rfl⟩ hprepare).2
  have hnumbered : s₁.rules.IsNumbered := hrules ▸ h.built.isNumbered
  obtain ⟨_, _, pages, heq, _, hlists⟩ := h.isOrdered.exists_listTerms hnumbered hprepare
  rw [hlist] at heq
  cases heq
  refine ⟨fun t ht => ?_, fun e he => Fault.isOverrun_of_isReading (hlists.isReading he)⟩
  obtain ⟨p, _, ts, hintact, hts⟩ := hlists.exists_isIntact ht
  exact hatoms ▸ (hintact.readable t hts).isWithin

/-- A run on a store that has an order of its pages overruns nothing. -/
theorem bounds_isSteadfast (n : Nat) :
    StoreBounds n (fun e => e.isOverrun = false) fun s : PagedStore =>
      s.IsSteadfast ∧ (TermStore.atoms s).size = n := by
  have hflush : Preserves (fun s : PagedStore => s.IsSteadfast ∧ s.atoms.size = n) flush := by
    refine Keeps.of_finalState fun s hs => ⟨keeps_isSteadfast_flush.finalState hs.1, ?_⟩
    rw [(keeps_atoms_flush s.atoms).finalState (s := s) rfl]
    exact hs.2
  have harrange (s s' : PagedStore) (harranged : Rearranged s s')
      (hs : s.IsSteadfast ∧ s.atoms.size = n) : s'.IsSteadfast ∧ s'.atoms.size = n := by
    refine ⟨hs.1.rearranged harranged, ?_⟩
    rw [harranged.eq]
    exact hs.2
  have hatoms (table : AtomTable) (s : PagedStore) (hs : s.IsSteadfast) :
      IsSteadfast { s with atoms := table } := ⟨hs.built, hs.isOrdered.perm, hs.isOrdered.size_le⟩
  constructor
  case size_eq => exact fun h => h.2
  case withAtoms => exact fun table h hsize _ => ⟨hatoms table _ h.1, hsize⟩
  case beginRun =>
    refine Keeps.of_outcomes (keeps_beginRun hflush harrange) (fun _ _ _ _ _ => trivial)
      fun s e s' _ hrun => ?_
    change prepare { s with order := #[] } = _ at hrun
    exact isOverrun_of_prepare hrun
  case terms =>
    refine Keeps.of_outcomes (keeps_listTerms hflush harrange) (fun s items s' hs hlist => ?_)
      fun s e s' _ hlist => ?_
    · exact hs.2 ▸ hs.1.of_listTerms hlist
    · obtain hprepare | ⟨_, s₁, _, hread⟩ := bind_eq_error hlist
      · exact isOverrun_of_prepare hprepare
      · contradiction
  case endPass => exact fun hs => harrange _ _ (rearranged_endPass _) hs
  case sync =>
    exact keeps_sync_of_atoms fun table s hsize hs => ⟨hatoms table s hs.1, hsize.trans hs.2⟩

/-- **A paged store keeps its registry and an order of its pages**, however it has been used and
whatever has become of its files. -/
theorem serves_isSteadfast : Serves IsNew Disturbs (fun e => e.isOverrun = false) IsSteadfast where
  create hnew := by
    cases hnew with
    | create shuffler hbuilt hcreate =>
      obtain ⟨_, _, hcreate⟩ := except_bind_eq_ok hcreate
      cases hcreate
      exact ⟨hbuilt, .empty rfl⟩
  op op := by
    refine StoreOp.keeps_run_of_writes (fun hread => ?_) keeps_isSteadfast_insert
      keeps_isSteadfast_clear fun _ => Keeps.of_finalState fun s hs => ?_
    · exact keeps_read hread keeps_isSteadfast_flush fun _ _ harranged hs => hs.rearranged harranged
    · have hclosed : IsSteadfast s.shut :=
        ⟨hs.built, hs.isOrdered.perm, hs.isOrdered.size_le⟩
      exact keeps_isSteadfast_clear.finalState hclosed
  atoms h _ := ⟨h.built, h.isOrdered.perm, h.isOrdered.size_le⟩
  disturb {s s'} h hdisturbs := by
    cases hdisturbs with
    | damage => exact ⟨h.built, h.isOrdered.perm, h.isOrdered.size_le⟩
    | giveUp count =>
      exact (keeps_listSome keeps_isSteadfast_flush
        (fun _ _ harranged hs => hs.rearranged harranged) count).finalState h
  bounds := bounds_isSteadfast
  cancelled _ := rfl

/-- **Whatever its page files hold, a paged store reads a page as a whole or not at all.**  A store in
use that can be prepared lists its pages in some order, all terms of one page after the other, up to
the first page whose file does not hold the records of its terms and nothing else.  There the
listing ends with a failure, its only one.  All terms that are listed, and those that are found at a
position, are of the registry, are not too long, and are about atoms of the store. -/
theorem reads_intact (h : InUse s) :
    match prepare s with
    | .error e s' => (e = .storeClosed ∨ e.isFlush = true) ∧ listTerms s = .error e s' ∧
        (∀ count, listSome count s = .error e s') ∧ ∀ i, termAt i s = .error e s'
    | .ok _ s' =>
      (∃ items s'', ∃ pages : List Page, listTerms s = .ok items s'' ∧
        pages.Perm s'.pages.toList ∧ s'.Lists pages items) ∧
      (∀ count, ∃ items s'', ∃ pages : List Page, listSome count s = .ok items s'' ∧
        pages.Perm s'.pages.toList ∧ s'.Lists (pages.take count) items) ∧
      (∀ pages items, s'.Lists pages items → ∃ ts : List (Term Single), (∀ t ∈ ts, s.IsUsable t) ∧
        (items = ts.map .ok ∨ ∃ e, e.isReading = true ∧ items = ts.map .ok ++ [.error e])) ∧
      ∀ i, (∃ t, termAt i s = .ok t s' ∧ s.IsUsable t ∧
        ∃ p ∈ s'.pages.toList, ∃ ts, s'.IsIntact p ts ∧ t ∈ ts) ∨ ∃ e, termAt i s = .error e s' := by
  have hsteadfast := serves_isSteadfast.holds h
  cases hprepare : prepare s with
  | error e s' =>
    exact ⟨prepare_error hprepare, bind_error hprepare, fun _ => bind_error hprepare,
      fun _ => bind_error hprepare⟩
  | ok _ s' =>
    obtain ⟨hrules, hatoms⟩ := ((keeps_frame_prepare s.rules s.atoms).ok ⟨rfl, rfl⟩ hprepare).2
    have hnumbered : s'.rules.IsNumbered := hrules ▸ hsteadfast.built.isNumbered
    have husable {p : Page} {ts : List (Term Single)} (hintact : s'.IsIntact p ts)
        {t : Term Single} (ht : t ∈ ts) : s.IsUsable t := by
      have hreadable := hintact.readable t ht
      rw [hrules, hatoms] at hreadable
      exact hreadable.isUsable hsteadfast.built.isNumbered
    refine ⟨hsteadfast.isOrdered.exists_listTerms hnumbered hprepare,
      hsteadfast.isOrdered.exists_listSome hnumbered hprepare, fun pages items hlists => ?_,
      fun i => ?_⟩
    · obtain ⟨ts, hitems⟩ := hlists.exists_terms
      refine ⟨ts, fun t ht => ?_, hitems⟩
      have hmem : .ok t ∈ items := by
        obtain rfl | ⟨e, _, rfl⟩ := hitems
        · exact List.mem_map_of_mem ht
        · exact List.mem_append_left _ (List.mem_map_of_mem ht)
      obtain ⟨p, _, us, hintact, hus⟩ := hlists.exists_isIntact hmem
      exact husable hintact hus
    · obtain ⟨t, hfound, p, hp, ts, hintact, hts⟩ | hfailed := termAt_cases hnumbered hprepare i
      · exact .inl ⟨t, hfound, husable hintact hts, p, hp, ts, hintact, hts⟩
      · exact .inr hfailed

/-- A new store with a page for each term, which it shuffles in no way. -/
def plainStore : PagedStore where
  options := { pageSize := 1, randomizePageAccess := false, shufflePage := false }
  rules := sampleRules
  atoms := sampleAtoms
  shuffler := reversing
  directory := { path := "pages" }

theorem inUse_plainStore : InUse plainStore :=
  .create (.create reversing sampleRules_isBuilt
    (show create { pageSize := 1, randomizePageAccess := false, shufflePage := false } sampleRules
      {} sampleAtoms { path := "pages" } = .ok _ from rfl))

/-- A store with three pages, the second of which has a byte behind its record. -/
def spoiledStore : PagedStore :=
  let s := StoreOp.runAll [.insert sampleTerm, .insert sampleTerm, .insert sampleTerm] plainStore
  { s with directory := s.directory.put 1 (.file (sampleTerm.record ++ [0]).toArray) }

theorem inUse_spoiledStore : InUse spoiledStore :=
  .disturb (((inUse_plainStore.op (.insert sampleTerm)).op (.insert sampleTerm)).op
    (.insert sampleTerm)) (.damage _ _)

/-- The page behind the spoiled one is not reached. -/
theorem reads_intact_spoiled : InUse spoiledStore ∧ ∃ s' items s'', ∃ pages : List Page,
    prepare spoiledStore = .ok () s' ∧ listTerms spoiledStore = .ok items s'' ∧
      pages.Perm s'.pages.toList ∧ s'.Lists pages items ∧
      items = [.ok sampleTerm, .error (.corruptRecord 20 (.trailing 1))] := by
  have hprepared : succeeds (prepare spoiledStore) = true := by decide +kernel
  obtain ⟨_, hprepare⟩ := eq_ok_of_succeeds hprepared
  have h := reads_intact inUse_spoiledStore
  rw [hprepare] at h
  obtain ⟨⟨items, s'', pages, hlist, hperm, hlists⟩, _⟩ := h
  have hitems : onSuccess (fun items _ => items) (listTerms spoiledStore) =
      some [.ok sampleTerm, .error (.corruptRecord 20 (.trailing 1))] := by
    rfl
  rw [hlist] at hitems
  cases hitems
  exact ⟨inUse_spoiledStore, _, _, s'', pages, hprepare, hlist, hperm, hlists, rfl⟩

end PagedStore

/-! ## Runs -/

theorem DescentOptions.nonconvexPeriod_pos {o : DescentOptions} (h : o.check = .ok ()) :
    0 < o.nonconvexPeriod := by
  have hc : (⟨.nonconvexPeriod, 0 < o.nonconvexPeriod, .zeroCount⟩ : OptionCondition DescentKey) ∈
      o.conditions := by
    simp [conditions]
  simpa using check_eq_ok_iff.mp h _ hc

namespace Descent

variable {σ : Type} [TermStore σ] {d : Descent} {cancelled : Nat → Bool} {s : σ}
  {isNew I : σ → Prop} {disturbs : σ → σ → Prop}

/-- The runs from a store find every place that they ask for: at the start of each sweep, what is
indexed by variables has a place for each atom, what is indexed by slots has one for each unobserved
atom, and all terms are about these atoms; and no run fails because something is not there. -/
structure OverrunsNothing (d : Descent) (cancelled : Nat → Bool) (s : σ) : Prop where
  sweeps : ∀ c items start, Sweeps d cancelled s c items start →
    c.Fits (TermStore.atoms s).size ∧ start.Fits (TermStore.atoms s).size c ∧
      ∀ t, .ok t ∈ items → t.IsWithin (TermStore.atoms s).size
  errors : ∀ e r, d.optimize cancelled ⟨s, #[]⟩ = .error e r → e.isOverrun = false

theorem overrunsNothing_of_serves
    (h : TermStore.Serves isNew disturbs (fun e => e.isOverrun = false) I)
    (hs : TermStore.InUse isNew disturbs s) : d.OverrunsNothing cancelled s where
  sweeps := by
    rintro c items start ⟨s₀, k, p, r, t, hbegin, hafter, _, hterms, rfl, rfl⟩
    have hbounds := h.bounds (TermStore.atoms s).size
    have hs₀ := (hbounds.beginRun.ok ⟨h.holds hs, rfl⟩ hbegin).2
    have hkinds : (TermStore.atoms s₀).kinds.size = (TermStore.atoms s).size :=
      (Array.size_map ..).trans (hbounds.size_eq hs₀)
    have hstart : Fits (TermStore.atoms s).size (TermStore.atoms s₀).kinds 0
        (.start d.options (TermStore.atoms s₀).kinds) :=
      ⟨Accumulators.fits_start _ _, fun h => absurd rfl h, fun h => absurd rfl h⟩
    obtain ⟨hp, hr⟩ := hafter.keeps
      (I := fun r : Run σ => I r.store ∧ (TermStore.atoms r.store).size = (TermStore.atoms s).size)
      (P := Fits (TermStore.atoms s).size (TermStore.atoms s₀).kinds)
      (fun m p hp => keeps_bounds_pass hbounds hkinds hp) hstart hs₀
    obtain ⟨hitems, ht⟩ := hbounds.terms.ok hr hterms
    have hvalues : (TermStore.atoms t).values.size = (TermStore.atoms s).size :=
      (TermStore.atoms t).size_values.trans (hbounds.size_eq ht)
    exact ⟨fits_context hkinds hp, fits_startState hp hvalues, hitems.1⟩
  errors _ _ hrun := h.optimize_eq_error hs hrun

/-- **A run finds every place that it asks for**, on every store in use: all its indices are in
range, what it copies has the size of what it is copied to, the pages that are to be read are there,
and the period of the non-convex rounds is not zero. -/
theorem optimize_overruns_nothing (d : Descent) (cancelled : Nat → Bool) :
    0 < d.options.nonconvexPeriod ∧
      (∀ m : MemoryStore, MemoryStore.InUse m → d.OverrunsNothing cancelled m) ∧
      ∀ s : PagedStore, PagedStore.InUse s →
        d.OverrunsNothing cancelled s ∧ ∀ i ∈ s.order, i < s.pages.size := by
  refine ⟨DescentOptions.nonconvexPeriod_pos d.valid, fun m hm => ?_, fun s hs => ⟨?_, ?_⟩⟩
  · exact overrunsNothing_of_serves MemoryStore.serves_isKnowing hm
  · exact overrunsNothing_of_serves PagedStore.serves_isSteadfast hs
  · intro i hi
    have hordered := (PagedStore.serves_isSteadfast.holds hs).isOrdered
    have hlt := List.mem_range.mp (hordered.perm.mem_iff.mp (Array.mem_toList_iff.mpr hi))
    exact Nat.lt_of_lt_of_le hlt hordered.size_le

/-- An optimizer whose steps have accumulators. -/
def adamDescent : Descent := ⟨{ schedule := .constant, extension := .adam, maxIterations := 1 }, rfl⟩

/-- The atoms of the sample, and another one that has come in later. -/
def grownAtoms : AtomTable := finalState (AtomTable.push .unobserved 1 sampleAtoms)

/-- A store in memory whose atoms have become more since its term came in. -/
def grownStore : MemoryStore :=
  { finalState ((StoreOp.insert sampleTerm).run ({ atoms := sampleAtoms } : MemoryStore)) with
    atoms := grownAtoms }

theorem inUse_grownStore : MemoryStore.InUse grownStore :=
  ((TermStore.InUse.create (.create {} sampleAtoms none none)).op (.insert sampleTerm)).atoms
    (show sampleAtoms.size ≤ grownAtoms.size by decide +kernel)

theorem optimize_overruns_nothing_grown :
    MemoryStore.InUse grownStore ∧ grownStore.atoms.size = 3 ∧
      adamDescent.OverrunsNothing (fun _ => false) grownStore ∧
      succeeds (adamDescent.optimize (fun _ => false) ⟨grownStore, #[]⟩) = true ∧
      PagedStore.InUse PagedStore.spoiledStore ∧
      adamDescent.OverrunsNothing (fun _ => false) PagedStore.spoiledStore ∧
      ∀ i ∈ PagedStore.spoiledStore.order, i < PagedStore.spoiledStore.pages.size := by
  obtain ⟨_, hmemory, hpaged⟩ := optimize_overruns_nothing adamDescent fun _ => false
  obtain ⟨hspoiled, horder⟩ := hpaged _ PagedStore.inUse_spoiledStore
  exact ⟨inUse_grownStore, by decide +kernel, hmemory _ inUse_grownStore, by decide +kernel,
    PagedStore.inUse_spoiledStore, hspoiled, horder⟩

end Descent

end HingeLoss

import HingeLoss.Proofs.Store.Agreement
import HingeLoss.Proofs.Store.Content
import HingeLoss.Proofs.Store.Lawful

/-!
# HingeLoss.Proofs.Store.Reachable

What holds of every run of a paged store.

`Reachable allowed s l` are the states `s` that a new store comes to by inserting terms, reading,
preparing passes and removing everything, whatever its options and its shuffler are and wherever a
listing is given up.  Between two operations the table of atoms may grow, and the disk may become
any other that is `allowed` and has the same page files, so a flush may fail now and succeed later.
The ledger `l` keeps what has happened since the store was last empty: which terms have come onto
the open page, which of them have been reported as inserted, and whether a flush has failed.

1. The page files and the open page are the records of the terms in the ledger, in their order, and
   all counts agree with that, whichever flushes fail.
2. On disks that never refuse anything, every listing that is read to its end has each inserted
   term once.
-/

namespace HingeLoss

namespace PagedStore

/-! ## Runs -/

/-- What has happened to a store since it was last empty. -/
structure Ledger where
  /-- The terms that have come onto the open page. -/
  taken : List (Term Single) := []
  /-- The terms whose insertion has succeeded. -/
  inserted : List (Term Single) := []
  /-- Whether an operation has failed because a flush has. -/
  flushFailed : Bool := false

/-- Notes how an operation has ended. -/
def Ledger.note {α : Type} (l : Ledger) (outcome : EStateM.Result Fault PagedStore α) : Ledger :=
  { l with flushFailed := l.flushFailed || failsToFlush outcome }

/-- The ledger behind an operation. -/
def Ledger.after (l : Ledger) (op : StoreOp) (s : PagedStore) : Ledger :=
  match op with
  | .insert t =>
    let inserted := if succeeds (op.run s) then l.inserted ++ [t] else l.inserted
    { l.note (op.run s) with taken := s.takenAfter t l.taken, inserted }
  | .clear => {}
  | _ => l.note (op.run s)

/-- The operations of an open store: every one that reads, the removal of all terms, and the
insertion of a term that is not too long. -/
def IsOpenOp (op : StoreOp) : Prop :=
  match op with
  | .insert t => t.size ≤ Term.maxSize
  | .clear => True
  | op => op.isRead = true

/-- The states of a store on disks that are allowed, with what has happened to it. -/
inductive Reachable (allowed : PageDirectory → Prop) : PagedStore → Ledger → Prop
  | create {options : PagingOptions} {rules : Registry} {generator : Generator} {atoms : AtomTable}
      {directory : PageDirectory} {s : PagedStore} (shuffler : Shuffler) :
      allowed directory → PagedStore.create options rules generator atoms directory = .ok s →
      Reachable allowed { s with shuffler } {}
  | op {s : PagedStore} {l : Ledger} (op : StoreOp) :
      Reachable allowed s l → IsOpenOp op →
      Reachable allowed (finalState (op.run s)) (l.after op s)
  /-- A listing is given up after some pages. -/
  | giveUp {s : PagedStore} {l : Ledger} (count : Nat) :
      Reachable allowed s l →
      Reachable allowed (finalState (listSome count s)) (l.note (listSome count s))
  /-- The disk changes, but not the page files. -/
  | disk {s : PagedStore} {l : Ledger} {d : PageDirectory} :
      Reachable allowed s l → allowed d →
      (∀ k < s.pages.size, d.entry k = s.directory.entry k) →
      Reachable allowed { s with directory := d } l
  | grow {s : PagedStore} {l : Ledger} {table : AtomTable} :
      Reachable allowed s l → s.atoms.size ≤ table.size →
      Reachable allowed { s with atoms := table } l

/-! ## What an operation keeps -/

/-- What a flush and a new arrangement of the pages keep, every reading operation keeps. -/
theorem keeps_read {I : PagedStore → Prop} {op : StoreOp} (hread : op.isRead = true)
    (hflush : Preserves I flush) (harrange : ∀ s s', Rearranged s s' → I s → I s') :
    Preserves I (op.run : EStateM Fault PagedStore StoreAnswer) :=
  StoreOp.keeps_run_of_isRead hread (keeps_termAt hflush harrange) (keeps_listTerms hflush harrange)
    (keeps_beginRun hflush harrange) fun s hs => harrange _ _ (rearranged_endPass s) hs

/-- An insertion is carried out as such, only its answer is another. -/
theorem run_insert (s : PagedStore) (t : Term Single) :
    finalState ((StoreOp.insert t).run s) = finalState (insert t s) ∧
      failsToFlush ((StoreOp.insert t).run s) = failsToFlush (insert t s) ∧
      succeeds ((StoreOp.insert t).run s) = succeeds (insert t s) := by
  change finalState ((insert t >>= fun _ => pure (StoreAnswer.count 1)) s) = _ ∧
    failsToFlush ((insert t >>= fun _ => pure (StoreAnswer.count 1)) s) = _ ∧
    succeeds ((insert t >>= fun _ => pure (StoreAnswer.count 1)) s) = _
  cases h : insert t s with
  | ok a s' =>
    rw [bind_ok h]
    exact ⟨rfl, rfl, rfl⟩
  | error e s' =>
    rw [bind_error h]
    exact ⟨rfl, rfl, rfl⟩

theorem finalState_run_clear (s : PagedStore) :
    finalState (StoreOp.clear.run s) = finalState (clear s) := by
  change finalState ((clear >>= fun _ => pure StoreAnswer.done) s) = _
  cases h : clear s with
  | ok a s' => rw [bind_ok h]; rfl
  | error e s' => rw [bind_error h]; rfl

/-- A reading operation is only noted. -/
theorem Ledger.after_of_isRead (l : Ledger) {op : StoreOp} (hread : op.isRead = true)
    (s : PagedStore) : l.after op s = l.note (op.run s) := by
  cases op with
  | insert _ | add _ | addAll _ | clear | close => contradiction
  | _ => rfl

/-- An operation of an open store reads, inserts a term or removes all of them. -/
theorem IsOpenOp.cases {op : StoreOp} (h : IsOpenOp op) :
    op.isRead = true ∨ (∃ t, op = .insert t ∧ t.size ≤ Term.maxSize) ∨ op = .clear := by
  cases op with
  | insert t => exact Or.inr (Or.inl ⟨t, rfl, h⟩)
  | clear => exact Or.inr (Or.inr rfl)
  | _ => exact Or.inl h

/-- Ground rules may be added as well, since that inserts their terms. -/
theorem Reachable.add {allowed : PageDirectory → Prop} {s : PagedStore} {l : Ledger}
    (h : Reachable allowed s l) (g : GroundRule Single) :
    ∃ l', Reachable allowed (finalState (TermStore.add g s)) l' := by
  have hinsert (t : Term Single) (hsize : t.size ≤ Term.maxSize) :
      Preserves (fun s => ∃ l, Reachable allowed s l) (TermStore.insert t) := by
    refine Keeps.of_finalState fun s ⟨l, hs⟩ => ⟨l.after (.insert t) s, ?_⟩
    have hop := hs.op (.insert t) hsize
    rwa [(run_insert s t).1] at hop
  exact (TermStore.keeps_add fun t _ => hinsert t).finalState ⟨l, h⟩

/-- What holds of a new store and is kept by all that can happen to it. -/
structure IsInvariant (allowed : PageDirectory → Prop) (I : PagedStore → Ledger → Prop) :
    Prop where
  create : ∀ {options : PagingOptions} {rules : Registry} {generator : Generator}
    {atoms : AtomTable} {directory : PageDirectory} {s : PagedStore} (shuffler : Shuffler),
    allowed directory → PagedStore.create options rules generator atoms directory = .ok s →
    I { s with shuffler } {}
  flush : ∀ l, Preserves (I · l) flush
  rearranged : ∀ {s s' l}, I s l → Rearranged s s' → I s' l
  note : ∀ {s l} {α : Type} (outcome : EStateM.Result Fault PagedStore α), I s l →
    I s (l.note outcome)
  insert : ∀ {s l t}, I s l → t.size ≤ Term.maxSize →
    I (finalState ((StoreOp.insert t).run s)) (l.after (.insert t) s)
  clear : ∀ {s l}, I s l → I (finalState (StoreOp.clear.run s)) (l.after .clear s)
  disk : ∀ {s l} {d : PageDirectory}, I s l → allowed d →
    (∀ k < s.pages.size, d.entry k = s.directory.entry k) → I { s with directory := d } l
  grow : ∀ {s l} {table : AtomTable}, I s l → s.atoms.size ≤ table.size →
    I { s with atoms := table } l

/-- An invariant holds of every run. -/
theorem IsInvariant.holds {allowed : PageDirectory → Prop} {I : PagedStore → Ledger → Prop}
    (h : IsInvariant allowed I) {s : PagedStore} {l : Ledger} (hs : Reachable allowed s l) :
    I s l := by
  have harrange (l : Ledger) (s s' : PagedStore) (hs : Rearranged s s') (hI : I s l) : I s' l :=
    h.rearranged hI hs
  -- By induction on the run; all reading operations are one case, through `keeps_read`.
  induction hs with
  | create shuffler hallowed hcreate => exact h.create shuffler hallowed hcreate
  | @op s l op _ hop ih =>
    rcases hop.cases with hread | ⟨t, rfl, hsize⟩ | rfl
    · rw [l.after_of_isRead hread]
      exact h.note _ ((keeps_read hread (h.flush l) (harrange l)).finalState ih)
    · exact h.insert ih hsize
    · exact h.clear ih
  | @giveUp s l count _ ih =>
    exact h.note _ ((keeps_listSome (h.flush l) (harrange l) count).finalState ih)
  | disk _ hallowed hsame ih => exact h.disk ih hallowed hsame
  | grow _ hsize ih => exact h.grow ih hsize

/-! ## Content and sizes -/

/-- A store that is as its ledger says. -/
structure IsSound (s : PagedStore) (l : Ledger) : Prop where
  carries : s.Carries l.taken
  bounded : l.flushFailed = false → s.IsBounded

/-- Every store is as its ledger says, on any disk. -/
theorem isInvariant_isSound (allowed : PageDirectory → Prop) : IsInvariant allowed IsSound where
  create shuffler _ hcreate := by
    obtain ⟨_, hcheck, hcreate⟩ := except_bind_eq_ok hcreate
    injection hcreate with hcreate
    subst hcreate
    have hpos := PagingOptions.check_eq_ok_iff.mp hcheck
    exact ⟨.empty rfl hpos rfl rfl rfl rfl rfl, fun _ => .empty rfl rfl hpos⟩
  flush l := Keeps.of_finalState fun s hs =>
    ⟨(keeps_carries_flush l.taken).finalState hs.carries,
      fun hflushed => keeps_bounded_flush.finalState (hs.bounded hflushed)⟩
  rearranged hs harranged :=
    ⟨hs.carries.rearranged harranged, fun hflushed => (hs.bounded hflushed).rearranged harranged⟩
  note _ hs := ⟨hs.carries, fun hflushed => hs.bounded (Bool.or_eq_false_iff.mp hflushed).1⟩
  insert {s l t} hs hsize := by
    obtain ⟨hfinal, hfails, _⟩ := run_insert s t
    rw [hfinal]
    refine ⟨hs.carries.insert hsize, fun hflushed => ?_⟩
    obtain ⟨hbefore, hnow⟩ := Bool.or_eq_false_iff.mp hflushed
    exact (hs.bounded hbefore).insert (hfails ▸ hnow)
  clear {s l} hs := by
    rw [finalState_run_clear]
    exact ⟨hs.carries.clear, fun _ => bounded_clear hs.carries.pageSize_pos⟩
  disk hs _ hsame := by
    refine ⟨hs.carries.of_directory hsame, fun hflushed => ?_⟩
    exact ⟨(hs.bounded hflushed).pages, (hs.bounded hflushed).buffered⟩
  grow hs hsize := by
    refine ⟨hs.carries.grow hsize, fun hflushed => ?_⟩
    exact ⟨(hs.bounded hflushed).pages, (hs.bounded hflushed).buffered⟩

/-! ## Runs on disks that may refuse -/

/-- **The pages hold the terms that have been taken in**, whichever flushes have failed.  The page
files in their order, and the open page behind them, are the records of these terms in the order in
which they have come, and the counts agree.  No page is too large and the open page has room, unless
a flush has failed.  If the open page can be flushed, each term is found at its position and all of
them are listed. -/
theorem Reachable.pages_hold_taken {allowed : PageDirectory → Prop} {s : PagedStore} {l : Ledger}
    (h : Reachable allowed s l) :
    (∃ flushed opened, s.Holds flushed opened ∧ flushed.flatten ++ opened = l.taken) ∧
      s.pages.toList.flatMap s.fileBytes ++ s.buffer.toList = records l.taken ∧
      (∀ (i : Nat) (p : Page), s.pages[i]? = some p → p.number = i ∧ 0 < p.terms) ∧
      s.total = countTerms s.pages.toList + s.buffered ∧
      s.total = l.taken.length ∧
      (l.flushFailed = false → (∀ p ∈ s.pages.toList, p.terms ≤ s.options.pageSize) ∧
        s.buffered < s.options.pageSize) ∧
      ∀ s', flush s = .ok () s' →
        (∀ (i : Nat) (t : Term Single), l.taken[i]? = some t → termAt i s = .ok t s'.refreshOrder) ∧
        ∃ items s'', listTerms s = .ok items s'' ∧ items.Perm (l.taken.map .ok) := by
  have hsound := (isInvariant_isSound allowed).holds h
  obtain ⟨flushed, opened, hholds, hterms⟩ := hsound.carries.content
  refine ⟨⟨flushed, opened, hholds, hterms⟩, ?_, fun i p => hholds.page_at, ?_, ?_, ?_, ?_⟩
  · rw [hholds.files_eq, hholds.buffer, ← records_append, hterms]
  · rw [hholds.countTerms_eq, hholds.buffered, hholds.total]
  · rw [hholds.total, ← hterms, List.length_append]
  · intro hflushed
    exact ⟨(hsound.bounded hflushed).pages, (hsound.bounded hflushed).buffered⟩
  · intro s' hflush
    exact ⟨fun i t hi => hsound.carries.termAt hflush hi, hsound.carries.listTerms hflush⟩

/-- Reverses what is to be ordered. -/
def reversing : Shuffler where
  order _ n := (List.range n).reverse
  order_perm _ n := List.reverse_perm (List.range n)

/-- A new store on a disk, with pages of one term and both shuffles. -/
def sampleStore (directory : PageDirectory) : PagedStore where
  options := { pageSize := 1 }
  rules := sampleRules
  atoms := sampleAtoms
  shuffler := reversing
  directory := directory

theorem reachable_sampleStore {allowed : PageDirectory → Prop} {d : PageDirectory} (h : allowed d) :
    Reachable allowed (sampleStore d) {} :=
  .create reversing h (show create { pageSize := 1 } sampleRules {} sampleAtoms d = .ok _ from rfl)

/-- A disk that breaks off after three bytes of a page. -/
def brokenDisk : PageDirectory := { path := "pages", refused := some (.write 3) }

/-- The sample after an insertion on a disk that breaks off. -/
def sampleBroken : PagedStore :=
  finalState ((StoreOp.insert sampleTerm).run (sampleStore brokenDisk))

/-- The first insertion fails to flush its page, and the second flushes both terms to one page,
which is larger than the options say. -/
theorem pages_hold_taken_mended :
    ∃ s l, Reachable (fun _ => True) s l ∧ l.flushFailed = true ∧ l.inserted = [sampleTerm] ∧
      l.taken = [sampleTerm, sampleTerm] ∧ s.pages.toList.map (·.terms) = [2] ∧
      s.pages.toList.flatMap s.fileBytes ++ s.buffer.toList = records [sampleTerm, sampleTerm] := by
  have hsize : IsOpenOp (.insert sampleTerm) := show sampleTerm.size ≤ Term.maxSize by decide
  have hbroken : Reachable (fun _ => True) sampleBroken _ :=
    .op (.insert sampleTerm) (reachable_sampleStore (d := brokenDisk) trivial) hsize
  have hmended := hbroken.disk (d := { path := "pages" }) trivial fun k hk =>
    absurd hk (Nat.not_lt_zero k)
  have h := hmended.op (.insert sampleTerm) hsize
  exact ⟨_, _, h, rfl, rfl, rfl, rfl, h.pages_hold_taken.2.1⟩

/-! ## Runs on disks that never refuse -/

/-- A store on a calm disk that has inserted all the terms that it has taken. -/
structure IsUndisturbed (s : PagedStore) (l : Ledger) : Prop where
  calm : s.directory.IsCalm
  inserted_eq : l.inserted = l.taken

theorem isInvariant_isUndisturbed : IsInvariant PageDirectory.IsCalm IsUndisturbed where
  create shuffler hcalm hcreate := by
    obtain ⟨_, _, hcreate⟩ := except_bind_eq_ok hcreate
    injection hcreate with hcreate
    subst hcreate
    exact ⟨hcalm, rfl⟩
  flush l := by
    intro s hs
    obtain ⟨s', hflush, hcalm⟩ := flush_eq_ok_of_calm hs.calm
    rw [hflush]
    exact ⟨trivial, hcalm, hs.inserted_eq⟩
  rearranged hs harranged := by
    rw [harranged.eq]
    exact ⟨hs.calm, hs.inserted_eq⟩
  note _ hs := ⟨hs.calm, hs.inserted_eq⟩
  insert {s l t} hs _ := by
    obtain ⟨hfinal, _, hsucceeds⟩ := run_insert s t
    obtain ⟨hcheck, hcalm⟩ := insert_of_calm hs.calm t
    constructor
    · rw [hfinal]
      exact hcalm
    · change (if succeeds ((StoreOp.insert t).run s) then l.inserted ++ [t] else l.inserted) = _
      rw [hsucceeds, hcheck, hs.inserted_eq]
      rfl
  clear {s l} hs := by
    rw [finalState_run_clear, finalState_clear]
    exact ⟨(removePages_eq hs.calm _).2, rfl⟩
  disk hs hcalm _ := ⟨hcalm, hs.inserted_eq⟩
  grow hs _ := ⟨hs.calm, hs.inserted_eq⟩

/-- **Every listing is complete.**  On disks that never refuse anything, the order of the pages is
always one of the first of them, and a listing that is read to its end has each term that has been
inserted since the store was last empty, once, and no failure, whatever has been shuffled.  An
insertion fails only if its term is refused. -/
theorem Reachable.lists_inserted {s : PagedStore} {l : Ledger}
    (h : Reachable PageDirectory.IsCalm s l) :
    s.order.toList.Perm (List.range s.order.size) ∧ s.order.size ≤ s.pages.size ∧
      (∃ items s', StoreOp.terms.run s = .ok (.listing items) s' ∧
        items.Perm (l.inserted.map .ok)) ∧
      (∃ items s', StoreOp.sweep.run s = .ok (.sweep items s.atoms) s' ∧
        items.Perm (l.inserted.map .ok)) ∧
      ∀ t, succeeds ((StoreOp.insert t).run s) = (s.checkInsert t).isOk := by
  have hcarries := ((isInvariant_isSound PageDirectory.IsCalm).holds h).carries
  obtain ⟨hcalm, hinserted⟩ := isInvariant_isUndisturbed.holds h
  obtain ⟨_, hflush, _⟩ := flush_eq_ok_of_calm hcalm
  obtain ⟨items, s', hlist, hperm⟩ := hcarries.listTerms hflush
  rw [← hinserted] at hperm
  have hatoms : s'.atoms = s.atoms := by
    have hatoms := LawfulTermStore.atoms_terms s
    change (finalState (listTerms s)).atoms = s.atoms at hatoms
    rwa [hlist] at hatoms
  have hterms : StoreOp.terms.run s = .ok (.listing items) s' := bind_ok hlist
  have hsweep : StoreOp.sweep.run s = .ok (.sweep items s.atoms) s' := by
    rw [← hatoms]
    exact bind_ok hlist
  refine ⟨hcarries.isOrdered.perm, hcarries.isOrdered.size_le, ⟨items, s', hterms, hperm⟩,
    ⟨items, s', hsweep, hperm⟩, fun t => ?_⟩
  rw [(run_insert s t).2.2, (insert_of_calm hcalm t).1]

/-- A term that pulls the free atom of the sample up. -/
def sampleRise : Term Single := { sampleTerm with constant := 1 }

/-- A listing is given up, another page is added and the pages are reversed, and still the next
listing has all terms. -/
theorem lists_inserted_reversed :
    ∃ s l, Reachable PageDirectory.IsCalm s l ∧
      l.inserted = [sampleTerm, sampleRise, sampleTerm] ∧ s.order.toList = [1, 0] ∧
      ∃ items s', StoreOp.terms.run s = .ok (.listing items) s' ∧
        items.Perm [.ok sampleTerm, .ok sampleRise, .ok sampleTerm] := by
  have hcalm : PageDirectory.IsCalm { path := "pages" } := ⟨rfl, rfl, fun _ => rfl⟩
  have hsize : IsOpenOp (.insert sampleTerm) := show sampleTerm.size ≤ Term.maxSize by decide
  have hrise : IsOpenOp (.insert sampleRise) := show sampleRise.size ≤ Term.maxSize by decide
  have hone := (reachable_sampleStore hcalm).op (.insert sampleTerm) hsize
  have hlisted := (hone.op (.insert sampleRise) hrise).giveUp 1
  have h := hlisted.op (.insert sampleTerm) hsize
  exact ⟨_, _, h, rfl, rfl, h.lists_inserted.2.2.1⟩

end PagedStore

end HingeLoss

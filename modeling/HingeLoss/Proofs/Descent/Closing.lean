import HingeLoss.Descent.Watched
import HingeLoss.Proofs.Descent.Passes
import HingeLoss.Proofs.Store.Content
import HingeLoss.Proofs.Store.Simulation
import HingeLoss.Proofs.Store.Working

/-!
# HingeLoss.Proofs.Descent.Closing

A closed store stays closed and empty.

1. `IsSeal D` says that the stores with `D` are closed and empty, that they refuse all operations
   that need terms or a generator, and that the other operations leave them with `D`.  Both kinds of
   stores have a seal, and closing puts it on them, even if a page cannot be removed.
2. What is built on the operations is refused as well (`IsSeal.run_of_needsTerms`), by any number of
   workers in any order of their steps (`IsSeal.crew`).
3. So whatever is done to a store that has been closed, it never has a term again, and its atoms are
   what has been done to them directly (`StaysClosed`, `closed_for_good`).
-/

namespace HingeLoss

open TermStore

/-! ## Seals -/

/-- Stores that are closed and empty, and that no operation opens again. -/
structure IsSeal {σ : Type} [TermStore σ] (D : σ → Prop) : Prop where
  isClosed_eq : ∀ {s}, D s → isClosed s = true
  generator_eq : ∀ {s}, D s → generator s = none
  size_eq : ∀ {s}, D s → size s = 0
  insert_eq : ∀ {s} (t : Term Single), D s → insert t s = .error .storeClosed s
  termAt_eq : ∀ {s} (i : Nat), D s → termAt i s = .error .storeClosed s
  terms_eq : ∀ {s}, D s → terms s = .error .storeClosed s
  beginRun_eq : ∀ {s}, D s → beginRun s = .error .storeClosed s
  clear_eq : ∀ {s}, D s → clear s = .ok () s
  close_eq : ∀ {s}, D s → close s = .ok () s
  reserve_eq : ∀ {s} (n : Nat), D s → finalState (reserve n s) = s
  endPass : ∀ {s}, D s → D (endPass s)
  withAtoms : ∀ {s} (t : AtomTable), D s → D (withAtoms t s)

namespace MemoryStore

/-- A closed store without terms. -/
structure IsShut (s : MemoryStore) : Prop where
  closed : s.closed = true
  generator_eq : s.generator = none
  terms_eq : s.terms = #[]

theorem isShut_close (s : MemoryStore) : IsShut (finalState (close s)) := ⟨rfl, rfl, rfl⟩

theorem IsShut.checkOpen_eq {s : MemoryStore} (h : s.IsShut) :
    s.checkOpen = .error .storeClosed := by
  rw [MemoryStore.checkOpen, if_pos h.closed]

theorem IsShut.shut_eq {s : MemoryStore} (h : s.IsShut) : s.shut = s := by
  obtain ⟨terms, generator, closed, _, atoms, capacity, shuffler⟩ := s
  obtain ⟨rfl, rfl, -⟩ := h
  rfl

theorem isSeal_isShut : IsSeal IsShut where
  isClosed_eq hs := hs.closed
  generator_eq hs := hs.generator_eq
  size_eq hs := congrArg Array.size hs.terms_eq
  insert_eq {s} t hs := by
    have hcheck : s.checkInsert t = .error .storeClosed := by
      rw [checkInsert, hs.checkOpen_eq]
      rfl
    change MemoryStore.insert t s = _
    rw [MemoryStore.insert, hcheck]
  termAt_eq {s} i hs := by
    change MemoryStore.termAt i s = _
    rw [MemoryStore.termAt, hs.checkOpen_eq]
  terms_eq {s} hs := by
    change MemoryStore.listTerms s = _
    rw [MemoryStore.listTerms, hs.checkOpen_eq]
  beginRun_eq {s} hs := by
    change MemoryStore.beginRun s = _
    rw [MemoryStore.beginRun, hs.checkOpen_eq]
  clear_eq {s} hs := by
    change EStateM.Result.ok () { s with terms := #[] } = _
    rw [← hs.terms_eq]
  close_eq {s} hs := by
    change EStateM.Result.ok () { s.shut with terms := #[] } = _
    rw [hs.shut_eq, ← hs.terms_eq]
  reserve_eq {s} n hs := by
    change finalState (MemoryStore.reserve n s) = s
    unfold MemoryStore.reserve
    dsimp only
    split <;> split <;> rfl
  endPass hs := hs
  withAtoms _ hs := ⟨hs.closed, hs.generator_eq, hs.terms_eq⟩

end MemoryStore

namespace PagedStore

/-- A closed store without pages, whose open page is empty. -/
structure IsShut (s : PagedStore) : Prop where
  closed : s.closed = true
  generator_eq : s.generator = none
  buffer_eq : s.buffer = #[]
  buffered_eq : s.buffered = 0
  pages_eq : s.pages = #[]
  total_eq : s.total = 0
  order_eq : s.order = #[]

/-- A store that is closed is empty, even if a page could not be removed. -/
theorem isShut_close (s : PagedStore) : IsShut (finalState (close s)) := by
  have hclose : close s = PagedStore.clear s.shut := rfl
  rw [hclose, finalState_clear]
  exact ⟨rfl, rfl, rfl, rfl, rfl, rfl, rfl⟩

/-- A directory stands where the page of the store was. -/
example : ∃ s : PagedStore, s.total = 1 ∧ succeeds (close s) = false ∧
    (finalState (close s)).total = 0 :=
  ⟨{ options := {}, rules := { origin := 0 }, atoms := {}, pages := #[⟨0, 1, 20⟩], total := 1,
     shuffler := .ofSeed 0, directory := { path := "pages", slots := [(0, .directory)] } },
    rfl, rfl, rfl⟩

namespace IsShut

variable {s : PagedStore}

theorem clear_eq (h : s.IsShut) : PagedStore.clear s = .ok () s := by
  obtain ⟨options, rules, generator, closed, _, atoms, buffer, buffered, pages, total, order,
    shuffler, drawn, directory⟩ := s
  obtain ⟨rfl, rfl, rfl, rfl, rfl, rfl, rfl⟩ := h
  rfl

theorem shut_eq (h : s.IsShut) : s.shut = s := by
  obtain ⟨options, rules, generator, closed, _, atoms, buffer, buffered, pages, total, order,
    shuffler, drawn, directory⟩ := s
  obtain ⟨rfl, rfl, -⟩ := h
  rfl

theorem close_eq (h : s.IsShut) : PagedStore.close s = .ok () s := by
  have hclose : PagedStore.close s = PagedStore.clear s.shut := rfl
  rw [hclose, h.shut_eq, h.clear_eq]

theorem prepare_eq (h : s.IsShut) : prepare s = .error .storeClosed s := by
  have hopen : PagedStore.checkOpen s = .error .storeClosed s := by
    rw [checkOpen_apply, if_pos (by simp [h.generator_eq])]
  rw [prepare, bind_error hopen]

theorem beginRun_eq (h : s.IsShut) : PagedStore.beginRun s = .error .storeClosed s := by
  unfold PagedStore.beginRun
  rw [bind_ok (modify_apply _ s), ← h.order_eq]
  exact h.prepare_eq

/-- No order is drawn of no pages, but the draw counts. -/
theorem endPass (h : s.IsShut) :
    (PagedStore.endPass s).IsShut ∧ (PagedStore.endPass s).directory = s.directory := by
  have hdraw (n : Nat) : s.shuffler.apply n s.order = #[] := by
    simp [Shuffler.apply, h.order_eq]
  unfold PagedStore.endPass shuffled
  cases s.options.randomizePageAccess with
  | true =>
    exact ⟨⟨h.closed, h.generator_eq, h.buffer_eq, h.buffered_eq, h.pages_eq, h.total_eq, hdraw _⟩,
      rfl⟩
  | false =>
    exact ⟨⟨h.closed, h.generator_eq, h.buffer_eq, h.buffered_eq, h.pages_eq, h.total_eq,
      h.order_eq⟩, rfl⟩

end IsShut

/-- The directory of a store that is shut is left alone. -/
theorem isSeal_isShut (d : PageDirectory) : IsSeal fun s => IsShut s ∧ s.directory = d where
  isClosed_eq hs := hs.1.closed
  generator_eq hs := hs.1.generator_eq
  size_eq hs := hs.1.total_eq
  insert_eq {s} t hs := by
    have hcheck : s.checkInsert t = .error .storeClosed := by
      simp only [checkInsert, if_pos hs.1.closed]
      rfl
    exact insert_of_refused hcheck
  termAt_eq i hs := bind_error hs.1.prepare_eq
  terms_eq hs := bind_error hs.1.prepare_eq
  beginRun_eq hs := hs.1.beginRun_eq
  clear_eq hs := hs.1.clear_eq
  close_eq hs := hs.1.close_eq
  reserve_eq n hs := rfl
  endPass hs := ⟨hs.1.endPass.1, hs.1.endPass.2.trans hs.2⟩
  withAtoms t hs := ⟨⟨hs.1.closed, hs.1.generator_eq, hs.1.buffer_eq, hs.1.buffered_eq,
    hs.1.pages_eq, hs.1.total_eq, hs.1.order_eq⟩, hs.2⟩

end PagedStore

/-! ## What is built on the operations -/

namespace IsSeal

variable {σ : Type} [TermStore σ] {D : σ → Prop} {s : σ}

section Refused

variable (h : IsSeal D) (hs : D s)

include h hs

theorem ground_eq (g : GroundRule Single) : ground s g = .error .storeClosed := by
  simp only [ground, h.generator_eq hs]

theorem add_eq (g : GroundRule Single) : add g s = .error .storeClosed s := by
  unfold add
  rw [bind_ok (get_apply s), h.ground_eq hs g]
  rfl

theorem addInOrder_eq {gs : List (GroundRule Single)} (hgs : gs ≠ []) :
    addInOrder gs s = .error .storeClosed s := by
  obtain ⟨g, gs, rfl⟩ := List.exists_cons_of_ne_nil hgs
  rw [addInOrder, List.foldlM_cons]
  exact bind_error (bind_error (h.add_eq hs g))

theorem termsOf_eq (id : RuleId) : termsOf id s = .error .storeClosed s :=
  bind_error (h.terms_eq hs)

theorem countOf_eq (id : RuleId) : countOf id s = .error .storeClosed s :=
  bind_error (h.termsOf_eq hs id)

theorem objective_eq : objective s = .error .storeClosed s :=
  bind_error (bind_error (h.terms_eq hs))

theorem optimize_eq (d : Descent) (cancelled : Nat → Bool) (passes : Array Pass) :
    d.optimize cancelled ⟨s, passes⟩ = .error .storeClosed ⟨s, passes⟩ :=
  bind_error (Descent.onStore_error (r := ⟨s, passes⟩) (h.beginRun_eq hs))

theorem optimizeWatched_eq (watcher : Nat → σ → σ) (d : Descent) (cancelled : Nat → Bool)
    (passes : Array Pass) :
    d.optimizeWatched watcher cancelled ⟨s, passes⟩ = .error .storeClosed ⟨s, passes⟩ :=
  bind_error (Descent.onStore_error (r := ⟨s, passes⟩) (h.beginRun_eq hs))

end Refused

/-! ## Workers -/

/-- A worker at a store that is shut: it has not been given a term. -/
def IsIdle (w : Worker) : Prop :=
  match w.phase with
  | .ready | .claiming | .finished none => True
  | .failing e | .finished (some e) => e = .storeClosed
  | .inserting _ => False

theorem IsIdle.eq_of_fault? {w : Worker} {e : Fault} (h : IsIdle w) (he : w.fault? = some e) :
    e = .storeClosed := by
  cases hphase : w.phase with
  | failing why => grind [IsIdle, Worker.fault?]
  | finished why => cases why <;> grind [IsIdle, Worker.fault?]
  | _ => simp [Worker.fault?, hphase] at he

/-- Workers at a store that is shut.  Until one of them has failed, no ground rule has been claimed
and none of them is done. -/
structure Idles (s : σ) (c : Crew σ) : Prop where
  store_eq : c.store = s
  idle : ∀ w ∈ c.workers.toList, IsIdle w
  starting : c.Faulty ∨ c.next = 0 ∧ c.failed = false ∧
    ∀ w ∈ c.workers.toList, w.phase = .ready ∨ w.phase = .claiming

/-- The step of an idle worker: it fails, it goes on to claim a ground rule, it is done after a
failure or a claim, or it was done. -/
theorem acts_of_isIdle (h : IsSeal D) (hs : D s) {c c' : Crew σ} {w w' : Worker}
    (hacts : Worker.Acts c w w' c') (hstore : c.store = s) (hrules : 0 < c.rules.size)
    (hw : IsIdle w) :
    c'.store = s ∧ IsIdle w' ∧ ((∃ e, w'.fault? = some e) ∨
      w'.phase = .claiming ∧ c'.next = c.next ∧ c'.failed = c.failed ∨
      (c.failed = true ∨ 0 < c.next) ∨ w' = w ∧ c' = c) := by
  cases hacts with
  | stop _ hfailed => exact ⟨hstore, trivial, .inr (.inr (.inl (.inl hfailed)))⟩
  | start _ _ => exact ⟨hstore, trivial, .inr (.inl ⟨rfl, rfl, rfl⟩)⟩
  | exhaust _ hnext => exact ⟨hstore, trivial, .inr (.inr (.inl (.inr (by omega))))⟩
  | claim _ _ hground =>
    rw [hstore, h.ground_eq hs] at hground
    contradiction
  | refuse _ _ hground =>
    rw [hstore, h.ground_eq hs] at hground
    cases hground
    exact ⟨hstore, rfl, .inl ⟨_, rfl⟩⟩
  | raise hphase =>
    simp only [IsIdle, hphase] at hw
    exact ⟨hstore, hw, .inl ⟨_, rfl⟩⟩
  | rest _ => exact ⟨hstore, hw, .inr (.inr (.inr ⟨rfl, rfl⟩))⟩
  | complete hphase | insert hphase _ | reject hphase _ =>
    simp only [IsIdle, hphase] at hw

theorem Idles.step (h : IsSeal D) (hs : D s) {c : Crew σ} (hrules : 0 < c.rules.size)
    (hc : Idles s c) (i : Nat) : Idles s (c.step i) := by
  cases hi : c.workers[i]? with
  | none => rwa [Crew.step_of_none hi]
  | some w =>
    obtain ⟨before, after, w', c', hworkers, hacts, hstep⟩ := Crew.step_of_some hi
    have hidle := hc.idle
    rw [hworkers, List.forall_mem_append, List.forall_mem_cons] at hidle
    obtain ⟨hstore, hw', hcases⟩ := acts_of_isIdle h hs hacts hc.store_eq hrules hidle.2.1
    refine ⟨by rw [hstep]; exact hstore, ?_, ?_⟩
    · rw [hstep, List.forall_mem_append, List.forall_mem_cons]
      exact ⟨hidle.1, hw', hidle.2.2⟩
    · obtain hfaulty | ⟨hnext, hfailed, hphases⟩ := hc.starting
      · exact .inl (hfaulty.step i)
      · rw [hworkers, List.forall_mem_append, List.forall_mem_cons] at hphases
        obtain ⟨e, he⟩ | ⟨hphase, hnext', hfailed'⟩ | hlate | ⟨rfl, rfl⟩ := hcases
        · exact .inl ⟨w', by rw [hstep]; exact List.mem_append_cons_self, e, he⟩
        · rw [hstep]
          refine .inr ⟨hnext'.trans hnext, hfailed'.trans hfailed, ?_⟩
          rw [List.forall_mem_append, List.forall_mem_cons]
          exact ⟨hphases.1, .inr hphase, hphases.2.2⟩
        · simp [hnext, hfailed] at hlate
        · rw [hstep]
          refine .inr ⟨hnext, hfailed, ?_⟩
          rw [List.forall_mem_append, List.forall_mem_cons]
          exact hphases

/-- **Workers at a store that is shut leave it as it is**, whatever the order of their steps, and
when they are done they have been refused. -/
theorem crew (h : IsSeal D) (hs : D s) {gs : Array (GroundRule Single)} (hgs : 0 < gs.size)
    {n : Nat} (hn : 0 < n) (schedule : List Nat) {c : Crew σ}
    (hc : (Crew.gather s gs n).run schedule = c) :
    c.store = s ∧ (c.isDone = true → c.result = .error .storeClosed) := by
  have hsize : c.workers.size = n := by
    rw [← hc, Crew.size_workers_run]
    exact Array.size_replicate
  have hfresh : ∀ w ∈ (Crew.gather s gs n).workers.toList, w = {} := by
    simp [Crew.gather]
  have hstart : Idles s (Crew.gather s gs n) ∧ 0 < (Crew.gather s gs n).rules.size :=
    ⟨⟨rfl, fun w hw => by rw [hfresh w hw]; trivial,
      .inr ⟨rfl, rfl, fun w hw => by rw [hfresh w hw]; exact .inl rfl⟩⟩, hgs⟩
  obtain ⟨hidles, -⟩ : Idles s c ∧ 0 < c.rules.size := by
    rw [← hc]
    refine Crew.run_keeps (I := fun c => Idles s c ∧ 0 < c.rules.size) (fun c i hc => ?_) hstart
      schedule
    exact ⟨hc.1.step h hs hc.2 i, by rw [Crew.rules_step]; exact hc.2⟩
  refine ⟨hidles.store_eq, fun hdone => ?_⟩
  obtain ⟨hfine, -⟩ | ⟨e, hresult, w, hw, he⟩ := Crew.result_cases hdone
  · obtain ⟨w, hw, e, he⟩ | ⟨-, -, hphases⟩ := hidles.starting
    · rw [hfine w hw] at he
      contradiction
    · -- There is a worker, and it is not done.
      have hfirst : c.workers[0] ∈ c.workers.toList :=
        Array.mem_toList_iff.mpr (Array.getElem_mem _)
      have hfinished := Array.all_eq_true_iff_forall_mem.mp hdone _ (Array.mem_toList_iff.mp hfirst)
      obtain hphase | hphase := hphases _ hfirst <;> simp [Crew.isFinished, hphase] at hfinished
  · rw [hresult, (hidles.idle w hw).eq_of_fault? he]

theorem addAll_eq (h : IsSeal D) (hs : D s) {gs : List (GroundRule Single)} (hgs : gs ≠ [])
    (workers : Nat) : addAll gs workers s = .error .storeClosed s := by
  by_cases hone : crewSize gs.length workers = 1
  · rw [addAll_eq_addInOrder hone, h.addInOrder_eq hs hgs]
  · obtain ⟨schedule, hrun, hdone⟩ :=
      Crew.exists_finish_eq s gs.toArray (crewSize gs.length workers)
    have hpos : 0 < crewSize gs.length workers :=
      Nat.lt_of_lt_of_le Nat.one_pos (Nat.le_max_left ..)
    obtain ⟨hstore, hresult⟩ :=
      h.crew hs (by simpa using List.length_pos_iff.mpr hgs) hpos schedule hrun.symm
    simp only [addAll, hone, ↓reduceIte, hresult hdone, hstore]

/-- Nothing is done for no ground rules. -/
theorem addAll_nil (workers : Nat) (s : σ) : addAll [] workers s = .ok 0 s := by
  rw [addAll_eq_addInOrder (Nat.max_eq_left (Nat.min_le_right ..))]
  rfl

end IsSeal

/-! ## Calls -/

/-- What can be done to a store. -/
inductive StoreCall (σ : Type) where
  | op (op : StoreOp)
  | addAll (gs : List (GroundRule Single)) (workers : Nat)
  | reserve (n : Nat)
  /-- Looks for the generator. -/
  | generator
  | objective
  | optimize (d : Descent) (cancelled : Nat → Bool)
  | optimizeWatched (watcher : Nat → σ → σ) (d : Descent) (cancelled : Nat → Bool)
  /-- Changes the atoms directly. -/
  | atoms (x : EStateM Fault AtomTable Unit)
  | reset
  | sync

namespace StoreCall

variable {σ : Type} [TermStore σ]

/-- A run that starts without passes, as a program of its store. -/
def ofRun {α : Type} (x : EStateM Fault (Run σ) α) : EStateM Fault σ Unit := fun s =>
  match x ⟨s, #[]⟩ with
  | .ok _ r => .ok () r.store
  | .error e r => .error e r.store

def run : StoreCall σ → EStateM Fault σ Unit
  | op o => do let _ ← o.run
  | addAll gs workers => do let _ ← TermStore.addAll gs workers
  | reserve n => TermStore.reserve n
  | generator => fun s => match TermStore.checkOpen s with
    | .ok () => .ok () s
    | .error e => .error e s
  | objective => do let _ ← TermStore.objective
  | optimize d cancelled => ofRun (d.optimize cancelled)
  | optimizeWatched watcher d cancelled => ofRun (d.optimizeWatched watcher cancelled)
  | atoms x => TermStore.onAtoms x
  | reset => modify TermStore.reset
  | sync => do let _ ← TermStore.sync

/-- Whether an operation needs terms or a generator. -/
def needsTerms : StoreCall σ → Bool
  | op (.addAll gs) | addAll gs _ => !gs.isEmpty
  | op .size | op .clear | op .endPass | op .close => false
  | op _ | generator | objective | optimize .. | optimizeWatched .. => true
  | reserve _ | atoms _ | reset | sync => false

/-- What a call does to the table of atoms, if it does something to it directly. -/
def onTable : StoreCall σ → Option (EStateM Fault AtomTable Unit)
  | atoms x => some x
  | reset => some (modify AtomTable.reset)
  | sync => some do let _ ← AtomTable.sync
  | _ => none

/-- The table of atoms after a call. -/
def tableAfter (call : StoreCall σ) (t : AtomTable) : AtomTable :=
  match call.onTable with
  | none => t
  | some x => finalState (x t)

end StoreCall

namespace IsSeal

variable {σ : Type} [TermStore σ] {D : σ → Prop} {s : σ}

/-- **What needs terms is refused**, and leaves the store as it is. -/
theorem run_of_needsTerms (h : IsSeal D) (hs : D s) {call : StoreCall σ}
    (hcall : call.needsTerms = true) : call.run s = .error .storeClosed s := by
  cases call with
  | op o =>
    cases o with
    | insert t => exact bind_error (bind_error (h.insert_eq t hs))
    | add g => exact bind_error (bind_error (h.add_eq hs g))
    | addAll gs =>
      have hgs : gs ≠ [] := by simpa [StoreCall.needsTerms] using hcall
      exact bind_error (bind_error (h.addAll_eq hs hgs 1))
    | termAt i => exact bind_error (bind_error (h.termAt_eq i hs))
    | terms => exact bind_error (bind_error (h.terms_eq hs))
    | sweep => exact bind_error (bind_error (h.terms_eq hs))
    | termsOf id => exact bind_error (bind_error (h.termsOf_eq hs id))
    | countOf id => exact bind_error (bind_error (h.countOf_eq hs id))
    | beginRun => exact bind_error (bind_error (h.beginRun_eq hs))
    | size | clear | endPass | close => contradiction
  | addAll gs workers =>
    have hgs : gs ≠ [] := by simpa [StoreCall.needsTerms] using hcall
    exact bind_error (h.addAll_eq hs hgs workers)
  | generator => simp [StoreCall.run, checkOpen, h.generator_eq hs]
  | objective => exact bind_error (h.objective_eq hs)
  | optimize d cancelled =>
    simp only [StoreCall.run, StoreCall.ofRun, h.optimize_eq hs]
  | optimizeWatched watcher d cancelled =>
    simp only [StoreCall.run, StoreCall.ofRun, h.optimizeWatched_eq hs]
  | reserve _ | atoms _ | reset | sync => contradiction

/-- **A call leaves a closed store closed**, and does to its atoms what it does to them directly. -/
theorem finalState_run [LawfulTermStore σ] (h : IsSeal D) (hs : D s) (call : StoreCall σ) :
    D (finalState (call.run s)) ∧ atoms (finalState (call.run s)) = call.tableAfter (atoms s) := by
  have hkept (call : StoreCall σ) (hcall : call.onTable = none)
      (hrun : finalState (call.run s) = s) :
      D (finalState (call.run s)) ∧
        atoms (finalState (call.run s)) = call.tableAfter (atoms s) := by
    rw [hrun, StoreCall.tableAfter, hcall]
    exact ⟨hs, rfl⟩
  cases hcall : call.needsTerms with
  | true =>
    have htable : call.onTable = none := by cases call <;> first | rfl | contradiction
    exact hkept call htable (by rw [h.run_of_needsTerms hs hcall]; rfl)
  | false =>
    cases call with
    | op o =>
      cases o with
      | addAll gs =>
        obtain rfl : gs = [] := by simpa [StoreCall.needsTerms] using hcall
        exact hkept _ rfl (by simp only [StoreCall.run, StoreOp.run, finalState_map, addAll_nil,
          finalState_ok])
      | size => exact hkept _ rfl rfl
      | clear =>
        exact hkept _ rfl (by simp only [StoreCall.run, StoreOp.run, finalState_map, h.clear_eq hs,
          finalState_ok])
      | endPass => exact ⟨h.endPass hs, LawfulTermStore.atoms_endPass s⟩
      | close =>
        exact hkept _ rfl (by simp only [StoreCall.run, StoreOp.run, finalState_map, h.close_eq hs,
          finalState_ok])
      | _ => contradiction
    | addAll gs workers =>
      obtain rfl : gs = [] := by simpa [StoreCall.needsTerms] using hcall
      exact hkept _ rfl (by simp only [StoreCall.run, finalState_map, addAll_nil, finalState_ok])
    | reserve n => exact hkept _ rfl (h.reserve_eq n hs)
    | atoms x =>
      rw [StoreCall.run, finalState_onAtoms]
      exact ⟨h.withAtoms _ hs, LawfulTermStore.atoms_withAtoms _ s⟩
    | reset => exact ⟨h.withAtoms _ hs, LawfulTermStore.atoms_withAtoms _ s⟩
    | sync =>
      rw [StoreCall.run, finalState_map, sync, finalState_onAtoms]
      refine ⟨h.withAtoms _ hs, (LawfulTermStore.atoms_withAtoms _ s).trans ?_⟩
      exact (finalState_map AtomTable.sync _ _).symm
    | _ => contradiction

/-- The seal is kept by a sequence of calls. -/
theorem stateAfter [LawfulTermStore σ] (h : IsSeal D) (hs : D s) (calls : List (StoreCall σ)) :
    D (HingeLoss.stateAfter StoreCall.run calls s) :=
  Keeps.stateAfter (I := D)
    (fun call _ => .of_finalState fun _ hs => (h.finalState_run hs call).1) hs

/-- The atoms behind a sequence of calls are what the calls have done to them directly. -/
theorem atoms_stateAfter [LawfulTermStore σ] (h : IsSeal D) (hs : D s)
    (calls : List (StoreCall σ)) : atoms (HingeLoss.stateAfter StoreCall.run calls s) =
      calls.foldl (fun t call => call.tableAfter t) (atoms s) := by
  induction calls generalizing s with
  | nil => rfl
  | cons call calls ih =>
    obtain ⟨hs', hatoms⟩ := h.finalState_run hs call
    rw [stateAfter_cons, ih hs', hatoms, List.foldl_cons]

end IsSeal

/-! ## Closed for good -/

/-- What a store `s` has come to that was left `closed` before the calls. -/
structure StaysClosed {σ : Type} [TermStore σ] (closed : σ) (calls : List (StoreCall σ)) (s : σ) :
    Prop where
  isClosed_eq : isClosed s = true
  size_eq : size s = 0
  refuses : ∀ call : StoreCall σ, call.needsTerms = true → call.run s = .error .storeClosed s
  /-- Workers are refused in any order of their steps. -/
  crew : ∀ (gs : Array (GroundRule Single)) (n : Nat) (schedule : List Nat) (c : Crew σ),
    0 < gs.size → 0 < n → (Crew.gather s gs n).run schedule = c →
      c.store = s ∧ (c.isDone = true → c.result = .error .storeClosed)
  /-- No call has changed the atoms but those that are made to. -/
  atoms_eq : atoms s = calls.foldl (fun t call => call.tableAfter t) (atoms closed)

theorem IsSeal.staysClosed {σ : Type} [TermStore σ] [LawfulTermStore σ] {D : σ → Prop} {s : σ}
    (h : IsSeal D) (hs : D s) (calls : List (StoreCall σ)) :
    StaysClosed s calls (HingeLoss.stateAfter StoreCall.run calls s) where
  isClosed_eq := h.isClosed_eq (h.stateAfter hs calls)
  size_eq := h.size_eq (h.stateAfter hs calls)
  refuses _ hcall := h.run_of_needsTerms (h.stateAfter hs calls) hcall
  crew _ _ schedule _ hgs hn hc := h.crew (h.stateAfter hs calls) hgs hn schedule hc
  atoms_eq := h.atoms_stateAfter hs calls

/-- **A store that has been closed stays closed and empty**, whether or not all its pages could be
removed, and no page is written or removed again. -/
theorem closed_for_good :
    (∀ (m : MemoryStore) (calls : List (StoreCall MemoryStore)),
      let closed := finalState (close m)
      let s := stateAfter StoreCall.run calls closed
      StaysClosed closed calls s ∧ s.terms = #[]) ∧
    ∀ (p : PagedStore) (calls : List (StoreCall PagedStore)),
      let closed := finalState (close p)
      let s := stateAfter StoreCall.run calls closed
      StaysClosed closed calls s ∧ s.pages = #[] ∧ s.buffer = #[] ∧ s.directory = closed.directory ∧
        ∀ count, PagedStore.listSome count s = .error .storeClosed s := by
  refine ⟨fun m calls => ?_, fun p calls => ?_⟩
  · have hclosed := m.isShut_close
    exact ⟨MemoryStore.isSeal_isShut.staysClosed hclosed calls,
      (MemoryStore.isSeal_isShut.stateAfter hclosed calls).terms_eq⟩
  · have hclosed := p.isShut_close
    have hseal := PagedStore.isSeal_isShut (finalState (close p)).directory
    obtain ⟨hshut, hdirectory⟩ := hseal.stateAfter ⟨hclosed, rfl⟩ calls
    exact ⟨hseal.staysClosed ⟨hclosed, rfl⟩ calls, hshut.pages_eq, hshut.buffer_eq, hdirectory,
      fun _ => bind_error hshut.prepare_eq⟩

end HingeLoss

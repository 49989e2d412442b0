import HingeLoss.Proofs.Descent.Agreement
import HingeLoss.Proofs.Descent.Serving
import HingeLoss.Proofs.Descent.Writes
import HingeLoss.Proofs.Store.Stored

/-!
# HingeLoss.Proofs.Descent.Repeating

What a run depends on that follows a reset.

A `Problem` is what stays of a store however it is run and its values are moved: the stored terms,
the kinds and the initial values of the atoms, and whether the store is closed.  A run on a store
that has been reset comes to what a run on its problem alone comes to, so it comes to the same each
time.

1. Runs, writes, commits and resets leave the problem as it is (`MemoryStore.isKept_afterAll`).
2. Up to the last commit, a run reads kinds and values of the atoms only, and the values are the
   initial ones after a reset (`MemoryStore.Alike`).
3. A paged store that shuffles nothing, on a calm disk, is run as a store in memory
   (`Mirrors.simulation`), however its terms have been cut into pages.

What was committed before only shows in the change that a report tells, and what a place holds only
in a saving that fails.
-/

namespace HingeLoss

/-! ## Problems -/

/-- What a run works on. -/
structure Problem where
  terms : Array (Term Single)
  /-- The kind and the initial value of each atom. -/
  stock : Array (AtomKind × Single)
  size_le : stock.size ≤ AtomTable.maxIndex + 1
  isClosed : Bool

namespace Problem

/-- A table of atoms that are where they began, and are saved nowhere. -/
def table (q : Problem) : AtomTable where
  atoms := q.stock.map fun a => ⟨a.1, a.2, a.2⟩
  values := q.stock.map (·.2)
  size_values := by simp
  size_le := by simpa using q.size_le

/-- A store with the terms and the atoms of a problem. -/
def store (q : Problem) : MemoryStore where
  terms := q.terms
  generator := if q.isClosed then none else some {}
  closed := q.isClosed
  closed_eq := by cases q.isClosed <;> rfl
  atoms := q.table

end Problem

theorem AtomTable.size_stock_le (t : AtomTable) : t.stock.size ≤ AtomTable.maxIndex + 1 := by
  rw [t.size_stock]
  exact t.size_le

def MemoryStore.problem (m : MemoryStore) : Problem where
  terms := m.terms
  stock := m.atoms.stock
  size_le := m.atoms.size_stock_le
  isClosed := m.generator.isNone

def PagedStore.problem (s : PagedStore) : Problem where
  terms := s.stored.toArray
  stock := s.atoms.stock
  size_le := s.atoms.size_stock_le
  isClosed := s.generator.isNone

/-! ## Outcomes -/

/-- What a run comes to. -/
structure Outcome where
  /-- What is reported, without the change since the last commit. -/
  answer : Except Fault Report
  values : Array Single
  passes : Array Pass

namespace Outcome

/-- What is seen of the way a run has ended. -/
def ofResult {σ : Type} [TermStore σ] : EStateM.Result Fault (Run σ) Report → Outcome
  | .ok report r => ⟨.ok { report with change := 0 }, (TermStore.atoms r.store).values, r.passes⟩
  | .error e r => ⟨.error e, (TermStore.atoms r.store).values, r.passes⟩

/-- The same outcome, but that the values could not be saved at the end, which takes a place. -/
structure Matches (placed : Bool) (a b : Outcome) : Prop where
  values_eq : a.values = b.values
  passes_eq : a.passes = b.passes
  answer_eq : a.answer = b.answer ∨ placed = true ∧ ∃ f, a.answer = .error (.file f)

theorem Matches.eq {a b : Outcome} (h : Matches false a b) : a = b := by
  obtain ⟨answer, values, passes⟩ := a
  obtain ⟨answer', values', passes'⟩ := b
  obtain ⟨rfl, rfl, hanswer | ⟨hplaced, _⟩⟩ := h
  · exact congrArg (Outcome.mk · values passes) hanswer
  · contradiction

/-- Programs match whose first parts agree and whose second parts match from there. -/
theorem Matches.bind {σ τ α : Type} [TermStore σ] [TermStore τ] {placed : Bool}
    {R : σ → τ → Prop} {x : EStateM Fault (Run σ) α} {y : EStateM Fault (Run τ) α}
    {f : α → EStateM Fault (Run σ) Report} {g : α → EStateM Fault (Run τ) Report} {r : Run σ}
    {r' : Run τ} (hvalues : ∀ s t, R s t → (TermStore.atoms s).values = (TermStore.atoms t).values)
    (hxy : Agree (Run.Related R) (x r) (y r'))
    (hfg : ∀ a s t, Run.Related R s t → Matches placed (ofResult (f a s)) (ofResult (g a t))) :
    Matches placed (ofResult ((x >>= f) r)) (ofResult ((y >>= g) r')) := by
  cases hx : x r with
  | ok a s =>
    cases hy : y r' with
    | ok b t =>
      rw [hx, hy] at hxy
      obtain ⟨rfl, hR⟩ := hxy
      rw [bind_ok hx, bind_ok hy]
      exact hfg a s t hR
    | error e t => rw [hx, hy] at hxy; exact hxy.elim
  | error e s =>
    cases hy : y r' with
    | ok b t => rw [hx, hy] at hxy; exact hxy.elim
    | error e' t =>
      rw [hx, hy] at hxy
      obtain ⟨rfl, hR⟩ := hxy
      rw [bind_error hx, bind_error hy]
      exact ⟨hvalues _ _ hR.1, hR.2, .inl rfl⟩

end Outcome

namespace Descent

/-- What a run on a store comes to. -/
def outcome {σ : Type} [TermStore σ] (d : Descent) (cancelled : Nat → Bool) (s : σ) : Outcome :=
  .ofResult (d.optimize cancelled ⟨s, #[]⟩)

/-- What a run on a problem comes to. -/
def solution (d : Descent) (cancelled : Nat → Bool) (q : Problem) : Outcome :=
  d.outcome cancelled q.store

end Descent

/-! ## Stores that are run alike -/

/-- Stores in memory that a run cannot tell apart before it commits, the second of which is saved
nowhere. -/
structure MemoryStore.Alike (placed : Bool) (m m' : MemoryStore) : Prop where
  terms_eq : m.terms = m'.terms
  isNone_eq : m.generator.isNone = m'.generator.isNone
  shuffler_eq : m.shuffler = none
  shuffler_eq' : m'.shuffler = none
  kinds_eq : m.atoms.kinds = m'.atoms.kinds
  values_eq : m.atoms.values = m'.atoms.values
  isSome_place : m.atoms.place.isSome = placed
  place_eq : m'.atoms.place = none

namespace MemoryStore.Alike

open Descent

variable {placed : Bool} {m m' : MemoryStore} {d : Descent} {cancelled : Nat → Bool}

theorem size_eq (h : Alike placed m m') : m.atoms.atoms.size = m'.atoms.atoms.size := by
  rw [← m.atoms.size_values, ← m'.atoms.size_values, h.values_eq]

theorem checkOpen_eq (h : Alike placed m m') : m.checkOpen = m'.checkOpen := by
  unfold checkOpen
  rw [m.closed_eq, m'.closed_eq, h.isNone_eq]

theorem simulates_beginRun : Simulates (Alike placed) beginRun beginRun := by
  intro m m' h
  unfold beginRun
  rw [h.checkOpen_eq, h.shuffler_eq, h.shuffler_eq']
  cases m'.checkOpen <;> exact ⟨rfl, h⟩

theorem simulates_listTerms : Simulates (Alike placed) listTerms listTerms := by
  intro m m' h
  unfold listTerms
  rw [h.checkOpen_eq, h.terms_eq]
  cases m'.checkOpen <;> exact ⟨rfl, h⟩

theorem simulates_setValues (values : Array Single) :
    Simulates (Alike placed) (TermStore.onAtoms (σ := MemoryStore) (AtomTable.setValues values))
      (TermStore.onAtoms (AtomTable.setValues values)) := by
  intro m m' h
  have hsame : m.atoms.atoms.size = m'.atoms.atoms.size := h.size_eq
  by_cases hsize : values.size = m.atoms.atoms.size
  · rw [onAtoms_ok (s := m) (AtomTable.setValues_ok hsize),
      onAtoms_ok (s := m') (AtomTable.setValues_ok (hsize.trans hsame))]
    exact ⟨rfl, h.terms_eq, h.isNone_eq, h.shuffler_eq, h.shuffler_eq', h.kinds_eq, rfl,
      h.isSome_place, h.place_eq⟩
  · have hsize' : values.size ≠ m'.atoms.atoms.size := hsame ▸ hsize
    have hset : AtomTable.setValues values m.atoms =
        .error (.outOfBounds values.size m.atoms.size) m.atoms := dif_neg hsize
    have hset' : AtomTable.setValues values m'.atoms =
        .error (.outOfBounds values.size m'.atoms.size) m'.atoms := dif_neg hsize'
    rw [onAtoms_error (s := m) hset, onAtoms_error (s := m') hset']
    exact ⟨congrArg (Fault.outOfBounds values.size) hsame, h⟩

/-- What follows a look at the atoms may rely on the kinds and the values being the same. -/
theorem simulates_atoms_bind {α : Type} {f g : AtomTable → EStateM Fault (Run MemoryStore) α}
    (hfg : ∀ t t', t.kinds = t'.kinds → t.values = t'.values →
      Simulates (Run.Related (Alike placed)) (f t) (g t')) :
    Simulates (Run.Related (Alike placed)) (Descent.atoms >>= f) (Descent.atoms >>= g) :=
  fun r r' hr => hfg r.store.atoms r'.store.atoms hr.1.kinds_eq hr.1.values_eq r r' hr

theorem simulates_sweepStore (c : PassContext) (start : Array Single → PassState) :
    Simulates (Run.Related (Alike placed)) (sweepStore c start) (sweepStore c start) := by
  refine (simulates_onStore simulates_listTerms).bind fun items =>
    simulates_atoms_bind fun t t' _ hvalues => ?_
  rw [hvalues]
  split
  · exact (simulates_onStore (simulates_setValues _)).bind fun _ => Simulates.pure _
  · exact (simulates_onStore (simulates_setValues _)).bind fun _ => Simulates.throw _

theorem simulates_evaluate :
    Simulates (Alike placed) (TermStore.evaluate (σ := MemoryStore)) TermStore.evaluate := by
  refine simulates_listTerms.bind fun items m m' h => ?_
  have hvalues : (TermStore.atoms m).values = (TermStore.atoms m').values := h.values_eq
  rw [bind_ok (get_apply m), bind_ok (get_apply m'), hvalues]
  cases Evaluation.ofListing (TermStore.atoms m').values items <;> exact ⟨rfl, h⟩

/-- A commit changes no value, and fails only where a table is saved. -/
theorem matches_sync (report : Report) {r r' : Run MemoryStore}
    (hr : Run.Related (Alike placed) r r') :
    Outcome.Matches placed
      (.ofResult ((onStore TermStore.sync >>= fun change => pure { report with change }) r))
      (.ofResult ((onStore TermStore.sync >>= fun change => pure { report with change }) r')) := by
  have hsync' : onStore TermStore.sync r' = .ok r'.store.atoms.change
      { r' with store := { r'.store with atoms := r'.store.atoms.commit } } :=
    onStore_ok (onAtoms_ok (s := r'.store) (AtomTable.sync_of_place_none hr.1.place_eq))
  rw [bind_ok hsync']
  cases hsync : AtomTable.sync r.store.atoms with
  | ok change t =>
    have hrun : onStore TermStore.sync r =
        .ok change { r with store := { r.store with atoms := t } } :=
      onStore_ok (onAtoms_ok (s := r.store) hsync)
    rw [bind_ok hrun]
    exact ⟨(AtomTable.sync_eq_ok hsync).1.trans hr.1.values_eq, hr.2, .inl rfl⟩
  | error e t =>
    have hrun : onStore TermStore.sync r =
        .error e { r with store := { r.store with atoms := t } } :=
      onStore_error (onAtoms_error (s := r.store) hsync)
    rw [bind_error hrun]
    obtain ⟨_, _, f, hplace, rfl, rfl, _⟩ := AtomTable.exists_save_of_sync_error hsync
    refine ⟨hr.1.values_eq, hr.2, .inr ⟨?_, f, rfl⟩⟩
    rw [← hr.1.isSome_place, hplace]
    rfl

theorem matches_settle (iterations : Nat) (p : Progress) {r r' : Run MemoryStore}
    (hr : Run.Related (Alike placed) r r') :
    Outcome.Matches placed (.ofResult (settle iterations p r))
      (.ofResult (settle iterations p r')) := by
  have hvalues (m m' : MemoryStore) (h : Alike placed m m') :
      (TermStore.atoms m).values = (TermStore.atoms m').values := h.values_eq
  refine .bind hvalues (simulates_onStore simulates_evaluate r r' hr) fun last s t hst => ?_
  have hbest : (TermStore.atoms s.store).values = (TermStore.atoms t.store).values :=
    hst.1.values_eq
  rw [bind_ok (show Descent.atoms s = .ok (TermStore.atoms s.store) s from rfl),
    bind_ok (show Descent.atoms t = .ok (TermStore.atoms t.store) t from rfl), hbest]
  generalize p.best.offer last.objective iterations (TermStore.atoms t.store).values = best
  refine .bind hvalues (simulates_onStore (simulates_setValues _) s t hst) fun _ u v huv => ?_
  exact matches_sync ⟨best.objective, iterations, best.iteration, p.termCount, 0, last.violated⟩ huv

/-- Runs on such stores come to the same, but that the first may not be saved. -/
theorem matches_outcome (h : Alike placed m m') (d : Descent) (cancelled : Nat → Bool) :
    Outcome.Matches placed (d.outcome cancelled m) (d.outcome cancelled m') := by
  have hvalues (m m' : MemoryStore) (h : Alike placed m m') :
      (TermStore.atoms m).values = (TermStore.atoms m').values := h.values_eq
  refine .bind hvalues (simulates_onStore simulates_beginRun _ _ ⟨h, rfl⟩) fun _ r r' hr => ?_
  have hkinds : (TermStore.atoms r.store).kinds = (TermStore.atoms r'.store).kinds := hr.1.kinds_eq
  rw [bind_ok (show Descent.atoms r = .ok (TermStore.atoms r.store) r from rfl),
    bind_ok (show Descent.atoms r' = .ok (TermStore.atoms r'.store) r' from rfl), hkinds]
  generalize (TermStore.atoms r'.store).kinds = kinds
  have hpass (n : Nat) (p : Progress) : Simulates (Run.Related (Alike placed))
      (pass (σ := MemoryStore) d.options kinds n p) (pass d.options kinds n p) :=
    simulates_pass simulates_sweepStore fun h => h
  refine .bind hvalues (simulates_passesFrom hpass cancelled (maxPasses d.options) r r' hr)
    fun q s t hst => matches_settle q.1 q.2 hst

end MemoryStore.Alike

/-! ## Between runs -/

/-- What may happen to a store before it is reset and run. -/
inductive StoreUse where
  /-- A run, which may be cancelled. -/
  | optimize (d : Descent) (cancelled : Nat → Bool)
  /-- An atom gets another present value. -/
  | write (v : Variable) (value : Single)
  | sync
  | reset

namespace StoreUse

variable {σ τ : Type} [TermStore σ] [TermStore τ]

/-- The store that a use leaves, whether it succeeds or fails. -/
def after (s : σ) : StoreUse → σ
  | optimize d cancelled => (finalState (d.optimize cancelled ⟨s, #[]⟩)).store
  | write v value => finalState (TermStore.onAtoms (AtomTable.setValue v value) s)
  | sync => finalState (TermStore.sync s)
  | reset => TermStore.reset s

def afterAll (us : List StoreUse) (s : σ) : σ := us.foldl after s

variable {admits : Term Single → Prop} {R : σ → τ → Prop} {s : σ} {t : τ}

theorem related_reset (h : StoreSimulation admits R) (hst : R s t) :
    R (TermStore.reset s) (TermStore.reset t) := by
  unfold TermStore.reset
  rw [← h.atoms_eq hst]
  exact h.withAtoms _ hst rfl

/-- Related stores stay related. -/
theorem related_after (h : StoreSimulation admits R) (u : StoreUse) (hst : R s t) :
    R (after s u) (after t u) := by
  cases u with
  | optimize d cancelled =>
    exact (Descent.simulates_optimize h d cancelled ⟨s, #[]⟩ ⟨t, #[]⟩ ⟨hst, rfl⟩).finalState.1
  | write v value =>
    have hwrite (n : Nat) := AtomTable.keeps_setValue (I := fun t => t.size = n) v value
      fun _ _ ht => ht
    exact (h.onAtoms hwrite s t hst).finalState
  | sync => exact (h.onAtoms AtomTable.keeps_size_sync s t hst).finalState
  | reset => exact related_reset h hst

theorem related_afterAll (h : StoreSimulation admits R) (us : List StoreUse) (hst : R s t) :
    R (afterAll us s) (afterAll us t) := by
  induction us generalizing s t with
  | nil => exact hst
  | cons u us ih => exact ih (related_after h u hst)

end StoreUse

namespace MemoryStore

/-- A store with the same problem, which is not shuffled. -/
structure IsKept (m m' : MemoryStore) : Prop where
  problem_eq : m'.problem = m.problem
  shuffler_eq : m'.shuffler = none
  isSome_place : m'.atoms.place.isSome = m.atoms.place.isSome

variable {m m' : MemoryStore}

/-- The values and what is committed do not matter. -/
theorem IsKept.withAtoms (h : m.IsKept m') {t : AtomTable} (hstock : t.stock = m.atoms.stock)
    (hplace : t.place.isSome = m.atoms.place.isSome) : m.IsKept { m' with atoms := t } where
  problem_eq := by
    rw [← h.problem_eq]
    have hsame := congrArg Problem.stock h.problem_eq
    simp only [problem] at hsame ⊢
    simp only [hsame, hstock]
  shuffler_eq := h.shuffler_eq
  isSome_place := hplace

/-- What keeps the stock of atoms and their place keeps the problem. -/
theorem keeps_isKept_onAtoms {α : Type} {op : EStateM Fault AtomTable α}
    (hop : Preserves (fun t : AtomTable => t.stock = m.atoms.stock ∧
      t.place.isSome = m.atoms.place.isSome) op) :
    Preserves m.IsKept (TermStore.onAtoms op) := by
  refine .of_finalState fun m' h => ?_
  have hstock : m'.atoms.stock = m.atoms.stock := congrArg Problem.stock h.problem_eq
  have hafter := hop.finalState (s := m'.atoms) ⟨hstock, h.isSome_place⟩
  cases hrun : op m'.atoms with
  | ok a t =>
    rw [hrun] at hafter
    rw [Descent.onAtoms_ok (s := m') hrun]
    exact h.withAtoms hafter.1 hafter.2
  | error e t =>
    rw [hrun] at hafter
    rw [Descent.onAtoms_error (s := m') hrun]
    exact h.withAtoms hafter.1 hafter.2

theorem keeps_isKept_sync : Preserves m.IsKept TermStore.sync :=
  keeps_isKept_onAtoms <| AtomTable.keeps_sync (fun t ht => ⟨t.stock_commit.trans ht.1, ht.2⟩)
    fun _ _ hplace ht => ⟨ht.1, hplace.symm.trans ht.2⟩

theorem keeps_isKept_beginRun : Preserves m.IsKept beginRun := by
  refine .of_finalState fun m' h => ?_
  unfold beginRun
  rw [h.shuffler_eq]
  cases m'.checkOpen <;> exact h

theorem isKept_after (h : m.IsKept m') (u : StoreUse) : m.IsKept (StoreUse.after m' u) := by
  cases u with
  | optimize d cancelled =>
    refine (Descent.keeps_optimize_of_setValues keeps_isKept_beginRun keeps_listTerms
      (fun values => keeps_isKept_onAtoms ?_) keeps_isKept_sync (fun _ hs => hs) d).finalState
      (s := ⟨m', #[]⟩) h
    exact AtomTable.keeps_setValues fun _ _ ht => ht
  | write v value =>
    refine (keeps_isKept_onAtoms ?_).finalState h
    exact AtomTable.keeps_setValue v value fun _ _ ht => ht
  | sync => exact keeps_isKept_sync.finalState h
  | reset =>
    have hstock : m'.atoms.stock = m.atoms.stock := congrArg Problem.stock h.problem_eq
    exact h.withAtoms hstock h.isSome_place

/-- **The problem of a store stays as it is**, however it is run and its values are moved. -/
theorem isKept_afterAll (h : m.IsKept m') (us : List StoreUse) :
    m.IsKept (StoreUse.afterAll us m') := by
  induction us generalizing m' with
  | nil => exact h
  | cons u us ih => exact ih (isKept_after h u)

/-- A store that has been reset is run like its problem. -/
theorem IsKept.alike_reset (h : m.IsKept m') :
    Alike m.atoms.place.isSome (TermStore.reset m') m.problem.store := by
  rw [← h.problem_eq, ← h.isSome_place]
  refine ⟨rfl, ?_, h.shuffler_eq, rfl, ?_, ?_, rfl, rfl⟩
  · change m'.generator.isNone = m'.problem.store.generator.isNone
    unfold problem Problem.store
    cases m'.generator.isNone <;> rfl
  · change m'.atoms.kinds = (m'.atoms.stock.map fun a => (⟨a.1, a.2, a.2⟩ : Atom)).map (·.kind)
    rw [m'.atoms.kinds_eq, Array.map_map]
    rfl
  · change m'.atoms.atoms.map (·.initial) = m'.atoms.stock.map (·.2)
    rw [AtomTable.stock, Array.map_map]
    rfl

end MemoryStore

/-! ## Paged stores that shuffle nothing -/

/-- Whether an operation inserts no term that is too long. -/
def StoreOp.IsSized : StoreOp → Prop
  | insert t => t.size ≤ Term.maxSize
  | _ => True

/-- The states that a paged store comes to that shuffles nothing, on a calm disk. -/
inductive PagedStore.InPlainUse : PagedStore → Prop
  | create {options : PagingOptions} {rules : Registry} {generator : Generator} {atoms : AtomTable}
      {directory : PageDirectory} {s : PagedStore} : options.randomizePageAccess = false →
      options.shufflePage = false → directory.IsCalm →
      PagedStore.create options rules generator atoms directory = .ok s → InPlainUse s
  | op {s : PagedStore} (op : StoreOp) : op.IsSized → InPlainUse s →
      InPlainUse (finalState (op.run s))
  /-- Atoms come in, and all of them get other values, are taken back or are saved. -/
  | atoms {s : PagedStore} {table : AtomTable} : s.atoms.size ≤ table.size → InPlainUse s →
      InPlainUse { s with atoms := table }
  | optimize {s : PagedStore} (d : Descent) (cancelled : Nat → Bool) (passes : Array Pass) :
      InPlainUse s → InPlainUse (finalState (d.optimize cancelled ⟨s, passes⟩)).store

/-- A paged store that mirrors some store in memory. -/
def PagedStore.IsMirrored (rules : Registry) (p : PagedStore) : Prop := ∃ m, Mirrors rules p m

namespace Mirrors

variable {rules : Registry} {p : PagedStore} {m : MemoryStore}

/-- A term of a rule that the registry does not have is refused. -/
theorem keeps_isMirrored_insert {t : Term Single} (hsize : t.size ≤ Term.maxSize) :
    Preserves (PagedStore.IsMirrored rules) (PagedStore.insert t) := by
  refine .of_finalState fun p hp => ?_
  obtain ⟨m, h⟩ := hp
  by_cases howns : rules.owns t.rule = true
  · exact ⟨_, (simulates_insert ⟨howns, hsize⟩ p m h).finalState⟩
  · obtain ⟨e, hinsert⟩ : ∃ e, PagedStore.insert t p = .error e p := by
      obtain ⟨e, _, hinsert⟩ | ⟨hcheck, _⟩ := PagedStore.insert_eq p t
      · exact ⟨e, hinsert⟩
      · rw [← h.rules_eq] at howns
        exact absurd (PagedStore.checkInsert_eq_ok hcheck).1 howns
    rw [hinsert]
    exact ⟨m, h⟩

theorem keeps_isMirrored_run {op : StoreOp} (hop : op.IsSized) :
    Preserves (PagedStore.IsMirrored rules)
      (op.run : EStateM Fault PagedStore StoreAnswer) := by
  have hadd (g : GroundRule Single) : Preserves (PagedStore.IsMirrored rules)
      (TermStore.add g : EStateM Fault PagedStore Nat) :=
    TermStore.keeps_add fun t _ hsize => keeps_isMirrored_insert hsize
  have hother {op : StoreOp} (hop : op.Admitted rules.Admits) :
      Preserves (PagedStore.IsMirrored rules)
        (op.run : EStateM Fault PagedStore StoreAnswer) := by
    refine .of_finalState fun p hp => ?_
    obtain ⟨m, h⟩ := hp
    exact ⟨_, (StoreOp.simulates_run (simulation rules) op hop p m h).finalState⟩
  cases op with
  | insert t => exact (keeps_isMirrored_insert hop).bind fun _ _ => Keeps.pure trivial
  | add g => exact (hadd g).bind fun _ _ => Keeps.pure trivial
  | addAll gs =>
    simp only [StoreOp.run, StoreSimulation.addAll_one]
    exact (TermStore.keeps_addInOrder fun g _ => hadd g).bind fun _ _ => Keeps.pure trivial
  | _ => exact hother trivial

theorem problem_eq (h : Mirrors rules p m) : p.problem = m.problem := by
  obtain ⟨flushed, opened, hholds, hterms⟩ := h.content
  have hstored : p.stored = m.terms.toList := by
    rw [← hterms]
    refine hholds.stored_eq ?_
    rw [hterms, h.rules_eq, h.atoms_eq]
    exact h.readable
  simp only [PagedStore.problem, MemoryStore.problem, hstored, h.atoms_eq, h.generator_eq]

theorem outcome_eq (h : Mirrors rules p m) (d : Descent) (cancelled : Nat → Bool) :
    d.outcome cancelled p = d.outcome cancelled m := by
  have hagree := Descent.simulates_optimize (simulation rules) d cancelled ⟨p, #[]⟩ ⟨m, #[]⟩
    ⟨h, rfl⟩
  unfold Descent.outcome
  cases hx : d.optimize cancelled ⟨p, #[]⟩ <;> cases hy : d.optimize cancelled ⟨m, #[]⟩ <;>
    rw [hx, hy] at hagree
  · obtain ⟨rfl, hmirrors, hpasses⟩ := hagree
    simp only [Outcome.ofResult, hpasses, (simulation rules).atoms_eq hmirrors]
  · exact hagree.elim
  · exact hagree.elim
  · obtain ⟨rfl, hmirrors, hpasses⟩ := hagree
    simp only [Outcome.ofResult, hpasses, (simulation rules).atoms_eq hmirrors]

end Mirrors

/-- However it is used, such a store mirrors a store in memory. -/
theorem PagedStore.InPlainUse.isMirrored {s : PagedStore} (h : s.InPlainUse) :
    ∃ rules, s.IsMirrored rules := by
  induction h with
  | create hpages hterms hcalm hcreate =>
    obtain ⟨_, hcheck, _⟩ := except_bind_eq_ok hcreate
    obtain ⟨s, hs, hm⟩ := Mirrors.of_create (PagingOptions.check_eq_ok_iff.mp hcheck) hpages hterms
      hcalm
    obtain rfl := Except.ok.inj (hs.symm.trans hcreate)
    exact ⟨_, _, hm⟩
  | op op hsized _ ih =>
    obtain ⟨rules, hm⟩ := ih
    exact ⟨rules, (Mirrors.keeps_isMirrored_run hsized).finalState hm⟩
  | atoms hsize _ ih =>
    obtain ⟨rules, m, hm⟩ := ih
    exact ⟨rules, _, hm.grow hsize⟩
  | optimize d cancelled passes _ ih =>
    obtain ⟨rules, m, hm⟩ := ih
    exact ⟨rules, _, (Descent.simulates_optimize (Mirrors.simulation rules) d cancelled ⟨_, passes⟩
      ⟨_, passes⟩ ⟨hm, rfl⟩).finalState.1⟩

/-! ## Runs that are repeated -/

/-- However a store is used, once it has been reset, a run comes to what it comes to on a problem;
and if the problem is open and the run is not cancelled, that is a report. -/
structure RunsAs {σ : Type} [TermStore σ] (s : σ) (q : Problem) : Prop where
  matches_solution : ∀ (us : List StoreUse) (d : Descent) (cancelled : Nat → Bool),
    (d.outcome cancelled (TermStore.reset (StoreUse.afterAll us s))).Matches
      (TermStore.atoms s).place.isSome (d.solution cancelled q)
  exists_report : q.isClosed = false → ∀ (d : Descent) (cancelled : Nat → Bool),
    (∀ i, cancelled i = false) → ∃ report, (d.solution cancelled q).answer = .ok report

theorem MemoryStore.runsAs {m : MemoryStore} (hm : m.IsKnowing) (hshuffler : m.shuffler = none) :
    RunsAs m m.problem where
  matches_solution us d cancelled := by
    have hkept : m.IsKept m := ⟨rfl, hshuffler, rfl⟩
    exact (isKept_afterAll hkept us).alike_reset.matches_outcome d cancelled
  exists_report hopen d cancelled hcancelled := by
    have hready : m.problem.store.IsReady m.atoms.size false := by
      refine ⟨(Array.size_map ..).trans m.atoms.size_stock, rfl, ?_, rfl, hm⟩
      simp [Problem.store, hopen]
    obtain ⟨report, r, hrun⟩ | ⟨hplaced, _⟩ := hready.optimize_cases d hcancelled
    · exact ⟨_, by rw [Descent.solution, Descent.outcome, hrun]; rfl⟩
    · contradiction

/-- A paged store is run like the store in memory that it mirrors. -/
theorem Mirrors.runsAs {rules : Registry} {s : PagedStore} {m : MemoryStore}
    (h : Mirrors rules s m) : RunsAs s s.problem := by
  have hm : m.IsKnowing := fun t ht => (h.readable t (Array.mem_toList_iff.mpr ht)).isWithin
  have hruns := MemoryStore.runsAs hm h.shuffler_eq
  rw [h.problem_eq]
  refine ⟨fun us d cancelled => ?_, hruns.exists_report⟩
  have hafter := StoreUse.related_reset (simulation rules)
    (StoreUse.related_afterAll (simulation rules) us h)
  rw [hafter.outcome_eq, (simulation rules).atoms_eq h]
  exact hruns.matches_solution us d cancelled

/-- A store in memory with one term. -/
def heldTerm : MemoryStore :=
  finalState ((StoreOp.insert sampleTerm).run ({ atoms := sampleAtoms } : MemoryStore))

/-- A paged store with the same term on a page. -/
def pagedTerm : PagedStore :=
  finalState ((StoreOp.insert sampleTerm).run ({
    options := { pageSize := 1, randomizePageAccess := false, shufflePage := false }
    rules := sampleRules
    atoms := sampleAtoms
    shuffler := .ofSeed 4
    directory := { path := "pages" } } : PagedStore))

theorem inUse_heldTerm : heldTerm.InUse :=
  (TermStore.InUse.create (.create {} sampleAtoms none none)).op (.insert sampleTerm)

theorem inPlainUse_pagedTerm : pagedTerm.InPlainUse := by
  have hcalm : PageDirectory.IsCalm { path := "pages" } := ⟨rfl, rfl, fun _ => rfl⟩
  have hcreate : PagedStore.create
      { pageSize := 1, randomizePageAccess := false, shufflePage := false } sampleRules {}
      sampleAtoms { path := "pages" } = .ok _ := rfl
  exact .op (.insert sampleTerm) (show sampleTerm.size ≤ Term.maxSize by decide)
    (.create rfl rfl hcalm hcreate)

/-- **A run that follows a reset depends on the problem of its store alone**: on the stored terms,
the kinds and the initial values of the atoms, and on whether the store is closed.  That holds of
every store in memory that is not shuffled, and of every paged store that shuffles nothing and whose
disk is calm, whatever its values are and have been, and however it has been run, written to,
committed and reset.  Only a saving that fails at the end of a run makes a difference. -/
theorem outcome_after_reset :
    (∀ m : MemoryStore, m.InUse → m.shuffler = none → RunsAs m m.problem) ∧
    (∀ s : PagedStore, s.InPlainUse → RunsAs s s.problem) := by
  refine ⟨fun m hm hshuffler =>
    MemoryStore.runsAs (MemoryStore.serves_isKnowing.holds hm) hshuffler, fun s hs => ?_⟩
  obtain ⟨rules, m, hm⟩ := hs.isMirrored
  exact hm.runsAs

/-- A value that has been written and committed, and a run that has been made before, do not show in
the runs that follow a reset. -/
theorem outcome_after_reset_term :
    heldTerm.InUse ∧ heldTerm.shuffler = none ∧ pagedTerm.InPlainUse ∧
      pagedTerm.stored = [sampleTerm] ∧
      ∃ outcome report, outcome.answer = .ok report ∧
        Descent.adamDescent.outcome (fun _ => false)
          (TermStore.reset (StoreUse.afterAll [.write ⟨0⟩ 0.25, .sync] heldTerm)) = outcome ∧
        Descent.adamDescent.outcome (fun _ => false) (TermStore.reset
          (StoreUse.afterAll [.optimize Descent.adamDescent fun _ => false] pagedTerm)) =
            outcome := by
  have hstored : pagedTerm.stored = [sampleTerm] := by decide +kernel
  have hmemory := outcome_after_reset.1 heldTerm inUse_heldTerm rfl
  have hpaged := outcome_after_reset.2 pagedTerm inPlainUse_pagedTerm
  have hsame : pagedTerm.problem = heldTerm.problem := by
    unfold PagedStore.problem
    simp only [hstored]
    rfl
  rw [hsame] at hpaged
  obtain ⟨report, hreport⟩ := hmemory.exists_report rfl Descent.adamDescent
    (fun _ => false) fun _ => rfl
  exact ⟨inUse_heldTerm, rfl, inPlainUse_pagedTerm, hstored, _, report, hreport,
    (hmemory.matches_solution _ _ _).eq, (hpaged.matches_solution _ _ _).eq⟩

end HingeLoss

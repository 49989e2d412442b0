import HingeLoss.Descent.Run
import HingeLoss.Proofs.Descent.Bounds
import HingeLoss.Proofs.Store.History

/-!
# HingeLoss.Proofs.Descent.Agreement

Runs of the optimizer on stores that answer alike.

A run reaches its store through the operations of `TermStore` only, so it carries a
`StoreSimulation` along: on related stores the runs make the same passes, give the same report or
the same failure, and leave the same atoms.  The proof follows the text of the run from the single
sweep up to `optimize`.
-/

namespace HingeLoss

/-- Runs that have made the same passes, on related stores. -/
def Run.Related {σ τ : Type} (R : σ → τ → Prop) (r : Run σ) (r' : Run τ) : Prop :=
  R r.store r'.store ∧ r.passes = r'.passes

namespace Descent

variable {σ τ : Type} {R : σ → τ → Prop}

theorem agree_onStore {α : Type} {x : EStateM Fault σ α} {y : EStateM Fault τ α} {r : Run σ}
    {r' : Run τ} (h : Agree R (x r.store) (y r'.store)) (hpasses : r.passes = r'.passes) :
    Agree (Run.Related R) (onStore x r) (onStore y r') := by
  simp only [onStore]
  cases hx : x r.store <;> cases hy : y r'.store <;> rw [hx, hy] at h
  · exact ⟨h.1, h.2, hpasses⟩
  · exact h.elim
  · exact h.elim
  · exact ⟨h.1, h.2, hpasses⟩

theorem simulates_onStore {α : Type} {x : EStateM Fault σ α} {y : EStateM Fault τ α}
    (h : Simulates R x y) : Simulates (Run.Related R) (onStore x) (onStore y) :=
  fun r r' hr => agree_onStore (h r.store r'.store hr.1) hr.2

theorem simulates_checkCancelled (cancelled : Nat → Bool) (iteration : Nat) :
    Simulates (Run.Related R) (checkCancelled (σ := σ) cancelled iteration)
      (checkCancelled cancelled iteration) := by
  unfold checkCancelled
  split
  · exact Simulates.throw _
  · exact Simulates.pure _

variable [TermStore σ] [TermStore τ]

section Parts

variable {n : Nat} {p : Progress} {o : DescentOptions} {kinds : Array AtomKind}

/-- What follows a look at the atoms may rely on them being the same. -/
theorem simulates_atoms_bind (hatoms : ∀ {s t}, R s t → TermStore.atoms s = TermStore.atoms t)
    {β : Type} {f : AtomTable → EStateM Fault (Run σ) β} {g : AtomTable → EStateM Fault (Run τ) β}
    (hfg : ∀ t, Simulates (Run.Related R) (f t) (g t)) :
    Simulates (Run.Related R) (atoms >>= f) (atoms >>= g) := by
  intro r r' hr
  change Agree _ (f (TermStore.atoms r.store) r) (g (TermStore.atoms r'.store) r')
  rw [hatoms hr.1]
  exact hfg _ r r' hr

/-- Passes agree whose sweeps do. -/
theorem simulates_pass (hsweep : ∀ c start,
      Simulates (Run.Related R) (sweepStore (σ := σ) c start) (sweepStore c start))
    (hend : ∀ {s t}, R s t → R (TermStore.endPass s) (TermStore.endPass t)) :
    Simulates (Run.Related R) (pass (σ := σ) o kinds n p) (pass o kinds n p) := by
  have hrecord (pass : Pass) :
      Simulates (Run.Related R) (record (σ := σ) pass) (record pass) :=
    Simulates.modify fun _ _ hr => ⟨hend hr.1, by rw [hr.2]⟩
  refine (hsweep _ _).bind fun s => ?_
  split
  · exact (hrecord _).bind fun _ => Simulates.pure _
  · refine (hrecord _).bind fun _ => ?_
    split
    · exact Simulates.throw _
    · exact Simulates.pure _

theorem simulates_passesFrom (hpass : ∀ n p,
      Simulates (Run.Related R) (pass (σ := σ) o kinds n p) (pass o kinds n p))
    (cancelled : Nat → Bool) (left : Nat) :
    Simulates (Run.Related R) (passesFrom (σ := σ) o kinds cancelled left n p)
      (passesFrom o kinds cancelled left n p) := by
  induction left generalizing n p with
  | zero => exact Simulates.pure _
  | succ left ih =>
    refine (simulates_checkCancelled cancelled n).bind fun _ => ?_
    refine (hpass n p).bind fun ⟨q, done⟩ => ?_
    cases done with
    | true => exact Simulates.pure _
    | false => exact ih

/-- Runs end alike whose stores are evaluated alike. -/
theorem agree_settle (hatoms : ∀ {s t}, R s t → TermStore.atoms s = TermStore.atoms t)
    (hset : ∀ values, Simulates R (TermStore.onAtoms (σ := σ) (AtomTable.setValues values))
      (TermStore.onAtoms (AtomTable.setValues values)))
    (hsync : Simulates R (TermStore.sync (σ := σ)) TermStore.sync) {r : Run σ} {r' : Run τ}
    (hevaluate : Agree (Run.Related R) (onStore TermStore.evaluate r)
      (onStore TermStore.evaluate r')) :
    Agree (Run.Related R) (settle n p r) (settle n p r') := by
  refine hevaluate.bind fun last s' t' _ _ hr => ?_
  refine simulates_atoms_bind hatoms (fun t => ?_) s' t' hr
  refine (simulates_onStore (hset _)).bind fun _ => ?_
  exact (simulates_onStore hsync).bind fun _ => Simulates.pure _

end Parts

variable {admits : Term Single → Prop}

theorem simulates_setValues (h : StoreSimulation admits R) (values : Array Single) :
    Simulates R (TermStore.onAtoms (σ := σ) (AtomTable.setValues values))
      (TermStore.onAtoms (AtomTable.setValues values)) :=
  h.onAtoms (AtomTable.keeps_size_setValues · values)

theorem simulates_sweepStore (h : StoreSimulation admits R) (c : PassContext)
    (start : Array Single → PassState) :
    Simulates (Run.Related R) (sweepStore (σ := σ) c start) (sweepStore c start) := by
  have hset (values : Array Single) := simulates_onStore (simulates_setValues h values)
  refine (simulates_onStore h.terms).bind fun items =>
    simulates_atoms_bind h.atoms_eq fun t => ?_
  split
  · exact (hset _).bind fun _ => Simulates.pure _
  · exact (hset _).bind fun _ => Simulates.throw _

/-- Runs on related stores agree. -/
theorem simulates_optimize (h : StoreSimulation admits R) (d : Descent) (cancelled : Nat → Bool) :
    Simulates (Run.Related R) (optimize (σ := σ) d cancelled) (optimize d cancelled) := by
  refine (simulates_onStore h.beginRun).bind fun _ => simulates_atoms_bind h.atoms_eq fun t => ?_
  have hpass (n : Nat) (p : Progress) : Simulates (Run.Related R)
      (pass (σ := σ) d.options t.kinds n p) (pass d.options t.kinds n p) :=
    simulates_pass (simulates_sweepStore h) h.endPass
  refine (simulates_passesFrom hpass cancelled (maxPasses d.options)).bind fun q r r' hr => ?_
  exact agree_settle h.atoms_eq (simulates_setValues h) (h.onAtoms AtomTable.keeps_size_sync)
    (simulates_onStore h.evaluate r r' hr)

end Descent

/-! ## Pages and memory -/

/-- A store in memory that a run finds nothing wrong with, but perhaps the place of its atoms. -/
structure MemoryStore.IsReady (n : Nat) (placed : Bool) (m : MemoryStore) : Prop where
  size_atoms : m.atoms.size = n
  place_eq : m.atoms.place.isSome = placed
  generator_eq : m.generator.isSome = true
  shuffler_eq : m.shuffler = none
  isWithin : ∀ t ∈ m.terms, t.IsWithin n

namespace MemoryStore.IsReady

variable {n : Nat} {placed : Bool} {m : MemoryStore}

theorem checkOpen_eq (h : m.IsReady n placed) : m.checkOpen = .ok () := by
  have hopen := Option.isSome_iff_ne_none.mp h.generator_eq
  rw [checkOpen, m.closed_eq, if_neg (by simpa using hopen)]

theorem withAtoms (h : m.IsReady n placed) {t : AtomTable} (hsize : t.size = n)
    (hplace : t.place.isSome = placed) : IsReady n placed { m with atoms := t } :=
  ⟨hsize, hplace, h.generator_eq, h.shuffler_eq, h.isWithin⟩

theorem beginRun_eq (h : m.IsReady n placed) : beginRun m = .ok () m := by
  simp only [beginRun, h.checkOpen_eq, h.shuffler_eq]

theorem listTerms_eq (h : m.IsReady n placed) : listTerms m = .ok (m.terms.toList.map .ok) m := by
  simp only [listTerms, h.checkOpen_eq]

theorem keeps_sync : Keeps (IsReady n placed) (fun _ => True)
    (fun e => placed = true ∧ ∃ f, e = .file f) (TermStore.sync (σ := MemoryStore)) := by
  intro m h
  have hkeeps := AtomTable.keeps_sync (I := fun t => t.size = n ∧ t.place.isSome = placed)
    (fun t ht => ⟨t.size_commit.trans ht.1, ht.2⟩)
    (fun t p hp ht => ⟨ht.1, by rw [← ht.2, hp]; rfl⟩)
  have hatoms : m.atoms.size = n ∧ m.atoms.place.isSome = placed := ⟨h.size_atoms, h.place_eq⟩
  unfold TermStore.sync TermStore.onAtoms
  cases hsync : AtomTable.sync (TermStore.atoms m) with
  | ok moved t =>
    have ht := (hkeeps.ok hatoms hsync).2
    exact ⟨trivial, h.withAtoms ht.1 ht.2⟩
  | error e t =>
    have ht := (hkeeps.error hatoms hsync).2
    have he := AtomTable.sync_eq_error hsync
    exact ⟨⟨h.place_eq.symm.trans he.1, he.2⟩, h.withAtoms ht.1 ht.2⟩

/-- A run on such a store fails only when its atoms cannot be saved. -/
theorem storeBounds (n : Nat) (placed : Bool) :
    StoreBounds n (fun e => placed = true ∧ ∃ f, e = .file f) (IsReady n placed) where
  size_eq h := h.size_atoms
  withAtoms t h hsize hplace := h.withAtoms hsize (hplace ▸ h.place_eq)
  beginRun m h := by
    have hrun : TermStore.beginRun m = .ok () m := h.beginRun_eq
    simp only [hrun]
    exact ⟨trivial, h⟩
  terms m h := by
    have hlist : TermStore.terms m = .ok (m.terms.toList.map .ok) m := h.listTerms_eq
    simp only [hlist]
    refine ⟨⟨fun t ht => ?_, by simp⟩, h⟩
    have hmem : t ∈ m.terms := by simpa using ht
    exact h.isWithin t hmem
  endPass h := h
  sync := keeps_sync

/-- A run on such a store that is not cancelled succeeds, unless its atoms cannot be saved. -/
theorem optimize_cases (h : m.IsReady n placed) (d : Descent) {cancelled : Nat → Bool}
    (hcancelled : ∀ i, cancelled i = false) :
    (∃ report r, d.optimize cancelled ⟨m, #[]⟩ = .ok report r) ∨
      placed = true ∧ ∃ f r, d.optimize cancelled ⟨m, #[]⟩ = .error (.file f) r := by
  have hnever (i : Nat) (hi : cancelled i = true) :
      placed = true ∧ ∃ f, Fault.cancelled i = .file f := by
    rw [hcancelled i] at hi
    contradiction
  have hkeeps := Descent.keeps_bounds_optimize (storeBounds n placed) d hnever
  cases houtcome : d.optimize cancelled ⟨m, #[]⟩ with
  | ok report r => exact .inl ⟨report, r, rfl⟩
  | error e r =>
    obtain ⟨hplaced, f, rfl⟩ := (hkeeps.error h houtcome).1
    exact .inr ⟨hplaced, f, r, rfl⟩

end MemoryStore.IsReady

/-- A history that does not close the store leaves it ready for a run. -/
theorem Mirrors.isReady {rules : Registry} {p : PagedStore} {m : MemoryStore}
    (h : Mirrors rules p m) (hopen : m.generator.isSome = true) :
    m.IsReady m.atoms.size m.atoms.place.isSome :=
  ⟨rfl, rfl, hopen, h.shuffler_eq,
    fun t ht => (h.readable t (Array.mem_toList_iff.mpr ht)).isWithin⟩

/-- **Runs on pages and in memory agree.**  After every history of operations on terms of the
registry, a run on a paged store that shuffles nothing, on a calm disk, and a run on a store in
memory that has seen the insertions and removals only give the same report or the same failure, and
leave the same atoms.  On an open store, a run that is not cancelled fails only when its atoms
cannot be saved. -/
theorem exists_create_optimize_agree {options : PagingOptions} {rules : Registry}
    {generator : Generator} {atoms : AtomTable} {directory : PageDirectory}
    (hsize : 0 < options.pageSize) (hpages : options.randomizePageAccess = false)
    (hterms : options.shufflePage = false) (hdisk : directory.IsCalm) :
    ∃ s, PagedStore.create options rules generator atoms directory = .ok s ∧
      ∀ ops : List StoreOp, (∀ op ∈ ops, op.Uses rules) →
        ∀ (d : Descent) (cancelled : Nat → Bool) (p : PagedStore) (m : MemoryStore),
          p = StoreOp.runAll ops s →
          m = StoreOp.runAll (ops.filter (!·.isRead)) { generator := some generator, atoms } →
          Agree (fun r r' => r.store.atoms = r'.store.atoms ∧ r.passes = r'.passes)
            (d.optimize cancelled ⟨p, #[]⟩) (d.optimize cancelled ⟨m, #[]⟩) ∧
          (.close ∉ ops → (∀ n, cancelled n = false) →
            (∃ report r, d.optimize cancelled ⟨m, #[]⟩ = .ok report r) ∨
            atoms.place.isSome = true ∧
              ∃ f r, d.optimize cancelled ⟨m, #[]⟩ = .error (.file f) r) := by
  obtain ⟨s, hcreate, hs⟩ :=
    @Mirrors.of_create rules options generator atoms directory hsize hpages hterms hdisk
  refine ⟨s, hcreate, ?_⟩
  rintro ops hops d cancelled p m rfl rfl
  have hm := StoreOp.related_runAll (Mirrors.simulation rules)
    (fun op hop => (hops op hop).admitted) hs
  rw [StoreOp.runAll_filter ops rfl]
  refine ⟨?_, fun hclose hcancelled => ?_⟩
  · refine (Descent.simulates_optimize (Mirrors.simulation rules) d cancelled _ _ ⟨hm, rfl⟩).mono ?_
    exact fun r r' h => ⟨h.1.atoms_eq, h.2⟩
  · generalize hrun : StoreOp.runAll ops ({ generator := some generator, atoms } : MemoryStore) = m
      at hm ⊢
    have hopen : m.generator.isSome = true ∧ m.atoms = atoms := by
      rw [← hrun]
      exact StoreOp.keeps_runAll (I := fun m => m.generator.isSome = true ∧ m.atoms = atoms)
        (fun _ _ h => h) (fun h => absurd h hclose) ⟨rfl, rfl⟩
    have hcases := (hm.isReady hopen.1).optimize_cases d hcancelled
    rw [hopen.2] at hcases
    exact hcases

/-- A reading operation between the insertions cuts the terms into pages of one and two terms. -/
theorem optimize_sample_agree :
    ∃ s, PagedStore.create { pageSize := 2, randomizePageAccess := false, shufflePage := false }
        sampleRules {} sampleAtoms { path := "pages" } = .ok s ∧
      ∃ report r r',
        Descent.optimize ⟨{}, rfl⟩ (fun _ => false)
          ⟨StoreOp.runAll [.insert sampleTerm, .termAt 0, .add sampleLimit] s, #[]⟩ = .ok report r ∧
        Descent.optimize ⟨{}, rfl⟩ (fun _ => false)
          ⟨StoreOp.runAll [.insert sampleTerm, .add sampleLimit]
            ({ atoms := sampleAtoms } : MemoryStore), #[]⟩ = .ok report r' ∧
        r.store.atoms = r'.store.atoms := by
  obtain ⟨s, hcreate, hs⟩ := @exists_create_optimize_agree
    { pageSize := 2, randomizePageAccess := false, shufflePage := false } sampleRules {} sampleAtoms
    { path := "pages" } (by decide) rfl rfl ⟨rfl, rfl, fun _ => rfl⟩
  have huses : ∀ op ∈ [StoreOp.insert sampleTerm, .termAt 0, .add sampleLimit],
      op.Uses sampleRules := by
    intro op hop
    simp only [List.mem_cons, List.not_mem_nil, or_false] at hop
    rcases hop with rfl | rfl | rfl <;> simp only [StoreOp.Uses] <;> decide
  obtain ⟨hagree, hok⟩ := hs _ huses ⟨{}, rfl⟩ (fun _ => false) _ _ rfl rfl
  refine ⟨s, hcreate, ?_⟩
  obtain ⟨report, r', hmemory⟩ | ⟨hplaced, _⟩ := hok (by simp) fun _ => rfl
  · rw [hmemory] at hagree
    generalize Descent.optimize (σ := PagedStore) _ _ _ = outcome at hagree ⊢
    cases outcome with
    | ok report r =>
      obtain ⟨rfl, hatoms, _⟩ := hagree
      exact ⟨report, r, r', rfl, hmemory, hatoms⟩
    | error e r => exact hagree.elim
  · contradiction

end HingeLoss

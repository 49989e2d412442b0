import HingeLoss.Descent.Objective
import HingeLoss.Proofs.Program
import HingeLoss.Store.Crew

/-!
# HingeLoss.Proofs.Store.Simulation

When two stores of different kinds cannot be told apart.

A `StoreSimulation` relates stores that answer every operation of `TermStore` alike, as long as only
admitted terms are inserted and the table of atoms keeps its size.  What is built on these
operations then agrees too: adding ground rules, listing and counting the terms of a rule, and the
objective.

`StoreOp` names the operations, and `answers` is what a store answers to a sequence of them.  A
failed operation is an answer like others, and the sequence goes on with the store that it has left.
-/

namespace HingeLoss

/-- What relates stores that answer alike. -/
structure StoreSimulation {σ τ : Type} [TermStore σ] [TermStore τ] (admits : Term Single → Prop)
    (R : σ → τ → Prop) : Prop where
  atoms_eq : ∀ {s t}, R s t → TermStore.atoms s = TermStore.atoms t
  /-- The tables of atoms can be replaced together by one of the same size. -/
  withAtoms : ∀ {s t} (table : AtomTable), R s t → table.size = (TermStore.atoms s).size →
    R (TermStore.withAtoms table s) (TermStore.withAtoms table t)
  size_eq : ∀ {s t}, R s t → TermStore.size s = TermStore.size t
  generator_eq : ∀ {s t}, R s t → TermStore.generator s = TermStore.generator t
  insert : ∀ x, admits x →
    Simulates R (TermStore.insert x : EStateM Fault σ Unit) (TermStore.insert x)
  termAt : ∀ i, Simulates R (TermStore.termAt i : EStateM Fault σ (Term Single)) (TermStore.termAt i)
  terms : Simulates R (TermStore.terms (σ := σ)) TermStore.terms
  clear : Simulates R (TermStore.clear (σ := σ)) TermStore.clear
  close : Simulates R (TermStore.close (σ := σ)) TermStore.close
  beginRun : Simulates R (TermStore.beginRun (σ := σ)) TermStore.beginRun
  endPass : ∀ {s t}, R s t → R (TermStore.endPass s) (TermStore.endPass t)

/-! ## Terms of ground rules -/

namespace Grounded

/-- What the buffers hold belongs to a rule, and every term has a size that a term can have. -/
def BelongsTo {α : Type} (rule : Rule α) (b : Grounded α) : Prop :=
  ∀ t ∈ b.terms.toList, t.rule = rule ∧ t.size ≤ Term.maxSize

theorem keeps_push {rule : Rule Single} (potential : Potential) (f : LinearForm Single) :
    Preserves (BelongsTo rule) (push rule potential f) := by
  unfold push
  simp only
  split
  · exact Keeps.pure trivial
  · split
    · exact Keeps.throw trivial
    · next t h =>
      obtain ⟨hsize, rfl⟩ := Term.ofForm_eq_ok_iff.mp h
      refine Keeps.modify fun b hb u hu => ?_
      rw [Array.toList_push, List.mem_append, List.mem_singleton] at hu
      cases hu with
      | inl hu => exact hb u hu
      | inr hu => exact hu ▸ ⟨rfl, hsize⟩

end Grounded

/-- The terms that are made of a ground rule belong to its rule. -/
theorem Generator.belongsTo_ground {gen : Generator} {g : GroundRule Single}
    {made : Grounded Single} (h : gen.ground g = .ok made) : made.BelongsTo g.rule := by
  have hkeeps : Preserves (Grounded.BelongsTo g.rule) (gen.generate g) := by
    unfold generate
    split
    · exact Keeps.throw trivial
    · exact Keeps.forM fun s _ => Grounded.keeps_push s.1 s.2
  unfold ground at h
  have hempty : Grounded.BelongsTo g.rule {} := fun t ht => by simp at ht
  split at h
  · next hmade =>
    injection h with h
    subst h
    exact (hkeeps.ok hempty hmade).2
  · contradiction

namespace TermStore

variable {σ : Type} [TermStore σ] {I : σ → Prop}

/-- A store that is open makes of a ground rule what its generator makes. -/
theorem exists_ground {s : σ} {g : GroundRule Single} {ts : List (Term Single)}
    (h : ground s g = .ok ts) :
    ∃ gen made, generator s = some gen ∧ gen.ground g = .ok made ∧ ts = made.terms.toList := by
  unfold ground at h
  split at h
  · contradiction
  · next gen hgen =>
    cases hmade : gen.ground g with
    | error e => rw [hmade] at h; contradiction
    | ok made =>
      rw [hmade] at h
      injection h with h
      exact ⟨gen, made, hgen, hmade, h.symm⟩

/-- The terms that a store makes of a ground rule belong to its rule. -/
theorem belongsTo_ground {s : σ} {g : GroundRule Single} {ts : List (Term Single)}
    (h : ground s g = .ok ts) : ∀ t ∈ ts, t.rule = g.rule ∧ t.size ≤ Term.maxSize := by
  obtain ⟨gen, made, _, hmade, rfl⟩ := exists_ground h
  exact Generator.belongsTo_ground hmade

/-- What the insertions of its terms keep, adding a ground rule keeps. -/
theorem keeps_add {g : GroundRule Single}
    (h : ∀ t : Term Single, t.rule = g.rule → t.size ≤ Term.maxSize →
      Preserves I (insert t : EStateM Fault σ Unit)) :
    Preserves I (add g : EStateM Fault σ Nat) := by
  refine Keeps.get.bind fun s _ => ?_
  cases hground : ground s g with
  | error e => exact Keeps.throw trivial
  | ok ts =>
    refine Keeps.bind (Q := fun _ => True) ?_ fun _ _ => Keeps.pure trivial
    refine Keeps.forM fun t ht => ?_
    obtain ⟨hrule, hsize⟩ := belongsTo_ground hground t ht
    exact h t hrule hsize

theorem keeps_addInOrder {gs : List (GroundRule Single)}
    (h : ∀ g ∈ gs, Preserves I (add g : EStateM Fault σ Nat)) :
    Preserves I (addInOrder gs : EStateM Fault σ Nat) :=
  Keeps.foldlM (fun _ _ g hg => (h g hg).bind fun _ _ => Keeps.pure trivial) trivial

end TermStore

/-! ## What is built on the operations -/

namespace StoreSimulation

variable {σ τ : Type} [TermStore σ] [TermStore τ] {admits : Term Single → Prop} {R : σ → τ → Prop}

/-- A ground rule is admitted if all terms that can be made of it are. -/
def AdmitsRule (admits : Term Single → Prop) (g : GroundRule Single) : Prop :=
  ∀ t : Term Single, t.rule = g.rule → t.size ≤ Term.maxSize → admits t

theorem ground_eq (h : StoreSimulation admits R) {s : σ} {t : τ} (hst : R s t)
    (g : GroundRule Single) : TermStore.ground s g = TermStore.ground t g := by
  simp only [TermStore.ground, h.generator_eq hst]

theorem add (h : StoreSimulation admits R) {g : GroundRule Single} (hg : AdmitsRule admits g) :
    Simulates R (TermStore.add g : EStateM Fault σ Nat) (TermStore.add g) := by
  intro s t hst
  unfold TermStore.add
  rw [bind_ok (get_apply s), bind_ok (get_apply t), h.ground_eq hst]
  cases hground : TermStore.ground t g with
  | error e => exact ⟨rfl, hst⟩
  | ok ts =>
    have hmade : ∀ x ∈ ts, admits x := by
      intro x hx
      obtain ⟨hrule, hsize⟩ := TermStore.belongsTo_ground hground x hx
      exact hg x hrule hsize
    exact (Simulates.forM fun x hx => h.insert x (hmade x hx)).bind
      (fun _ => Simulates.pure _) s t hst

theorem addInOrder (h : StoreSimulation admits R) {gs : List (GroundRule Single)}
    (hgs : ∀ g ∈ gs, AdmitsRule admits g) :
    Simulates R (TermStore.addInOrder gs : EStateM Fault σ Nat) (TermStore.addInOrder gs) :=
  Simulates.foldlM (fun _ g hg => (h.add (hgs g hg)).bind fun _ => Simulates.pure _) 0

/-- One worker needs no crew. -/
theorem addAll_one (gs : List (GroundRule Single)) :
    (TermStore.addAll gs 1 : EStateM Fault σ Nat) = TermStore.addInOrder gs := by
  have hsize : TermStore.crewSize gs.length 1 = 1 := by
    simp only [TermStore.crewSize]
    omega
  simp only [TermStore.addAll, hsize]
  rfl

theorem termsOf (h : StoreSimulation admits R) (id : RuleId) :
    Simulates R (TermStore.termsOf (σ := σ) id) (TermStore.termsOf id) :=
  h.terms.bind fun _ => Simulates.pure _

theorem countOf (h : StoreSimulation admits R) (id : RuleId) :
    Simulates R (TermStore.countOf (σ := σ) id) (TermStore.countOf id) := by
  refine (h.termsOf id).bind fun items => ?_
  split
  · exact Simulates.pure _
  · exact Simulates.throw _

/-- An operation on the atoms that keeps their number goes through both stores. -/
theorem onAtoms (h : StoreSimulation admits R) {α : Type} {op : EStateM Fault AtomTable α}
    (hop : ∀ n, Preserves (fun t : AtomTable => t.size = n) op) :
    Simulates R (TermStore.onAtoms op : EStateM Fault σ α) (TermStore.onAtoms op) := by
  intro s t hst
  have hkeeps := hop _ (TermStore.atoms s) rfl
  unfold TermStore.onAtoms
  rw [← h.atoms_eq hst]
  cases hr : op (TermStore.atoms s) <;> simp only [hr] at hkeeps
  · exact ⟨rfl, h.withAtoms _ hst hkeeps.2⟩
  · exact ⟨rfl, h.withAtoms _ hst hkeeps.2⟩

theorem evaluate (h : StoreSimulation admits R) :
    Simulates R (TermStore.evaluate (σ := σ)) TermStore.evaluate := by
  refine h.terms.bind fun items => ?_
  intro s t hst
  rw [bind_ok (get_apply s), bind_ok (get_apply t), h.atoms_eq hst]
  cases Evaluation.ofListing (TermStore.atoms t).values items with
  | ok e => exact ⟨rfl, hst⟩
  | error e => exact ⟨rfl, hst⟩

end StoreSimulation

/-! ## Sequences of operations -/

inductive StoreOp where
  | insert (t : Term Single)
  | add (g : GroundRule Single)
  /-- Adds the terms of ground rules with one worker. -/
  | addAll (gs : List (GroundRule Single))
  | termAt (i : Nat)
  | terms
  /-- The terms together with the atoms that a pass works on. -/
  | sweep
  | termsOf (id : RuleId)
  | countOf (id : RuleId)
  | size
  | clear
  /-- Prepares the first pass of a run. -/
  | beginRun
  /-- Prepares the next pass of a run. -/
  | endPass
  /-- Removes all terms and the generator, for good. -/
  | close

/-- The answer of a store to an operation that succeeds. -/
inductive StoreAnswer where
  | done
  | count (n : Nat)
  | term (t : Term Single)
  | listing (items : List (Except Fault (Term Single)))
  | sweep (items : List (Except Fault (Term Single))) (atoms : AtomTable)

namespace StoreOp

variable {σ τ : Type} [TermStore σ] [TermStore τ]

/-- Carries an operation out. -/
def run : StoreOp → EStateM Fault σ StoreAnswer
  | insert t => do
    TermStore.insert t
    return .count 1
  | add g => return .count (← TermStore.add g)
  | addAll gs => return .count (← TermStore.addAll gs 1)
  | termAt i => return .term (← TermStore.termAt i)
  | terms => return .listing (← TermStore.terms)
  | sweep => do
    let items ← TermStore.terms
    return .sweep items (TermStore.atoms (← get))
  | termsOf id => return .listing (← TermStore.termsOf id)
  | countOf id => return .count (← TermStore.countOf id)
  | size => return .count (TermStore.size (← get))
  | clear => do
    TermStore.clear
    return .done
  | beginRun => do
    TermStore.beginRun
    return .done
  | endPass => do
    modify TermStore.endPass
    return .done
  | close => do
    TermStore.close
    return .done

/-- Carries operations out in order, whether they succeed or fail. -/
def runAll (ops : List StoreOp) (s : σ) : σ :=
  ops.foldl (fun s op => finalState (op.run s)) s

/-- The answers to operations that are carried out in order. -/
def answers : List StoreOp → σ → List (Except Fault StoreAnswer)
  | [], _ => []
  | op :: ops, s => match op.run s with
    | .ok a s => .ok a :: answers ops s
    | .error e s => .error e :: answers ops s

/-- Whether an operation inserts only admitted terms. -/
def Admitted (admits : Term Single → Prop) : StoreOp → Prop
  | insert t => admits t
  | add g => StoreSimulation.AdmitsRule admits g
  | addAll gs => ∀ g ∈ gs, StoreSimulation.AdmitsRule admits g
  | _ => True

/-- Whether an operation only reads, or prepares to read. -/
def isRead : StoreOp → Bool
  | termAt _ | terms | sweep | termsOf _ | countOf _ | size | beginRun | endPass => true
  | insert _ | add _ | addAll _ | clear | close => false

/-- What finding a term, listing the terms and preparing passes keep, every reading operation
keeps. -/
theorem keeps_run_of_isRead {I : σ → Prop} {op : StoreOp} (hread : op.isRead = true)
    (htermAt : ∀ i, Preserves I (TermStore.termAt i : EStateM Fault σ (Term Single)))
    (hterms : Preserves I (TermStore.terms (σ := σ)))
    (hbegin : Preserves I (TermStore.beginRun (σ := σ)))
    (hend : ∀ s : σ, I s → I (TermStore.endPass s)) :
    Preserves I (op.run : EStateM Fault σ StoreAnswer) := by
  have hget : Preserves I (get : EStateM Fault σ σ) := fun _ hs => ⟨trivial, hs⟩
  have htermsOf (id : RuleId) : Preserves I (TermStore.termsOf (σ := σ) id) :=
    hterms.bind fun _ _ => Keeps.pure trivial
  cases op with
  | termAt i => exact (htermAt i).bind fun _ _ => Keeps.pure trivial
  | terms => exact hterms.bind fun _ _ => Keeps.pure trivial
  | sweep => exact hterms.bind fun _ _ => hget.bind fun _ _ => Keeps.pure trivial
  | termsOf id => exact (htermsOf id).bind fun _ _ => Keeps.pure trivial
  | countOf id =>
    refine Keeps.bind (Q := fun _ => True) ?_ fun _ _ => Keeps.pure trivial
    refine (htermsOf id).bind fun items _ => ?_
    cases TermStore.countListed items with
    | ok n => exact Keeps.pure trivial
    | error e => exact Keeps.throw trivial
  | size => exact hget.bind fun _ _ => Keeps.pure trivial
  | beginRun => exact hbegin.bind fun _ _ => Keeps.pure trivial
  | endPass => exact (Keeps.modify hend).bind fun _ _ => Keeps.pure trivial
  | insert _ | add _ | addAll _ | clear | close => contradiction

/-- What insertions, removals and reading operations keep, every operation keeps. -/
theorem keeps_run_of_writes {I : σ → Prop} {op : StoreOp}
    (hread : op.isRead = true → Preserves I (op.run : EStateM Fault σ StoreAnswer))
    (hinsert : ∀ t, Preserves I (TermStore.insert t : EStateM Fault σ Unit))
    (hclear : Preserves I (TermStore.clear (σ := σ)))
    (hclose : op = .close → Preserves I (TermStore.close (σ := σ))) :
    Preserves I (op.run : EStateM Fault σ StoreAnswer) := by
  have hadd (g : GroundRule Single) : Preserves I (TermStore.add g : EStateM Fault σ Nat) :=
    TermStore.keeps_add fun t _ _ => hinsert t
  cases op with
  | insert t => exact (hinsert t).bind fun _ _ => Keeps.pure trivial
  | add g => exact (hadd g).bind fun _ _ => Keeps.pure trivial
  | addAll gs =>
    simp only [run, StoreSimulation.addAll_one]
    exact (TermStore.keeps_addInOrder fun g _ => hadd g).bind fun _ _ => Keeps.pure trivial
  | clear => exact hclear.bind fun _ _ => Keeps.pure trivial
  | close => exact (hclose rfl).bind fun _ _ => Keeps.pure trivial
  | _ => exact hread rfl

variable {admits : Term Single → Prop} {R : σ → τ → Prop}

/-- An operation gives the same answer in both stores. -/
theorem simulates_run (h : StoreSimulation admits R) (op : StoreOp) (hop : op.Admitted admits) :
    Simulates R (op.run : EStateM Fault σ StoreAnswer) op.run := by
  cases op with
  | insert t => exact (h.insert t hop).bind fun _ => Simulates.pure _
  | add g => exact (h.add hop).bind fun _ => Simulates.pure _
  | addAll gs =>
    simp only [run, StoreSimulation.addAll_one]
    exact (h.addInOrder hop).bind fun _ => Simulates.pure _
  | termAt i => exact (h.termAt i).bind fun _ => Simulates.pure _
  | terms => exact h.terms.bind fun _ => Simulates.pure _
  | sweep =>
    refine h.terms.bind fun items => ?_
    intro s t hst
    rw [bind_ok (get_apply s), bind_ok (get_apply t), h.atoms_eq hst]
    exact ⟨rfl, hst⟩
  | termsOf id => exact (h.termsOf id).bind fun _ => Simulates.pure _
  | countOf id => exact (h.countOf id).bind fun _ => Simulates.pure _
  | size =>
    intro s t hst
    simp only [run]
    rw [bind_ok (get_apply s), bind_ok (get_apply t), h.size_eq hst]
    exact ⟨rfl, hst⟩
  | clear => exact h.clear.bind fun _ => Simulates.pure _
  | beginRun => exact h.beginRun.bind fun _ => Simulates.pure _
  | endPass => exact (Simulates.modify fun _ _ => h.endPass).bind fun _ => Simulates.pure _
  | close => exact h.close.bind fun _ => Simulates.pure _

theorem answers_eq_answersTo (ops : List StoreOp) (s : σ) : answers ops s = answersTo run ops s := by
  induction ops generalizing s with
  | nil => rfl
  | cons op ops ih => cases h : op.run s <;> simp only [answers, answersTo, h, ih]

/-- **Related stores answer every sequence of operations alike.** -/
theorem answers_eq (h : StoreSimulation admits R) {ops : List StoreOp}
    (hops : ∀ op ∈ ops, op.Admitted admits) {s : σ} {t : τ} (hst : R s t) :
    answers ops s = answers ops t := by
  rw [answers_eq_answersTo, answers_eq_answersTo]
  exact Simulates.answersTo (fun op hop => simulates_run h op (hops op hop)) hst

/-- Operations leave related stores related. -/
theorem related_runAll (h : StoreSimulation admits R) {ops : List StoreOp}
    (hops : ∀ op ∈ ops, op.Admitted admits) {s : σ} {t : τ} (hst : R s t) :
    R (runAll ops s) (runAll ops t) :=
  Simulates.stateAfter (fun op hop => simulates_run h op (hops op hop)) hst

end StoreOp

end HingeLoss

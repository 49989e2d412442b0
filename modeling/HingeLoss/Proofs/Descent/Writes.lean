import HingeLoss.Proofs.Descent.Passes
import HingeLoss.Proofs.Descent.Sweeps

/-!
# HingeLoss.Proofs.Descent.Writes

What a run writes.

Values are written in three ways: a soft term moves its variables one by one, a hard term is
repaired, and in the end the best values are put back.  The first two write clamped values at
unobserved variables of terms that the store has listed; the third puts back values that have been
there before.

So what such writes do not touch holds of all values of a run: after each pass and at its end, also
when it fails (`Writes.keeps_optimize`).
-/

namespace HingeLoss

/-- A property of values that is not touched by writing a clamped value at an unobserved variable of
a term with `T`. -/
def Untouched (kinds : Array AtomKind) (T : Term Single → Prop) (V : Array Single → Prop) : Prop :=
  ∀ t, T t → ∀ e ∈ t.entries, kinds[e.var.toNat]? = some .unobserved → ∀ values target, V values →
    V (values.setIfInBounds e.var.toNat (Scalar.clamp target))

/-! ## Sweeps -/

namespace PassContext

variable {c : PassContext} {t : Term Single} {s s' : PassState}
  {items : List (Except Fault (Term Single))} {T : Term Single → Prop} {V : Array Single → Prop}
  (hV : Untouched c.kinds T V)

include hV

theorem untouched_moveEntries (ht : T t) {rate dot movement moved : Single}
    {es : List (Entry Single)} (hes : ∀ e ∈ es, e ∈ t.entries)
    (h : c.moveEntries t rate es dot movement s = .ok (moved, s')) (hs : V s.values) :
    V s'.values := by
  refine keeps_moveEntries (I := fun s => V s.values) ?_ h hs
  intro e he s _ _ _ target hfree _ hs
  exact hV t ht e (hes e he) (isFree_eq_true hfree) s.values target hs

theorem untouched_visit (ht : T t) (h : c.visit t s = .ok s')
    (hs : V s.values ∧ ∀ u ∈ s.held, T u) : V s'.values ∧ ∀ u ∈ s'.held, T u := by
  obtain ⟨_, rfl⟩ | ⟨_, u, hmeasure, hmove⟩ := visit_eq_ok h
  · refine ⟨hs.1, fun u hu => ?_⟩
    cases Array.mem_push.mp hu with
    | inl hu => exact hs.2 u hu
    | inr hu => exact hu ▸ ht
  · obtain ⟨_, _, w, hentries, rfl⟩ := move_eq_ok hmove
    have hmeasured : u.held = s.held := by
      obtain ⟨_, rfl⟩ | ⟨_, _, _, rfl⟩ := measure_eq_ok hmeasure <;> rfl
    have hheld : w.held = s.held := by
      rw [(moveEntries_frame hentries).1]
      exact hmeasured
    have hu : V u.values := by rw [values_measure hmeasure]; exact hs.1
    have hw : V w.values :=
      untouched_moveEntries hV ht (fun _ he => Array.mem_toList_iff.mp he) hentries hu
    exact ⟨hw, fun v hv => hs.2 v (hheld ▸ hv)⟩

theorem untouched_repair (ht : T t) (h : c.repair t s = .ok s') (hs : V s.values) :
    V s'.values := by
  obtain ⟨_, rfl⟩ := repair_eq_ok h
  refine Term.keeps_project t c.isFree (fun e he values target hfree hvalues => ?_) hs
  exact hV t ht e he (isFree_eq_true hfree) values target hvalues

theorem untouched_visitAll (hitems : ∀ t, .ok t ∈ items → T t) :
    Preserves (fun s => V s.values ∧ ∀ u ∈ s.held, T u) (c.visitAll items) :=
  keeps_visitAll (fun t ht _ _ hs h => untouched_visit hV (hitems t ht) h hs) (fun _ _ => trivial)
    fun _ _ _ _ _ _ => trivial

theorem untouched_repairAll {ts : List (Term Single)} (hts : ∀ t ∈ ts, T t) :
    Preserves (fun s => V s.values) (c.repairAll ts) :=
  keeps_repairAll (fun t ht _ _ hs h => untouched_repair hV (hts t ht) h hs)
    fun _ _ _ _ _ _ => trivial

/-- What the writes of a sweep do not touch holds after it, also when it fails. -/
theorem untouched_sweep (hitems : ∀ t, .ok t ∈ items → T t) (hs : V s.values)
    (hheld : s.held = #[]) : V (finalState (c.sweep items s)).values := by
  have hvisit := untouched_visitAll hV hitems
  have hstart : V s.values ∧ ∀ u ∈ s.held, T u :=
    ⟨hs, fun u hu => absurd (hheld ▸ hu) (Array.not_mem_empty u)⟩
  unfold sweep
  cases hrun : c.visitAll items s with
  | error e u =>
    rw [bind_error hrun]
    exact (hvisit.error hstart hrun).2.1
  | ok _ u =>
    obtain ⟨_, hu, hterms⟩ := hvisit.ok hstart hrun
    rw [bind_ok hrun, bind_ok (get_apply u)]
    exact (untouched_repairAll hV fun t ht => hterms t (Array.mem_toList_iff.mp ht)).finalState hu

end PassContext

/-! ## Runs -/

/-- The kind and the initial value of each atom. -/
def AtomTable.stock (t : AtomTable) : Array (AtomKind × Single) :=
  t.atoms.map fun a => (a.kind, a.initial)

@[simp] theorem AtomTable.size_stock (t : AtomTable) : t.stock.size = t.size := Array.size_map ..

@[simp] theorem AtomTable.stock_commit (t : AtomTable) : t.commit.stock = t.stock := by
  refine Array.ext (by simp [stock, commit, t.size_values]) fun i h₁ h₂ => ?_
  simp [stock, commit]

theorem AtomTable.kinds_eq (t : AtomTable) : t.kinds = t.stock.map (·.1) := by
  rw [kinds, stock, Array.map_map]
  rfl

/-- What the runs from stores with `J` do not touch: on the way such stores list terms with `T`, and
`V` is not touched by the writes at their variables. -/
structure Writes {σ : Type} [TermStore σ] (stock : Array (AtomKind × Single))
    (T : Term Single → Prop) (V : Array Single → Prop) (J : σ → Prop) : Prop where
  untouched : Untouched (stock.map (·.1)) T V
  beginRun : Preserves J TermStore.beginRun
  terms : Keeps J (fun items => ∀ t, .ok t ∈ items → T t) (fun _ => True) TermStore.terms
  withAtoms : ∀ {s} {t : AtomTable}, t.size = (TermStore.atoms s).size → J s →
    J (TermStore.withAtoms t s)
  endPass : ∀ {s}, J s → J (TermStore.endPass s)

/-- A run in which the atoms, their values and those after each pass are as they should be. -/
structure Run.IsUntouched {σ : Type} [TermStore σ] (stock : Array (AtomKind × Single))
    (V : Array Single → Prop) (J : σ → Prop) (r : Run σ) : Prop where
  store : J r.store
  stock_eq : (TermStore.atoms r.store).stock = stock
  values : V (TermStore.atoms r.store).values
  passes : ∀ pass ∈ r.passes, V pass.values

namespace Writes

open Descent

variable {σ : Type} [TermStore σ] {stock : Array (AtomKind × Single)}
  {T : Term Single → Prop} {V : Array Single → Prop} {J : σ → Prop} {o : DescentOptions} {n : Nat}
  {p : Progress}

/-- What an operation keeps that leaves the atoms alone. -/
theorem keeps_onStore_of_atoms {α : Type} {Q : α → Prop} {x : EStateM Fault σ α}
    (hatoms : ∀ s, TermStore.atoms (finalState (x s)) = TermStore.atoms s)
    (hx : Keeps J Q (fun _ => True) x) :
    Keeps (Run.IsUntouched stock V J) Q (fun _ => True) (onStore x) := by
  intro r hr
  have hsame := hatoms r.store
  unfold onStore
  cases hrun : x r.store with
  | ok a s =>
    rw [hrun, finalState_ok] at hsame
    obtain ⟨ha, hs⟩ := hx.ok hr.store hrun
    exact ⟨ha, hs, hsame ▸ hr.stock_eq, hsame ▸ hr.values, hr.passes⟩
  | error e s =>
    rw [hrun] at hsame
    exact ⟨trivial, (hx.error hr.store hrun).2, hsame ▸ hr.stock_eq, hsame ▸ hr.values, hr.passes⟩

theorem keeps_atoms :
    Keeps (Run.IsUntouched stock V J) (fun t => t.stock = stock ∧ V t.values) (fun _ => True)
      (atoms (σ := σ)) :=
  fun _ hr => ⟨⟨hr.stock_eq, hr.values⟩, hr⟩

/-- The values that a pass hands on, when there has been one. -/
def HandsOn (V : Array Single → Prop) (n : Nat) (p : Progress) : Prop :=
  n ≠ 0 → V p.previous ∧ V p.best.values

theorem values_offer {values : Array Single} (hbest : V p.best.values) (hvalues : V values)
    (objective : Double) (iteration : Nat) :
    V (p.best.offer objective iteration values).values := by
  unfold Snapshot.offer
  split
  · exact hvalues
  · exact hbest

variable [LawfulTermStore σ]

/-- What an operation on the atoms keeps. -/
theorem keeps_onAtoms (h : Writes stock T V J) {α : Type} {op : EStateM Fault AtomTable α}
    (hop : Preserves (fun t => t.stock = stock ∧ V t.values) op) :
    Preserves (Run.IsUntouched stock V J) (onStore (TermStore.onAtoms op)) := by
  refine .of_finalState fun r hr => ?_
  have hnext (t : AtomTable) (ht : t.stock = stock ∧ V t.values) :
      Run.IsUntouched stock V J { r with store := TermStore.withAtoms t r.store } := by
    have hsize : t.size = (TermStore.atoms r.store).size := by
      rw [← t.size_stock, ht.1, ← hr.stock_eq, AtomTable.size_stock]
    refine ⟨h.withAtoms hsize hr.store, ?_, ?_, hr.passes⟩
    · rw [LawfulTermStore.atoms_withAtoms, ht.1]
    · rw [LawfulTermStore.atoms_withAtoms]
      exact ht.2
  have hafter := hop.finalState ⟨hr.stock_eq, hr.values⟩
  unfold onStore TermStore.onAtoms
  cases hrun : op (TermStore.atoms r.store) <;> rw [hrun] at hafter <;> exact hnext _ hafter

theorem keeps_setValues (h : Writes stock T V J) {values : Array Single} (hvalues : V values) :
    Preserves (Run.IsUntouched stock V J)
      (onStore (TermStore.onAtoms (AtomTable.setValues values))) :=
  h.keeps_onAtoms (AtomTable.keeps_setValues fun _ _ ht => ⟨ht.1, hvalues⟩)

theorem keeps_sync (h : Writes stock T V J) :
    Preserves (Run.IsUntouched stock V J) (onStore TermStore.sync) :=
  h.keeps_onAtoms (AtomTable.keeps_sync (fun t ht => ⟨t.stock_commit.trans ht.1, ht.2⟩)
    fun _ _ _ ht => ht)

theorem keeps_sweepStore (h : Writes stock T V J) {c : PassContext}
    (hkinds : c.kinds = stock.map (·.1)) {start : Array Single → PassState}
    (hvalues : ∀ values, (start values).values = values)
    (hheld : ∀ values, (start values).held = #[]) :
    Keeps (Run.IsUntouched stock V J) (fun s => V s.values) (fun _ => True)
      (sweepStore c start) := by
  refine (keeps_onStore_of_atoms LawfulTermStore.atoms_terms h.terms).bind fun items hitems =>
    keeps_atoms.bind fun t ht => ?_
  have hstart : V (start t.values).values := (hvalues t.values).symm ▸ ht.2
  have hsweep := PassContext.untouched_sweep (hkinds ▸ h.untouched) hitems hstart (hheld t.values)
  cases hs : c.sweep items (start t.values) <;> rw [hs] at hsweep
  · exact (h.keeps_setValues hsweep).bind fun _ _ => Keeps.pure hsweep
  · exact (h.keeps_setValues hsweep).bind fun _ _ => Keeps.throw trivial

theorem keeps_record (h : Writes stock T V J) {pass : Pass} (hpass : V pass.values) :
    Preserves (Run.IsUntouched stock V J) (record (σ := σ) pass) := by
  refine Keeps.modify fun r hr => ⟨h.endPass hr.store, ?_, ?_, fun q hq => ?_⟩
  · rw [LawfulTermStore.atoms_endPass]
    exact hr.stock_eq
  · rw [LawfulTermStore.atoms_endPass]
    exact hr.values
  · cases Array.mem_push.mp hq with
    | inl hq => exact hr.passes q hq
    | inr hq => exact hq ▸ hpass

theorem keeps_pass (h : Writes stock T V J) (hp : HandsOn V n p) :
    Keeps (Run.IsUntouched stock V J) (fun q => HandsOn V (n + 1) q.1) (fun _ => True)
      (pass (σ := σ) o (stock.map (·.1)) (n + 1) p) := by
  refine Descent.keeps_pass (P := HandsOn V) (h.keeps_sweepStore rfl (fun _ => rfl) fun _ => rfl)
    (fun _ _ hs => h.keeps_record hs) (fun _ _ hs _ => ⟨hs, hs⟩) (fun hlater _ hs _ => ?_)
    fun _ _ _ _ => trivial
  obtain ⟨hprevious, hbest⟩ := hp (by omega)
  exact ⟨hs, values_offer hbest hprevious _ _⟩

theorem keeps_settle (h : Writes stock T V J) {iterations : Nat} (hbest : V p.best.values) :
    Preserves (Run.IsUntouched stock V J) (settle (σ := σ) iterations p) := by
  have hterms : Preserves J TermStore.terms := h.terms.mono (fun _ _ => trivial) fun _ h => h
  refine (keeps_onStore_of_atoms atoms_evaluate (keeps_evaluate hterms)).bind fun last _ => ?_
  refine keeps_atoms.bind fun t ht => ?_
  refine (h.keeps_setValues (values_offer hbest ht.2 _ _)).bind fun _ _ => ?_
  exact h.keeps_sync.bind fun _ _ => Keeps.pure trivial

/-- **What a run does not touch** it leaves as it is, after each pass and at its end, also when it
fails. -/
theorem keeps_optimize (h : Writes stock T V J) (d : Descent) (cancelled : Nat → Bool) :
    Preserves (Run.IsUntouched stock V J) (optimize (σ := σ) d cancelled) := by
  refine (keeps_onStore_of_atoms LawfulTermStore.atoms_beginRun h.beginRun).bind fun _ _ => ?_
  refine keeps_atoms.bind fun t ht => ?_
  rw [t.kinds_eq, ht.1]
  refine (keeps_passesFrom (P := HandsOn V) (fun n p hp => h.keeps_pass hp) (fun _ _ => trivial)
    fun h => absurd rfl h).bind fun q hq => ?_
  have hpositive : 0 < maxPasses d.options := Nat.lt_of_lt_of_le Nat.two_pos (Nat.le_max_left ..)
  exact h.keeps_settle (hq.2.2 (Nat.pos_iff_ne_zero.mp (hq.2.1 hpositive))).2

end Writes

end HingeLoss

import HingeLoss.Proofs.Store.Accepting
import HingeLoss.Proofs.Store.Working

/-!
# HingeLoss.Proofs.Store.Schedules

Workers at a store in memory: what they leave does not depend on the schedule.

1. as long as no worker has failed, the terms that are stored and those that the workers hold are
   the terms of the ground rules claimed so far (`Orderly`), and a worker only fails over ground
   rules that cannot be added in order either (`Orderly.step`);
2. a worker that fails for want of room has found the store full (`Stocked`);
3. so when all workers are done, they have either added everything, or they have failed where one
   worker fails as well (`run_gather_cases`).
-/

namespace HingeLoss

/-! ## While nothing fails -/

/-- A worker that has not failed, and that is only done if the work is over. -/
structure Worker.IsCalm (w : Worker) (allClaimed : Prop) : Prop where
  fault?_eq : w.fault? = none
  inserted_eq : (∀ left, w.phase ≠ .inserting left) → w.inserted = 0
  isOver : w.phase = .finished none → allClaimed

theorem Worker.IsCalm.mono {w : Worker} {p q : Prop} (h : w.IsCalm p) (hpq : p → q) :
    w.IsCalm q := ⟨h.fault?_eq, h.inserted_eq, fun hdone => hpq (h.isOver hdone)⟩

theorem Worker.isCalm_of_ne {w : Worker} {p : Prop} (hfault : w.fault? = none)
    (hinserted : (∀ left, w.phase ≠ .inserting left) → w.inserted = 0)
    (hphase : w.phase ≠ .finished none) : w.IsCalm p :=
  ⟨hfault, hinserted, fun hdone => absurd hdone hphase⟩

namespace MemoryStore

open TermStore

variable {s : MemoryStore} {ts : List (Term Single)} {gs : List (GroundRule Single)}
  {c c' : Crew MemoryStore} {before after : List Worker} {w w' : Worker}

/-- A crew at work on the ground rules `gs` that has stored the terms `ts` so far, and in which no
worker has failed. -/
structure Orderly (s : MemoryStore) (gs : List (GroundRule Single)) (c : Crew MemoryStore)
    (ts : List (Term Single)) : Prop where
  store_eq : c.store = s.extend ts
  rules_eq : c.rules = gs.toArray
  failed_eq : c.failed = false
  accepted_eq : s.accepted ts = ts
  grounds : ∀ g ∈ gs.take c.next, ground s g = .ok g.terms
  /-- The terms of the claimed ground rules are stored, or a worker still holds them. -/
  perm : (ts ++ c.workers.toList.flatMap (·.pending)).Perm ((gs.take c.next).flatMap (·.terms))
  counted : (c.workers.toList.map fun w => w.added + w.inserted).sum = ts.length
  calm : ∀ w ∈ c.workers.toList, w.IsCalm (gs.length ≤ c.next)

namespace Orderly

/-- What one worker holds, apart from the others. -/
theorem perm_pending (before after : List Worker) (w : Worker) :
    ((before ++ w :: after).flatMap (·.pending)).Perm
      (w.pending ++ (before ++ after).flatMap (·.pending)) :=
  List.perm_middle.flatMap_right _

/-- The step of a worker that goes on: it may claim the terms `extra`, and it may store some of the
terms that it holds. -/
theorem replace (h : Orderly s gs c ts) (hworkers : c.workers.toList = before ++ w :: after)
    (w' : Worker) {ts' extra : List (Term Single)} {next : Nat} (hnext : c.next ≤ next)
    (haccepted : s.accepted ts' = ts') (hgrounds : ∀ g ∈ gs.take next, ground s g = .ok g.terms)
    (hclaimed : (gs.take next).flatMap (·.terms) = (gs.take c.next).flatMap (·.terms) ++ extra)
    (hpending : ts' ++ w'.pending = ts ++ w.pending ++ extra)
    (hcounted : w'.added + w'.inserted + ts.length = w.added + w.inserted + ts'.length)
    (hcalm : w'.IsCalm (gs.length ≤ next)) :
    Orderly s gs { c with
      store := s.extend ts', next, workers := (before ++ w' :: after).toArray } ts' := by
  have hperm := h.perm
  have hsum := h.counted
  have hall := h.calm
  rw [hworkers] at hperm hsum hall
  refine ⟨rfl, h.rules_eq, h.failed_eq, haccepted, hgrounds, ?_, ?_, ?_⟩
  · have hold := ((perm_pending before after w).symm.append_left ts).trans hperm
    have hnew := (perm_pending before after w').append_left ts'
    rw [← List.append_assoc, hpending] at hnew
    rw [hclaimed]
    refine hnew.trans (List.Perm.trans ?_ (hold.append_right extra))
    simp only [List.append_assoc]
    exact ((List.perm_append_comm).append_left _).append_left _
  · simp only [List.map_append, List.map_cons, List.sum_append, List.sum_cons] at hsum ⊢
    omega
  · intro v hv
    rw [List.mem_append, List.mem_cons] at hv
    have hover : gs.length ≤ c.next → gs.length ≤ next := fun hle => Nat.le_trans hle hnext
    obtain hv | rfl | hv := hv
    · exact (hall v (List.mem_append_left _ hv)).mono hover
    · exact hcalm
    · exact (hall v (List.mem_append_right _ (List.mem_cons_of_mem _ hv))).mono hover

/-- A step that neither claims nor stores. -/
theorem quiet (h : Orderly s gs c ts) (hworkers : c.workers.toList = before ++ w :: after)
    (hheld : w.pending = []) (hheld' : w'.pending = [])
    (hcounted : w'.added + w'.inserted = w.added + w.inserted)
    (hcalm : w'.IsCalm (gs.length ≤ c.next)) :
    Orderly s gs { c with workers := (before ++ w' :: after).toArray } ts := by
  have hpending : ts ++ w'.pending = ts ++ w.pending ++ [] := by
    simp only [hheld, hheld', List.append_nil]
  have hnext := h.replace hworkers w' (Nat.le_refl c.next) h.accepted_eq h.grounds
    (List.append_nil _).symm hpending (by omega) hcalm
  rwa [← h.store_eq] at hnext

/-- There is nothing left to claim. -/
theorem exhaust (h : Orderly s gs c ts) (hworkers : c.workers.toList = before ++ w :: after)
    (hphase : w.phase = .claiming) (hinserted : w.inserted = 0) (hover : gs.length ≤ c.next) :
    Orderly s gs { c with
      next := c.next + 1
      workers := (before ++ { w with phase := .finished none, inserted := 0 } :: after).toArray }
      ts := by
  have htake : gs.take (c.next + 1) = gs.take c.next := by
    rw [List.take_of_length_le hover, List.take_of_length_le (Nat.le_succ_of_le hover)]
  have hpending : ts ++ [] = ts ++ w.pending ++ [] := by
    simp only [Worker.pending, hphase, List.append_nil]
  have hnext := h.replace hworkers { w with phase := .finished none, inserted := 0 }
    (Nat.le_succ c.next) h.accepted_eq (htake ▸ h.grounds) (by rw [htake, List.append_nil])
    hpending (by rw [hinserted]) ⟨rfl, fun _ => rfl, fun _ => Nat.le_succ_of_le hover⟩
  rwa [← h.store_eq] at hnext

/-- The terms of a ground rule that is claimed are held by the worker. -/
theorem claim (h : Orderly s gs c ts) (hworkers : c.workers.toList = before ++ w :: after)
    (hphase : w.phase = .claiming) (hinserted : w.inserted = 0) {g : GroundRule Single}
    (hg : gs[c.next]? = some g) (hground : ground s g = .ok g.terms) :
    Orderly s gs { c with
      next := c.next + 1
      workers := (before ++ { w with phase := .inserting g.terms, inserted := 0 } ::
        after).toArray } ts := by
  have htake : gs.take (c.next + 1) = gs.take c.next ++ [g] := by
    rw [List.take_add_one, hg, Option.toList_some]
  have hgrounds : ∀ g' ∈ gs.take (c.next + 1), ground s g' = .ok g'.terms := by
    rw [htake]
    exact List.forall_mem_append.mpr ⟨h.grounds, List.forall_mem_singleton.mpr hground⟩
  have hpending : ts ++ g.terms = ts ++ w.pending ++ g.terms := by
    rw [Worker.pending, hphase, List.append_nil]
  have hnext := h.replace hworkers { w with phase := .inserting g.terms, inserted := 0 }
    (Nat.le_succ c.next) h.accepted_eq hgrounds
    (by rw [htake, List.flatMap_append, List.flatMap_singleton]) hpending (by rw [hinserted])
    (Worker.isCalm_of_ne rfl (fun _ => rfl) WorkerPhase.noConfusion)
  rwa [← h.store_eq] at hnext

/-- A term that is inserted passes from the worker to the store. -/
theorem insert (h : Orderly s gs c ts) (hworkers : c.workers.toList = before ++ w :: after)
    {t : Term Single} {left : List (Term Single)} (hphase : w.phase = .inserting (t :: left))
    (haccepted : s.accepted (ts ++ [t]) = ts ++ [t]) :
    Orderly s gs { c with
      store := s.extend (ts ++ [t])
      workers := (before ++ { w with phase := .inserting left, inserted := w.inserted + 1 } ::
        after).toArray } (ts ++ [t]) := by
  have hpending : ts ++ [t] ++ left = ts ++ w.pending ++ [] := by
    simp only [Worker.pending, hphase, List.append_nil, List.append_assoc, List.singleton_append]
  have hcounted : w.added + (w.inserted + 1) + ts.length =
      w.added + w.inserted + (ts ++ [t]).length := by
    rw [List.length_append, List.length_singleton]
    omega
  exact h.replace hworkers { w with phase := .inserting left, inserted := w.inserted + 1 }
    (Nat.le_refl c.next) haccepted h.grounds (List.append_nil _).symm hpending hcounted
    (Worker.isCalm_of_ne rfl (fun hother => absurd rfl (hother left)) WorkerPhase.noConfusion)

/-- The terms of the claimed ground rules are among those of all. -/
theorem claimed_prefix (gs : List (GroundRule Single)) (n : Nat) :
    (gs.take n).flatMap (·.terms) <+: gs.flatMap (·.terms) := by
  have hsplit := congrArg (List.flatMap (·.terms)) (List.take_append_drop n gs)
  rw [List.flatMap_append] at hsplit
  exact ⟨_, hsplit⟩

/-- A term that a worker holds is accepted, if the terms of all ground rules are. -/
theorem accepted_concat (h : Orderly s gs c ts) (hworkers : c.workers.toList = before ++ w :: after)
    {t : Term Single} {left : List (Term Single)} (hphase : w.phase = .inserting (t :: left))
    (hall : s.AcceptsAll gs) : s.accepted (ts ++ [t]) = ts ++ [t] := by
  have hheld : w.pending = t :: left := by rw [Worker.pending, hphase]
  have hperm := h.perm
  rw [hworkers] at hperm
  have hnow := ((perm_pending before after w).symm.append_left ts).trans hperm
  rw [hheld, List.cons_append, List.append_cons] at hnow
  have happended := List.prefix_append (ts ++ [t])
    (left ++ (before ++ after).flatMap (·.pending))
  have hclaimed := claimed_prefix gs c.next
  refine accepted_of_subset (fun u hu => ?_) ?_ hall.accepted_eq
  · exact hclaimed.subset (hnow.subset (happended.subset hu))
  · exact Nat.le_trans (hnow.length_eq ▸ happended.length_le) hclaimed.length_le

/-- The ground rule that is claimed next is one of all. -/
theorem getElem?_of_rules (h : Orderly s gs c ts) {g : GroundRule Single}
    (hg : c.rules[c.next]? = some g) : gs[c.next]? = some g := by
  rwa [h.rules_eq, List.getElem?_toArray] at hg

/-- A ground rule that is refused when it is claimed is refused in order as well. -/
theorem not_acceptsAll_of_refused (h : Orderly s gs c ts) {g : GroundRule Single} {e : Fault}
    (hg : c.rules[c.next]? = some g) (hground : ground c.store g = .error e) :
    ¬ s.AcceptsAll gs := by
  intro hall
  rw [h.store_eq, ground_extend, hall.grounds g (List.mem_of_getElem? (h.getElem?_of_rules hg))]
    at hground
  contradiction

/-- A term that is refused when it is inserted is refused in order as well. -/
theorem not_acceptsAll_of_rejected (h : Orderly s gs c ts)
    (hworkers : c.workers.toList = before ++ w :: after) {t : Term Single}
    {left : List (Term Single)} (hphase : w.phase = .inserting (t :: left)) {e : Fault}
    {store : MemoryStore} (hinsert : MemoryStore.insert t c.store = .error e store) :
    ¬ s.AcceptsAll gs := by
  intro hall
  have haccepted := h.accepted_concat hworkers hphase hall
  rw [h.store_eq, (insert_extend_eq_ok_iff h.accepted_eq).mpr ⟨haccepted, rfl⟩] at hinsert
  contradiction

/-- **A step keeps order or finds a reason to fail.**  While no worker has failed, a worker only
fails over ground rules that the store cannot accept in order either. -/
theorem step (h : Orderly s gs c ts) (i : Nat) :
    (∃ ts', Orderly s gs (c.step i) ts') ∨ ¬ s.AcceptsAll gs ∧ (c.step i).Faulty := by
  cases hi : c.workers[i]? with
  | none =>
    rw [Crew.step_of_none hi]
    exact .inl ⟨ts, h⟩
  | some w =>
    obtain ⟨before, after, w', c', hworkers, hacts, hstep⟩ := Crew.step_of_some hi
    rw [hstep]
    have hcalm := h.calm w (by rw [hworkers]; exact List.mem_append_cons_self)
    cases hacts with
    | stop _ hfailed =>
      rw [h.failed_eq] at hfailed
      contradiction
    | start hphase _ =>
      have hnone : w.inserted = 0 := hcalm.inserted_eq (by simp [hphase])
      have hheld : w.pending = [] := by rw [Worker.pending, hphase]
      exact .inl ⟨ts, h.quiet hworkers hheld rfl rfl
        (Worker.isCalm_of_ne rfl (fun _ => hnone) WorkerPhase.noConfusion)⟩
    | exhaust hphase hsize =>
      have hnone : w.inserted = 0 := hcalm.inserted_eq (by simp [hphase])
      rw [h.rules_eq, List.size_toArray] at hsize
      exact .inl ⟨ts, h.exhaust hworkers hphase hnone hsize⟩
    | claim hphase hg hground =>
      have hnone : w.inserted = 0 := hcalm.inserted_eq (by simp [hphase])
      rw [h.store_eq, ground_extend] at hground
      exact .inl ⟨ts, h.claim hworkers hphase hnone (h.getElem?_of_rules hg) hground⟩
    | refuse _ hg hground =>
      exact .inr ⟨h.not_acceptsAll_of_refused hg hground, _, List.mem_append_cons_self, _, rfl⟩
    | complete hphase =>
      have hheld : w.pending = [] := by rw [Worker.pending, hphase]
      exact .inl ⟨ts, h.quiet hworkers hheld rfl rfl
        (Worker.isCalm_of_ne rfl (fun _ => rfl) WorkerPhase.noConfusion)⟩
    | insert hphase hinsert =>
      rw [h.store_eq] at hinsert
      obtain ⟨haccepted, rfl⟩ := (insert_extend_eq_ok_iff h.accepted_eq).mp hinsert
      exact .inl ⟨_, h.insert hworkers hphase haccepted⟩
    | reject hphase hinsert =>
      exact .inr ⟨h.not_acceptsAll_of_rejected hworkers hphase hinsert, _,
        List.mem_append_cons_self, _, rfl⟩
    | raise hphase =>
      have hfault := hcalm.fault?_eq
      simp only [Worker.fault?, hphase] at hfault
      contradiction
    | rest hphase =>
      have hheld : w.pending = [] := by rw [Worker.pending, hphase]
      exact .inl ⟨ts, h.quiet hworkers hheld hheld rfl hcalm⟩

/-- **Work without failure adds the terms of all ground rules.** -/
theorem done (h : Orderly s gs c ts) (hdone : c.isDone = true) (hworkers : 0 < c.workers.size) :
    s.AcceptsAll gs ∧ ts.Perm (gs.flatMap (·.terms)) ∧ c.result = .ok ts.length := by
  have hphase : ∀ w ∈ c.workers.toList, w.phase = .finished none := by
    intro w hw
    have hfinished := Array.all_eq_true_iff_forall_mem.mp hdone w (Array.mem_toList_iff.mp hw)
    have hnone := (h.calm w hw).fault?_eq
    unfold Crew.isFinished at hfinished
    cases hw : w.phase with
    | finished why =>
      rw [Worker.fault?, hw] at hnone
      exact congrArg WorkerPhase.finished hnone
    | _ =>
      rw [hw] at hfinished
      contradiction
  have hover : gs.length ≤ c.next := by
    have hfirst := Array.getElem_mem_toList hworkers
    exact (h.calm _ hfirst).isOver (hphase _ hfirst)
  have hheld : c.workers.toList.flatMap (·.pending) = [] :=
    List.flatMap_eq_nil_iff.mpr fun w hw => by rw [Worker.pending, hphase w hw]
  have hperm := h.perm
  have hgrounds := h.grounds
  rw [List.take_of_length_le hover] at hgrounds hperm
  rw [hheld, List.append_nil] at hperm
  refine ⟨⟨hgrounds, ?_⟩, hperm, ?_⟩
  · exact accepted_of_subset hperm.symm.subset (Nat.le_of_eq hperm.length_eq.symm) h.accepted_eq
  · obtain ⟨_, hresult⟩ | ⟨e, _, w, hw, hfault⟩ := Crew.result_cases hdone
    · have hadded : c.workers.toList.map (·.added) =
          c.workers.toList.map fun w => w.added + w.inserted := by
        refine List.map_congr_left fun w hw => ?_
        have hnone := (h.calm w hw).inserted_eq (by simp [hphase w hw])
        rw [hnone, Nat.add_zero]
      rw [hresult, hadded, h.counted]
    · rw [(h.calm w hw).fault?_eq] at hfault
      contradiction

end Orderly

/-! ## When there is no room -/

/-- A crew that has stored the terms `ts` so far.  Its workers only run out of room at a full
store. -/
structure Stocked (s : MemoryStore) (c : Crew MemoryStore) (ts : List (Term Single)) : Prop where
  store_eq : c.store = s.extend ts
  accepted_eq : s.accepted ts = ts
  full : ∀ w ∈ c.workers.toList, ∀ i limit, w.fault? = some (.capacity .term i limit) →
    s.capacity = some limit ∧ limit ≤ s.terms.size + ts.length

namespace Stocked

/-- The step of a worker that only runs out of room at a full store. -/
theorem replace (h : Stocked s c ts) (hworkers : c.workers.toList = before ++ w :: after)
    {ts' : List (Term Single)} (hlength : ts.length ≤ ts'.length) (haccepted : s.accepted ts' = ts')
    (hfull : ∀ i limit, w'.fault? = some (.capacity .term i limit) →
      s.capacity = some limit ∧ limit ≤ s.terms.size + ts'.length)
    (hstore : c'.store = s.extend ts') :
    Stocked s { c' with workers := (before ++ w' :: after).toArray } ts' := by
  have hall := h.full
  rw [hworkers] at hall
  refine ⟨hstore, haccepted, fun v hv i limit hfault => ?_⟩
  rw [List.mem_append, List.mem_cons] at hv
  have hother (hv : v ∈ before ++ w :: after) :
      s.capacity = some limit ∧ limit ≤ s.terms.size + ts'.length := by
    obtain ⟨hcapacity, hle⟩ := hall v hv i limit hfault
    exact ⟨hcapacity, by omega⟩
  obtain hv | rfl | hv := hv
  · exact hother (List.mem_append_left _ hv)
  · exact hfull i limit hfault
  · exact hother (List.mem_append_right _ (List.mem_cons_of_mem _ hv))

theorem step (h : Stocked s c ts) (i : Nat) : ∃ ts', Stocked s (c.step i) ts' := by
  cases hi : c.workers[i]? with
  | none =>
    rw [Crew.step_of_none hi]
    exact ⟨ts, h⟩
  | some w =>
    obtain ⟨before, after, w', c', hworkers, hacts, hstep⟩ := Crew.step_of_some hi
    have hw := h.full w (by rw [hworkers]; exact List.mem_append_cons_self)
    rw [hstep]
    cases hacts with
    | @refuse g e _ _ hground =>
      refine ⟨ts, h.replace hworkers (Nat.le_refl _) h.accepted_eq (fun i limit hfault => ?_)
        h.store_eq⟩
      injection hfault with hfault
      subst hfault
      exact absurd hground ground_ne_capacity
    | @insert t left store _ hinsert =>
      rw [h.store_eq] at hinsert
      obtain ⟨haccepted, rfl⟩ := (insert_extend_eq_ok_iff h.accepted_eq).mp hinsert
      have hlength : ts.length ≤ (ts ++ [t]).length := by
        rw [List.length_append]
        exact Nat.le_add_right _ _
      exact ⟨_, h.replace hworkers hlength haccepted (fun _ _ hfault => by cases hfault) rfl⟩
    | @reject t left e store _ hinsert =>
      rw [h.store_eq] at hinsert
      cases hcheck : (s.extend ts).checkInsert t with
      | ok _ =>
        have hok := insert_eq_ok hcheck
        change MemoryStore.insert t _ = _ at hinsert
        rw [hok] at hinsert
        contradiction
      | error e' =>
        have herror := insert_eq_error hcheck
        change MemoryStore.insert t _ = _ at hinsert
        rw [herror] at hinsert
        injection hinsert with he hstore
        subst he hstore
        refine ⟨ts, h.replace hworkers (Nat.le_refl _) h.accepted_eq (fun i limit hfault => ?_) rfl⟩
        injection hfault with hfault
        subst hfault
        have hfull := checkInsert_eq_capacity hcheck
        simpa only [extend, Array.size_append, List.size_toArray] using hfull
    | raise hphase =>
      refine ⟨ts, h.replace hworkers (Nat.le_refl _) h.accepted_eq (fun i limit hfault => ?_)
        h.store_eq⟩
      refine hw i limit ?_
      rw [Worker.fault?, hphase]
      exact hfault
    | rest _ => exact ⟨ts, h.replace hworkers (Nat.le_refl _) h.accepted_eq hw h.store_eq⟩
    | _ =>
      exact ⟨ts, h.replace hworkers (Nat.le_refl _) h.accepted_eq
        (fun _ _ hfault => by cases hfault) h.store_eq⟩

/-- A crew of which a worker has run out of room leaves as many terms as there is room for, or as
there were. -/
theorem size_eq (h : Stocked s c ts) (hw : w ∈ c.workers.toList) {i limit : Nat}
    (hfault : w.fault? = some (.capacity .term i limit)) :
    s.capacity = some limit ∧ c.store.terms.size = max limit s.terms.size := by
  obtain ⟨hcapacity, hle⟩ := h.full w hw i limit hfault
  refine ⟨hcapacity, ?_⟩
  have hsize : c.store.terms.size = s.terms.size + ts.length := by
    simp only [h.store_eq, extend, Array.size_append, List.size_toArray]
  obtain ⟨_, _, hnone | hroom⟩ := accepted_eq_self_iff.mp h.accepted_eq
  · omega
  · have := hroom limit hcapacity
    omega

end Stocked

/-! ## Whole schedules -/

theorem orderly_gather (s : MemoryStore) (gs : List (GroundRule Single)) (n : Nat) :
    Orderly s gs (Crew.gather s gs.toArray n) [] where
  store_eq := (extend_nil s).symm
  rules_eq := rfl
  failed_eq := rfl
  accepted_eq := rfl
  grounds _ hg := absurd hg List.not_mem_nil
  perm := by
    have hnone : (Crew.gather s gs.toArray n).workers.toList.flatMap (·.pending) = [] := by
      simp [Crew.gather, Worker.pending]
    rw [hnone]
    exact List.Perm.refl []
  counted := by simp [Crew.gather]
  calm w hw := by
    have hfresh : w = {} := by
      simp only [Crew.gather, Array.toList_replicate, List.mem_replicate] at hw
      exact hw.2
    subst hfresh
    exact Worker.isCalm_of_ne rfl (fun _ => rfl) WorkerPhase.noConfusion

theorem stocked_gather (s : MemoryStore) (gs : List (GroundRule Single)) (n : Nat) :
    Stocked s (Crew.gather s gs.toArray n) [] where
  store_eq := (extend_nil s).symm
  accepted_eq := rfl
  full w hw i limit hfault := by
    rw [((orderly_gather s gs n).calm w hw).fault?_eq] at hfault
    contradiction

/-- What workers come to that are done: they have added everything that is to be added, or one of
them has failed, and then the ground rules cannot be added in order either. -/
theorem run_gather_cases (s : MemoryStore) (gs : List (GroundRule Single)) {n : Nat} (hn : 0 < n)
    (schedule : List Nat) {c : Crew MemoryStore}
    (hc : (Crew.gather s gs.toArray n).run schedule = c) (hdone : c.isDone = true) :
    s.AcceptsAll gs ∧ (∃ ts, ts.Perm (gs.flatMap (·.terms)) ∧ c.store = s.extend ts) ∧
        c.result = .ok (gs.flatMap (·.terms)).length ∨
      ¬ s.AcceptsAll gs ∧ ∃ e, c.result = .error e ∧
        ∀ i limit, e = .capacity .term i limit →
          s.capacity = some limit ∧ c.store.terms.size = max limit s.terms.size := by
  have hsize : c.workers.size = n := by
    rw [← hc, Crew.size_workers_run]
    exact Array.size_replicate
  have hstocked : ∃ ts, Stocked s c ts := by
    subst hc
    refine Crew.run_keeps (I := fun c => ∃ ts, Stocked s c ts) (fun c i h => ?_)
      ⟨[], stocked_gather s gs n⟩ schedule
    obtain ⟨ts, h⟩ := h
    exact h.step i
  have hcourse : (∃ ts, Orderly s gs c ts) ∨ ¬ s.AcceptsAll gs ∧ c.Faulty := by
    subst hc
    refine Crew.run_keeps (I := fun c => (∃ ts, Orderly s gs c ts) ∨ ¬ s.AcceptsAll gs ∧ c.Faulty)
      (fun c i h => ?_) (.inl ⟨[], orderly_gather s gs n⟩) schedule
    obtain ⟨ts, h⟩ | ⟨hnone, hfaulty⟩ := h
    · exact h.step i
    · exact .inr ⟨hnone, hfaulty.step i⟩
  obtain ⟨ts, h⟩ | ⟨hnone, v, hv, f, hf⟩ := hcourse
  · obtain ⟨hall, hperm, hresult⟩ := h.done hdone (hsize ▸ hn)
    exact .inl ⟨hall, ⟨ts, hperm, h.store_eq⟩, hperm.length_eq ▸ hresult⟩
  · refine .inr ⟨hnone, ?_⟩
    obtain ⟨hfine, _⟩ | ⟨e, hresult, w, hw, hfault⟩ := Crew.result_cases hdone
    · rw [hfine v hv] at hf
      contradiction
    · obtain ⟨us, hstocked⟩ := hstocked
      exact ⟨e, hresult, fun i limit he => hstocked.size_eq hw (he ▸ hfault)⟩

/-- The crew that is put to work on ground rules. -/
def crewFor (s : MemoryStore) (gs : List (GroundRule Single)) (workers : Nat) : Crew MemoryStore :=
  Crew.gather s gs.toArray (crewSize gs.length workers)

theorem addAll_one (gs : List (GroundRule Single)) (s : MemoryStore) :
    addAll gs 1 s = addInOrder gs s :=
  addAll_eq_addInOrder (by unfold crewSize; omega) s

/-- **The schedule decides nothing that matters.**  Whatever the order in which the workers take
their steps, each ground rule is claimed at most once, and the work comes to an end.  When it has,
it has succeeded exactly if one worker succeeds; then as many terms have been added, and the same
ones are stored.  If it has failed for want of room, the store is full, or as it was. -/
theorem run_crewFor_outcome (s : MemoryStore) (gs : List (GroundRule Single)) (workers : Nat)
    (schedule : List Nat) :
    ((s.crewFor gs workers).claims schedule).Nodup ∧
      (∃ more, ((s.crewFor gs workers).run (schedule ++ more)).isDone = true) ∧
      ∀ c, (s.crewFor gs workers).run schedule = c → c.isDone = true →
        ((∃ n, c.result = .ok n) ↔ ∃ n s', addAll gs 1 s = .ok n s') ∧
        (∀ n, c.result = .ok n → ∃ s', addAll gs 1 s = .ok n s' ∧
          c.store.terms.toList.Perm s'.terms.toList) ∧
        ∀ i limit, c.result = .error (.capacity .term i limit) →
          s.capacity = some limit ∧ c.store.terms.size = max limit s.terms.size := by
  refine ⟨Crew.nodup_claims _ _, ?_, fun c hc hdone => ?_⟩
  · obtain ⟨more, hmore⟩ := ((s.crewFor gs workers).run schedule).exists_isDone
    exact ⟨more, by rw [Crew.run_append, hmore]⟩
  have hpos : 0 < crewSize gs.length workers := Nat.lt_of_lt_of_le Nat.one_pos (Nat.le_max_left ..)
  rw [addAll_one]
  obtain ⟨hall, ⟨ts, hperm, hstore⟩, hresult⟩ | ⟨hnone, e, hresult, hfull⟩ :=
    run_gather_cases s gs hpos schedule hc hdone
  · have hadd := addInOrder_eq_ok_iff.mpr ⟨hall, rfl, rfl⟩
    refine ⟨⟨fun _ => ⟨_, _, hadd⟩, fun _ => ⟨_, hresult⟩⟩, fun n hn => ?_, fun i limit hn => ?_⟩
    · rw [hresult] at hn
      injection hn with hn
      subst hn
      refine ⟨_, hadd, ?_⟩
      simp only [hstore, extend, Array.toList_append]
      exact hperm.append_left _
    · rw [hresult] at hn
      contradiction
  · refine ⟨⟨fun hok => ?_, fun hok => ?_⟩, fun n hn => ?_, fun i limit hn => ?_⟩
    · obtain ⟨n, hn⟩ := hok
      rw [hresult] at hn
      contradiction
    · obtain ⟨n, s', hadd⟩ := hok
      exact absurd (addInOrder_eq_ok_iff.mp hadd).1 hnone
    · rw [hresult] at hn
      contradiction
    · rw [hresult] at hn
      injection hn with he
      exact hfull i limit he

/-- A store with three places. -/
def tightStore : MemoryStore where
  atoms := sampleAtoms
  capacity := some 3

/-- Two workers in turn at two equalities: the first one stores its terms, and the second one finds
no room for its last term. -/
theorem run_crewFor_tight :
    ∃ c, (tightStore.crewFor [sampleLimit, sampleLimit] 2).run
        [0, 1, 0, 1, 0, 1, 0, 1, 0, 1, 0, 1, 0, 0] = c ∧ c.isDone = true ∧
      c.result = .error (.capacity .term 3 3) ∧ c.store.terms.size = max 3 0 ∧
      ¬ ∃ n s', addAll [sampleLimit, sampleLimit] 1 tightStore = .ok n s' := by
  generalize hc : (tightStore.crewFor [sampleLimit, sampleLimit] 2).run _ = c
  have hresult : c.result = .error (.capacity .term 3 3) := by
    subst hc
    decide +kernel
  have hdone : c.isDone = true := by
    subst hc
    decide +kernel
  obtain ⟨_, _, houtcome⟩ := run_crewFor_outcome tightStore [sampleLimit, sampleLimit] 2
    [0, 1, 0, 1, 0, 1, 0, 1, 0, 1, 0, 1, 0, 0]
  obtain ⟨hiff, _, hfull⟩ := houtcome c hc hdone
  refine ⟨c, rfl, hdone, hresult, (hfull 3 3 hresult).2, fun hadd => ?_⟩
  obtain ⟨n, hn⟩ := hiff.mpr hadd
  rw [hresult] at hn
  contradiction

/-- Letting the workers work one after the other, as `addAll` does, comes to the same as one worker
up to the order of the terms. -/
theorem addAll_cases (gs : List (GroundRule Single)) (workers : Nat) (s : MemoryStore) :
    (∃ n s₁ s₂, addAll gs workers s = .ok n s₁ ∧ addAll gs 1 s = .ok n s₂ ∧
        s₁.terms.toList.Perm s₂.terms.toList) ∨
      (∃ e s₁, addAll gs workers s = .error e s₁) ∧ ∃ e s₂, addAll gs 1 s = .error e s₂ := by
  rw [addAll_one]
  by_cases hone : crewSize gs.length workers = 1
  · rw [addAll_eq_addInOrder hone]
    cases addInOrder gs s with
    | ok n s₁ => exact .inl ⟨n, s₁, s₁, rfl, rfl, List.Perm.refl _⟩
    | error e s₁ => exact .inr ⟨⟨e, s₁, rfl⟩, e, s₁, rfl⟩
  · obtain ⟨schedule, hrun, hdone⟩ :=
      Crew.exists_finish_eq s gs.toArray (crewSize gs.length workers)
    have hpos : 0 < crewSize gs.length workers :=
      Nat.lt_of_lt_of_le Nat.one_pos (Nat.le_max_left ..)
    generalize hc : (Crew.gather s gs.toArray (crewSize gs.length workers)).finish = c at hrun hdone
    obtain ⟨hall, ⟨ts, hperm, hstore⟩, hresult⟩ | ⟨hnone, e, hresult, _⟩ :=
      run_gather_cases s gs hpos schedule hrun.symm hdone
    · have hadd : addAll gs workers s = .ok (gs.flatMap (·.terms)).length c.store := by
        simp only [addAll, hone, ↓reduceIte, hc, hresult]
      refine .inl ⟨_, _, _, hadd, addInOrder_eq_ok_iff.mpr ⟨hall, rfl, rfl⟩, ?_⟩
      simp only [hstore, extend, Array.toList_append]
      exact hperm.append_left _
    · have hadd : addAll gs workers s = .error e c.store := by
        simp only [addAll, hone, ↓reduceIte, hc, hresult]
      refine .inr ⟨⟨e, c.store, hadd⟩, ?_⟩
      cases horder : addInOrder gs s with
      | ok n s₂ => exact absurd (addInOrder_eq_ok_iff.mp horder).1 hnone
      | error e s₂ => exact ⟨e, s₂, rfl⟩

end MemoryStore

end HingeLoss

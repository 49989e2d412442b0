import Mathlib.Algebra.Ring.Nat
import HingeLoss.Proofs.Store.Adding
import HingeLoss.Store.Crew

/-!
# HingeLoss.Proofs.Store.Working

Workers at a store, step by step, whatever the store and the schedule.

`Acts c w w' c'` lists what the step of a worker can do, and a step of the crew replaces the worker
that takes it (`step_of_some`).  From these,

1. the ground rules are claimed in their order, each at most once (`claims_eq`, `nodup_claims`);
2. every step of a worker that is not done uses up one of finitely many (`stepsLeft_step_lt`), so
   every schedule can be completed (`exists_isDone`).
-/

namespace HingeLoss

namespace Worker

variable {σ : Type} [TermStore σ]

/-- The terms that a worker has still to insert for its present ground rule. -/
def pending (w : Worker) : List (Term Single) :=
  match w.phase with
  | .inserting left => left
  | _ => []

/-- What has stopped a worker. -/
def fault? (w : Worker) : Option Fault :=
  match w.phase with
  | .failing e => some e
  | .finished why => why
  | _ => none

/-- What the step of a worker can do: its next state, and that of what the workers share. -/
inductive Acts (c : Crew σ) (w : Worker) : Worker → Crew σ → Prop where
  | stop : w.phase = .ready → c.failed = true → Acts c w { w with phase := .finished none } c
  | start : w.phase = .ready → c.failed = false → Acts c w { w with phase := .claiming } c
  | exhaust : w.phase = .claiming → c.rules.size ≤ c.next →
      Acts c w { w with phase := .finished none, inserted := 0 } { c with next := c.next + 1 }
  | claim {g} : w.phase = .claiming → c.rules[c.next]? = some g →
      TermStore.ground c.store g = .ok g.terms →
      Acts c w { w with phase := .inserting g.terms, inserted := 0 } { c with next := c.next + 1 }
  | refuse {g e} : w.phase = .claiming → c.rules[c.next]? = some g →
      TermStore.ground c.store g = .error e →
      Acts c w { w with phase := .failing e, inserted := 0 } { c with next := c.next + 1 }
  | complete : w.phase = .inserting [] →
      Acts c w { w with phase := .ready, added := w.added + w.inserted, inserted := 0 } c
  | insert {t left store} : w.phase = .inserting (t :: left) →
      TermStore.insert t c.store = .ok () store →
      Acts c w { w with phase := .inserting left, inserted := w.inserted + 1 } { c with store }
  | reject {t left e store} : w.phase = .inserting (t :: left) →
      TermStore.insert t c.store = .error e store →
      Acts c w { w with phase := .failing e } { c with store }
  | raise {e} : w.phase = .failing e →
      Acts c w { w with phase := .finished (some e) } { c with failed := true }
  | rest {why} : w.phase = .finished why → Acts c w w c

theorem acts_act (c : Crew σ) (w : Worker) : Acts c w (c.act w).1 (c.act w).2 := by
  unfold Crew.act
  split
  · next hphase =>
    cases hfailed : c.failed with
    | true => exact .stop hphase hfailed
    | false => exact .start hphase hfailed
  · next hphase =>
    cases hrule : c.rules[c.next]? with
    | none => exact .exhaust hphase (Array.getElem?_eq_none_iff.mp hrule)
    | some g =>
      cases hground : TermStore.ground c.store g with
      | error e =>
        simp only [hground]
        exact .refuse hphase hrule hground
      | ok ts =>
        obtain ⟨_, rfl⟩ := TermStore.ground_eq_ok hground
        simp only [hground]
        exact .claim hphase hrule hground
  · next hphase => exact .complete hphase
  · next hphase =>
    split
    · next hinsert => exact .insert hphase hinsert
    · next hinsert => exact .reject hphase hinsert
  · next hphase => exact .raise hphase
  · next hphase => exact .rest hphase

section Acts

variable {c c' : Crew σ} {w w' : Worker}

/-- A worker leaves the other workers and the ground rules as they are. -/
theorem Acts.frame (h : Acts c w w' c') : c'.workers = c.workers ∧ c'.rules = c.rules := by
  cases h <;> exact ⟨rfl, rfl⟩

/-- What has stopped a worker stays. -/
theorem Acts.fault?_eq (h : Acts c w w' c') {e : Fault} (he : w.fault? = some e) :
    w'.fault? = some e := by
  cases h with
  | raise hphase =>
    simp only [fault?, hphase] at he ⊢
    exact he
  | rest _ => exact he
  | _ hphase =>
    simp only [fault?, hphase] at he
    contradiction

end Acts

end Worker

namespace Crew

open Worker

variable {σ : Type} [TermStore σ] {c c' : Crew σ} {i : Nat} {w w' : Worker}

/-! ## Steps -/

theorem step_of_none (h : c.workers[i]? = none) : c.step i = c := by
  simp only [step, h]

/-- A step replaces the worker that takes it, and leaves the others as they are. -/
theorem step_of_some (h : c.workers[i]? = some w) :
    ∃ before after w' c', c.workers.toList = before ++ w :: after ∧ Acts c w w' c' ∧
      c.step i = { c' with workers := (before ++ w' :: after).toArray } := by
  have hlist : c.workers.toList[i]? = some w := by rw [Array.getElem?_toList, h]
  obtain ⟨hlt, hw⟩ := List.getElem?_eq_some_iff.mp hlist
  refine ⟨c.workers.toList.take i, c.workers.toList.drop (i + 1), (c.act w).1, (c.act w).2, ?_,
    acts_act c w, ?_⟩
  · rw [← hw, List.getElem_cons_drop, List.take_append_drop]
  · have hset : c.workers.setIfInBounds i (c.act w).1 =
        (c.workers.toList.take i ++ (c.act w).1 :: c.workers.toList.drop (i + 1)).toArray := by
      rw [← Array.toList_inj, Array.toList_setIfInBounds, List.set_eq_take_append_cons_drop,
        if_pos hlt]
    simp only [step, h, (acts_act c w).frame.1, hset]

@[simp] theorem rules_step (c : Crew σ) (i : Nat) : (c.step i).rules = c.rules := by
  cases h : c.workers[i]? with
  | none => rw [step_of_none h]
  | some w =>
    obtain ⟨_, _, _, _, _, hacts, hstep⟩ := step_of_some h
    rw [hstep]
    exact hacts.frame.2

@[simp] theorem size_workers_step (c : Crew σ) (i : Nat) :
    (c.step i).workers.size = c.workers.size := by
  unfold step
  split
  · rfl
  · next w _ => simp only [Array.size_setIfInBounds, (acts_act c w).frame.1]

theorem run_append (c : Crew σ) (schedule more : List Nat) :
    c.run (schedule ++ more) = (c.run schedule).run more := List.foldl_append ..

/-- What every step keeps, every schedule keeps. -/
theorem run_keeps {I : Crew σ → Prop} (hstep : ∀ c i, I c → I (c.step i)) (hc : I c)
    (schedule : List Nat) : I (c.run schedule) := by
  induction schedule generalizing c with
  | nil => exact hc
  | cons i schedule ih => exact ih (hstep c i hc)

theorem rules_run (c : Crew σ) (schedule : List Nat) : (c.run schedule).rules = c.rules :=
  run_keeps (I := fun d => d.rules = c.rules) (fun d i hd => (rules_step d i).trans hd) rfl schedule

theorem size_workers_run (c : Crew σ) (schedule : List Nat) :
    (c.run schedule).workers.size = c.workers.size :=
  run_keeps (I := fun d => d.workers.size = c.workers.size)
    (fun d i hd => (size_workers_step d i).trans hd) rfl schedule

/-! ## Results -/

/-- A crew in which a worker has failed. -/
def Faulty (c : Crew σ) : Prop := ∃ w ∈ c.workers.toList, ∃ e, w.fault? = some e

/-- A failure is never forgotten. -/
theorem Faulty.step (h : c.Faulty) (i : Nat) : (c.step i).Faulty := by
  cases hi : c.workers[i]? with
  | none =>
    rw [step_of_none hi]
    exact h
  | some w =>
    obtain ⟨before, after, w', c', hworkers, hacts, hstep⟩ := step_of_some hi
    obtain ⟨v, hv, e, he⟩ := h
    rw [hstep]
    rw [hworkers, List.mem_append, List.mem_cons] at hv
    obtain hv | rfl | hv := hv
    · exact ⟨v, List.mem_append_left _ hv, e, he⟩
    · exact ⟨w', List.mem_append_cons_self, e, hacts.fault?_eq he⟩
    · exact ⟨v, List.mem_append_right _ (List.mem_cons_of_mem _ hv), e, he⟩

omit [TermStore σ] in
/-- When all workers are done, the result is the number of terms that they have added, or a failure
of one of them. -/
theorem result_cases (hdone : c.isDone = true) :
    (∀ w ∈ c.workers.toList, w.fault? = none) ∧
        c.result = .ok (c.workers.toList.map (·.added)).sum ∨
      ∃ e, c.result = .error e ∧ ∃ w ∈ c.workers.toList, w.fault? = some e := by
  have hfinished : ∀ w ∈ c.workers.toList, isFinished w = true := fun w hw =>
    Array.all_eq_true_iff_forall_mem.mp hdone w (Array.mem_toList_iff.mp hw)
  rw [result, ← Array.foldlM_toList, ← Nat.zero_add (List.sum _)]
  generalize c.workers.toList = ws at hfinished ⊢
  generalize 0 = n
  induction ws generalizing n with
  | nil => exact .inl ⟨fun _ h => absurd h List.not_mem_nil, rfl⟩
  | cons w ws ih =>
    have hw := hfinished w List.mem_cons_self
    have hws := fun v hv => hfinished v (List.mem_cons_of_mem w hv)
    rw [List.foldlM_cons]
    cases hphase : w.phase with
    | finished why =>
      have hfault : w.fault? = why := by rw [fault?, hphase]
      cases why with
      | some e => exact .inr ⟨e, rfl, w, List.mem_cons_self, hfault⟩
      | none =>
        obtain ⟨hnone, hsum⟩ | ⟨e, he, v, hv, hfaulty⟩ := ih hws (n + w.added)
        · refine .inl ⟨List.forall_mem_cons.mpr ⟨hfault, hnone⟩, ?_⟩
          rw [List.map_cons, List.sum_cons, ← Nat.add_assoc]
          exact hsum
        · exact .inr ⟨e, he, v, List.mem_cons_of_mem w hv, hfaulty⟩
    | _ =>
      simp only [isFinished, hphase] at hw
      contradiction

/-! ## Claims -/

/-- The ground rule that the next step of a worker claims. -/
def claim? (c : Crew σ) (i : Nat) : Option Nat :=
  match c.workers[i]? with
  | none => none
  | some w => match w.phase with
    | .claiming => if c.next < c.rules.size then some c.next else none
    | _ => none

/-- The ground rules that are claimed along a schedule, in the order of time. -/
def claims (c : Crew σ) : List Nat → List Nat
  | [] => []
  | i :: schedule => (c.claim? i).toList ++ (c.step i).claims schedule

/-- A step claims the next ground rule, if it claims one. -/
theorem claim?_cases (c : Crew σ) (i : Nat) :
    c.claim? i = some c.next ∧ c.next < c.rules.size ∧ (c.step i).next = c.next + 1 ∨
      c.claim? i = none ∧
        ((c.step i).next = c.next ∨ c.rules.size ≤ c.next ∧ (c.step i).next = c.next + 1) := by
  cases h : c.workers[i]? with
  | none => exact .inr ⟨by rw [claim?, h], .inl (by rw [step_of_none h])⟩
  | some w =>
    obtain ⟨_, _, w', c', _, hacts, hstep⟩ := step_of_some h
    simp only [claim?, h, hstep]
    cases hacts with
    | exhaust hphase hsize =>
      rw [hphase, if_neg (Nat.not_lt.mpr hsize)]
      exact .inr ⟨rfl, .inr ⟨hsize, rfl⟩⟩
    | claim hphase hrule | refuse hphase hrule =>
      have hlt := (Array.getElem?_eq_some_iff.mp hrule).1
      rw [hphase, if_pos hlt]
      exact .inl ⟨rfl, hlt, rfl⟩
    | _ hphase =>
      rw [hphase]
      exact .inr ⟨rfl, .inl rfl⟩

theorem next_le_run (c : Crew σ) (schedule : List Nat) : c.next ≤ (c.run schedule).next := by
  refine run_keeps (I := fun d => c.next ≤ d.next) (fun d i hd => ?_) (Nat.le_refl _) schedule
  have hstep := d.claim?_cases i
  omega

/-- **The ground rules are claimed in their order**, from the first one that is left. -/
theorem claims_eq (c : Crew σ) (schedule : List Nat) :
    c.claims schedule =
      List.range' c.next (min (c.run schedule).next c.rules.size - c.next) := by
  induction schedule generalizing c with
  | nil =>
    have hnone : min c.next c.rules.size - c.next = 0 := by omega
    change [] = List.range' c.next (min c.next c.rules.size - c.next)
    rw [hnone, List.range'_zero]
  | cons i schedule ih =>
    have hle := (c.step i).next_le_run schedule
    have hrun : c.run (i :: schedule) = (c.step i).run schedule := rfl
    rw [claims, ih, rules_step, hrun]
    obtain ⟨hclaim, hlt, hnext⟩ | ⟨hclaim, hnext | ⟨hsize, hnext⟩⟩ := c.claim?_cases i
    · rw [hnext] at hle
      have hcount : min ((c.step i).run schedule).next c.rules.size - c.next =
          min ((c.step i).run schedule).next c.rules.size - (c.next + 1) + 1 := by omega
      rw [hclaim, hnext, hcount, List.range'_succ, Option.toList_some, List.singleton_append]
    · rw [hclaim, hnext, Option.toList_none, List.nil_append]
    · have hnone : min ((c.step i).run schedule).next c.rules.size - c.next = 0 := by omega
      have hnone' : min ((c.step i).run schedule).next c.rules.size - (c.next + 1) = 0 := by omega
      rw [hclaim, hnext, hnone, hnone', Option.toList_none, List.nil_append, List.range'_zero,
        List.range'_zero]

theorem nodup_claims (c : Crew σ) (schedule : List Nat) : (c.claims schedule).Nodup := by
  rw [claims_eq]
  exact List.nodup_range'

end Crew

/-! ## Coming to an end -/

/-- The steps that are left to a worker, up to its next claim. -/
def WorkerPhase.stepsLeft : WorkerPhase → Nat
  | .ready => 3
  | .claiming => 2
  | .inserting left => left.length + 4
  | .failing _ => 1
  | .finished _ => 0

namespace Crew

open Worker

variable {σ : Type} [TermStore σ] {c c' : Crew σ} {i : Nat} {w w' : Worker}

/-- The steps that the ground rules that have not been claimed are good for, five each: the claim,
two insertions at most, and the two steps after them. -/
def stepsAhead (c : Crew σ) : Nat := 5 * (c.rules.size - c.next)

/-- A worker that is not done uses up one of the steps that are left to it. -/
theorem stepsLeft_lt_of_acts (h : Acts c w w' c') (hw : isFinished w = false) :
    c'.stepsAhead + w'.phase.stepsLeft < c.stepsAhead + w.phase.stepsLeft := by
  unfold stepsAhead
  cases h with
  | @claim g hphase hrule _ =>
    have hlt := (Array.getElem?_eq_some_iff.mp hrule).1
    have htwo := g.length_terms_le
    simp only [hphase, WorkerPhase.stepsLeft]
    omega
  | refuse hphase hrule _ =>
    have hlt := (Array.getElem?_eq_some_iff.mp hrule).1
    simp only [hphase, WorkerPhase.stepsLeft]
    omega
  | rest hphase =>
    simp only [isFinished, hphase] at hw
    contradiction
  | _ hphase =>
    simp only [hphase, WorkerPhase.stepsLeft, List.length_cons, List.length_nil]
    omega

/-- The steps that are left to a crew. -/
def stepsLeft (c : Crew σ) : Nat :=
  c.stepsAhead + (c.workers.toList.map (·.phase.stepsLeft)).sum

theorem stepsLeft_step_lt (h : c.workers[i]? = some w) (hw : isFinished w = false) :
    (c.step i).stepsLeft < c.stepsLeft := by
  obtain ⟨before, after, w', c', hworkers, hacts, hstep⟩ := step_of_some h
  have hlt := stepsLeft_lt_of_acts hacts hw
  have hahead : (c.step i).stepsAhead = c'.stepsAhead := by rw [hstep, stepsAhead, stepsAhead]
  rw [stepsLeft, hahead, hstep, stepsLeft, hworkers]
  simp only [List.map_append, List.map_cons, List.sum_append, List.sum_cons]
  omega

/-- **Every schedule can be completed**: the crew comes to an end, whatever the steps so far. -/
theorem exists_isDone (c : Crew σ) : ∃ more, (c.run more).isDone = true := by
  induction hleft : c.stepsLeft using Nat.strongRecOn generalizing c with
  | ind n ih =>
    by_cases hdone : c.isDone = true
    · exact ⟨[], hdone⟩
    · obtain ⟨i, hi, hw⟩ := Array.all_eq_false.mp (Bool.eq_false_iff.mpr hdone)
      have hlt := stepsLeft_step_lt (Array.getElem?_eq_getElem hi) (Bool.eq_false_iff.mpr hw)
      obtain ⟨more, hmore⟩ := ih _ (hleft ▸ hlt) (c.step i) rfl
      exact ⟨i :: more, hmore⟩

/-! ## One worker after the other -/

theorem step_workers_self (h : c.workers[i]? = some w) :
    (c.step i).workers[i]? = some (c.act w).1 := by
  have hlt := (Array.getElem?_eq_some_iff.mp h).1
  have hframe := (acts_act c w).frame.1
  simp only [step, h]
  rw [hframe, Array.getElem?_setIfInBounds_self_of_lt hlt]

theorem step_workers_of_ne {j : Nat} (hne : i ≠ j) : (c.step i).workers[j]? = c.workers[j]? := by
  cases h : c.workers[i]? with
  | none => rw [step_of_none h]
  | some w =>
    have hframe := (acts_act c w).frame.1
    simp only [step, h]
    rw [hframe, Array.getElem?_setIfInBounds_ne hne]

/-- A worker that has no step in a schedule stays as it is. -/
theorem run_workers_of_notMem {j : Nat} {schedule : List Nat} (hj : j ∉ schedule) :
    (c.run schedule).workers[j]? = c.workers[j]? := by
  induction schedule generalizing c with
  | nil => rfl
  | cons i schedule ih =>
    rw [List.mem_cons, not_or] at hj
    exact (ih hj.2).trans (step_workers_of_ne (Ne.symm hj.1))

/-- Letting a worker work is a schedule. -/
theorem exists_advance_eq (c : Crew σ) (i n : Nat) :
    ∃ k, c.advance i n = c.run (List.replicate k i) := by
  induction n generalizing c with
  | zero => exact ⟨0, rfl⟩
  | succ n ih =>
    unfold advance
    split
    · exact ⟨0, rfl⟩
    · obtain ⟨k, hk⟩ := ih (c.step i)
      exact ⟨k + 1, hk⟩

/-- A worker that is let work for long enough is done. -/
theorem isFinished_advance {n : Nat} (h : c.workers[i]? = some w)
    (hn : c.stepsAhead + w.phase.stepsLeft ≤ n) :
    (c.advance i n).workers[i]?.map isFinished = some true := by
  induction n generalizing c w with
  | zero =>
    have hzero : w.phase.stepsLeft = 0 := by omega
    rw [advance, h, Option.map_some, isFinished]
    cases hphase : w.phase with
    | finished _ => rfl
    | _ =>
      simp only [hphase, WorkerPhase.stepsLeft] at hzero
      omega
  | succ n ih =>
    rw [advance, h, Option.map_some, Option.getD_some]
    cases hw : isFinished w with
    | true =>
      rw [if_pos rfl, h, Option.map_some, hw]
    | false =>
      rw [if_neg Bool.false_ne_true]
      have hlt := stepsLeft_lt_of_acts (acts_act c w) hw
      have hahead : (c.step i).stepsAhead = (c.act w).2.stepsAhead := by
        simp only [step, h, stepsAhead]
      exact ih (step_workers_self h) (by omega)

/-- Letting the first `k` workers of a fresh crew work, one after the other, is a schedule after
which they are done and the others have not started. -/
theorem exists_advances_eq (s : σ) (rules : Array (GroundRule Single)) (n k : Nat) (hk : k ≤ n) :
    ∃ schedule, (List.range k).foldl (fun c i => c.advance i (stepBound c.rules.size))
        (gather s rules n) = (gather s rules n).run schedule ∧
      (∀ i, i < k → ((gather s rules n).run schedule).workers[i]?.map isFinished = some true) ∧
      ∀ i, k ≤ i →
        ((gather s rules n).run schedule).workers[i]? = (gather s rules n).workers[i]? := by
  induction k with
  | zero => exact ⟨[], rfl, nofun, fun _ _ => rfl⟩
  | succ k ih =>
    obtain ⟨schedule, hrun, hdone, hfresh⟩ := ih (Nat.le_of_succ_le hk)
    have hrules : ((gather s rules n).run schedule).rules = rules := rules_run _ schedule
    obtain ⟨m, hm⟩ := exists_advance_eq ((gather s rules n).run schedule) k (stepBound rules.size)
    have hother {i : Nat} (hi : i ≠ k) : ((gather s rules n).run
        (schedule ++ List.replicate m k)).workers[i]? =
          ((gather s rules n).run schedule).workers[i]? := by
      rw [run_append]
      exact run_workers_of_notMem fun hmem => hi (List.eq_of_mem_replicate hmem)
    refine ⟨schedule ++ List.replicate m k, ?_, fun i hi => ?_, fun i hi => ?_⟩
    · rw [List.range_succ, List.foldl_append, hrun, run_append, ← hm, List.foldl_cons,
        List.foldl_nil, hrules]
    · by_cases hlast : i = k
      · subst hlast
        have hworker : ((gather s rules n).run schedule).workers[i]? = some {} := by
          rw [hfresh i (Nat.le_refl i), gather, Array.getElem?_replicate,
            if_pos (Nat.lt_of_succ_le hk)]
        rw [run_append, ← hm]
        refine isFinished_advance hworker ?_
        rw [stepsAhead, hrules]
        simp only [WorkerPhase.stepsLeft, stepBound]
        omega
      · rw [hother hlast]
        exact hdone i (by omega)
    · rw [hother (by omega)]
      exact hfresh i (by omega)

/-- Letting the workers of a fresh crew work one after the other is a schedule, and then all are
done. -/
theorem exists_finish_eq (s : σ) (rules : Array (GroundRule Single)) (n : Nat) :
    ∃ schedule, (gather s rules n).finish = (gather s rules n).run schedule ∧
      (gather s rules n).finish.isDone = true := by
  obtain ⟨schedule, hrun, hdone, _⟩ := exists_advances_eq s rules n n (Nat.le_refl n)
  have hsize : (gather s rules n).workers.size = n := Array.size_replicate
  have hfinish : (gather s rules n).finish = (gather s rules n).run schedule := by
    rw [finish, hsize]
    exact hrun
  refine ⟨schedule, hfinish, ?_⟩
  rw [hfinish, isDone, Array.all_eq_true]
  intro i hi
  have hlt : i < n := by rwa [size_workers_run, hsize] at hi
  have hfinished := hdone i hlt
  rw [Array.getElem?_eq_getElem hi, Option.map_some] at hfinished
  exact Option.some.inj hfinished

end Crew

/-- A single worker adds ground rules in order. -/
theorem TermStore.addAll_eq_addInOrder {σ : Type} [TermStore σ] {gs : List (GroundRule Single)}
    {workers : Nat} (hone : crewSize gs.length workers = 1) (s : σ) :
    addAll gs workers s = addInOrder gs s := by
  simp only [addAll, hone, ↓reduceIte]

end HingeLoss

import HingeLoss.Store.TermStore

/-!
# HingeLoss.Store.Crew

Workers that add ground rules to one store together.  They share the number of the next ground rule
and a flag that is raised by the first failure, and each of their steps is atomic:

1. a worker reads the flag, and is done if it is raised;
2. it claims the next ground rule, and is done if there is none; it makes the terms of the rule;
3. it inserts these terms one by one, and then starts over;
4. at a failure it raises the flag and is done.

A schedule says which worker takes each step, and every schedule is possible.  `addAll` runs one
that lets each worker work to its end before the next one starts.
-/

namespace HingeLoss

/-- What a worker does next. -/
inductive WorkerPhase where
  | ready
  | claiming
  /-- It inserts the first of the terms that are left, or starts over. -/
  | inserting (left : List (Term Single))
  | failing (why : Fault)
  | finished (why : Option Fault)

structure Worker where
  phase : WorkerPhase := .ready
  /-- The number of terms of the ground rules that the worker has finished. -/
  added : Nat := 0
  /-- The number of terms that the worker has inserted for its present ground rule. -/
  inserted : Nat := 0

/-- Workers at a store. -/
structure Crew (σ : Type) where
  store : σ
  rules : Array (GroundRule Single)
  /-- The number of ground rules that have been claimed. -/
  next : Nat := 0
  failed : Bool := false
  workers : Array Worker

namespace Crew

variable {σ : Type} [TermStore σ]

def gather (store : σ) (rules : Array (GroundRule Single)) (workers : Nat) : Crew σ :=
  { store, rules, workers := Array.replicate workers {} }

/-- The step of one worker: its next state and that of what the workers share. -/
def act (c : Crew σ) (w : Worker) : Worker × Crew σ :=
  match w.phase with
  | .ready => ({ w with phase := if c.failed then .finished none else .claiming }, c)
  | .claiming =>
    let phase := match c.rules[c.next]? with
      | none => .finished none
      | some g => match TermStore.ground c.store g with
        | .ok ts => .inserting ts
        | .error e => .failing e
    ({ w with phase, inserted := 0 }, { c with next := c.next + 1 })
  | .inserting [] => ({ w with phase := .ready, added := w.added + w.inserted, inserted := 0 }, c)
  | .inserting (t :: left) => match TermStore.insert t c.store with
    | .ok () store => ({ w with phase := .inserting left, inserted := w.inserted + 1 },
        { c with store })
    | .error e store => ({ w with phase := .failing e }, { c with store })
  | .failing e => ({ w with phase := .finished (some e) }, { c with failed := true })
  | .finished _ => (w, c)

/-- The step of the worker at a position. -/
def step (c : Crew σ) (i : Nat) : Crew σ :=
  match c.workers[i]? with
  | none => c
  | some w =>
    let (w, c) := c.act w
    { c with workers := c.workers.setIfInBounds i w }

def run (c : Crew σ) (schedule : List Nat) : Crew σ := schedule.foldl step c

def isFinished (w : Worker) : Bool :=
  match w.phase with
  | .finished _ => true
  | _ => false

def isDone (c : Crew σ) : Bool := c.workers.all isFinished

/-- The first failure in the order of the workers, or else the number of terms added. -/
def result (c : Crew σ) : Except Fault Nat :=
  c.workers.foldlM (fun n w => match w.phase with
    | .finished (some e) => .error e
    | _ => .ok (n + w.added)) 0

/-- Lets a worker work until it is done, for at most so many steps. -/
def advance (c : Crew σ) (i : Nat) : Nat → Crew σ
  | 0 => c
  | steps + 1 => if (c.workers[i]?.map isFinished).getD true then c else (c.step i).advance i steps

/-- The steps that a worker can take: reading the flag, claiming, two insertions and starting over
for each ground rule, and four steps to its end. -/
def stepBound (rules : Nat) : Nat := 5 * rules + 4

/-- Lets each worker work to its end. -/
def finish (c : Crew σ) : Crew σ :=
  (List.range c.workers.size).foldl (fun c i => c.advance i (stepBound c.rules.size)) c

end Crew

namespace TermStore

variable {σ : Type} [TermStore σ]

/-- The number of workers that are put to work: at most one for each ground rule. -/
def crewSize (rules workers : Nat) : Nat := max 1 (min workers (max rules 1))

/-- Adds ground rules with a number of workers, and tells how many terms were added.  A single
worker needs no crew. -/
def addAll (rules : List (GroundRule Single)) (workers : Nat) : EStateM Fault σ Nat :=
  let n := crewSize rules.length workers
  if n = 1 then addInOrder rules
  else fun s =>
    let crew := (Crew.gather s rules.toArray n).finish
    match crew.result with
    | .ok n => .ok n crew.store
    | .error e => .error e crew.store

/-- What is told when ground rules have been added. -/
def crewNotice? (rules workers : Nat) : Option Notice :=
  let n := crewSize rules workers
  if n = 1 then none else some (.rulesAdded rules n)

end TermStore

end HingeLoss

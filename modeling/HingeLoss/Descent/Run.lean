import HingeLoss.Descent.Pass

/-!
# HingeLoss.Descent.Run

Runs of the optimizer: subgradient descent on the terms of a store, pass by pass.

1. a run ends with the first of: its passes are used up; the gradient is small; the objective
   stands still.  The last two are not looked at while the variables still move, nor in a run that
   is to use all its passes;
2. the values after a pass are measured in the next pass, and those after the last pass when the
   run has ended;
3. the values that stay are those with the lowest objective, and they are committed;
4. a run can be cancelled at the start of each pass; a run that is cancelled, or that fails, leaves
   the values where they are and commits nothing.
-/

namespace HingeLoss

/-- The optimizer, with options that are in range. -/
structure Descent where
  options : DescentOptions
  valid : options.check = .ok ()

/-- The optimizer with the given options, if they are in range. -/
def Descent.create (options : DescentOptions) : Except Fault Descent :=
  match h : options.check with
  | .ok () => .ok ⟨options, h⟩
  | .error e => .error e

/-! ## The best values so far -/

/-- Values together with their objective. -/
structure Snapshot where
  objective : Double
  /-- The pass after which they were reached. -/
  iteration : Nat
  values : Array Single
deriving DecidableEq, Inhabited, Repr

namespace Snapshot

/-- Values whose objective is not known yet. -/
def start (values : Array Single) : Snapshot := ⟨.infinity, 0, values⟩

def isBeatenBy (s : Snapshot) (objective : Double) : Bool := objective < s.objective

/-- The better one of the snapshot and other values.  Of several equally good ones the first is
kept, and values whose objective is no number are never kept. -/
def offer (s : Snapshot) (objective : Double) (iteration : Nat) (values : Array Single) :
    Snapshot :=
  if s.isBeatenBy objective then ⟨objective, iteration, values⟩ else s

end Snapshot

/-! ## Results -/

/-- What a measuring pass found out about the values after the pass before. -/
structure Measurement where
  objective : Double
  /-- Their objective per term. -/
  normalized : Double
  gradientNorm : Single
  /-- Whether the pass was one of the non-convex rounds. -/
  nonconvex : Bool
deriving DecidableEq, Repr

/-- A pass that has been completed. -/
structure Pass where
  iteration : Nat
  values : Array Single
  measurement : Option Measurement
deriving DecidableEq, Repr

/-- The outcome of a run. -/
structure Report where
  objective : Double
  iterations : Nat
  /-- The pass after which the values that stay were reached. -/
  lowestIteration : Nat
  termCount : Nat
  /-- The distance of the values that stay from the last commit. -/
  change : Double
  /-- The number of constraints that the values after the last pass violate. -/
  violated : Nat
deriving DecidableEq, Repr

def Report.normalized (r : Report) : Double := normalize r.objective r.termCount

/-- A run: the store it works on, and the passes so far. -/
structure Run (σ : Type) where
  store : σ
  passes : Array Pass := #[]

/-- What one pass hands to the next. -/
structure Progress where
  accumulators : Accumulators
  /-- The values after the pass. -/
  previous : Array Single := #[]
  best : Snapshot := .start #[]
  /-- The objective that was measured last. -/
  objective : Double := .infinity
  termCount : Nat := 0

namespace Progress

/-- What is handed to the first pass. -/
def start (o : DescentOptions) (kinds : Array AtomKind) : Progress where
  accumulators := .start o.extension kinds

/-- What the first pass hands on. -/
def begin (p : Progress) (s : PassState) : Progress :=
  { p with
    accumulators := s.accumulators
    previous := s.values
    best := .start s.values
    termCount := s.visited }

/-- What a later pass hands on. -/
def next (p : Progress) (iteration : Nat) (s : PassState) : Progress where
  accumulators := s.accumulators
  previous := s.values
  best := p.best.offer s.objective (iteration - 1) p.previous
  objective := s.objective
  termCount := s.visited

end Progress

namespace Descent

/-! ## Stopping -/

/-- Whether a run ends with a pass. -/
def shouldStop (o : DescentOptions) (iteration : Nat) (objective previous : Double)
    (gradient : Array Single) (movement : Single) (terms : Nat) : Bool :=
  if o.iterationLimit < iteration then true
  else if o.runFullIterations then false
  else if o.watchMovement ∧ o.movementThreshold < movement then false
  else if (powerNorm gradient o.firstOrderNorm).abs ≤ o.firstOrderThreshold then true
  else o.objectiveBreak &&
    decide ((normalize objective terms - normalize previous terms).abs ≤ Double.ofSingle o.tolerance)

/-- The greatest number of passes: the values after the first pass are measured in any case. -/
def maxPasses (o : DescentOptions) : Nat := max 2 (o.iterationLimit + 1)

/-! ## Passes -/

/-- The distance that the variables have moved on the mean. -/
def meanMovement (movement : Single) (unobserved : Nat) : Single :=
  if unobserved = 0 then 0 else movement / ((unobserved : Nat) : Single)

def requireSize (values others : Array Single) : Except Fault Unit :=
  if values.size = others.size then .ok () else .error (.outOfBounds values.size others.size)

/-- What stays the same during a pass.  The first pass has nothing to measure. -/
def context (o : DescentOptions) (kinds : Array AtomKind) (iteration : Nat) (p : Progress) :
    PassContext :=
  { options := o, kinds, iteration, measured := if iteration = 1 then none else some p.previous }

def startState (p : Progress) (values : Array Single) : PassState :=
  { values, accumulators := p.accumulators, gradient := Array.replicate p.previous.size 0 }

/-- What a later pass has found out. -/
def measurement (o : DescentOptions) (iteration : Nat) (gradient : Array Single) (s : PassState) :
    Measurement where
  objective := s.objective
  normalized := normalize s.objective s.visited
  gradientNorm := powerNorm gradient o.firstOrderNorm
  nonconvex := o.isNonconvexRound iteration

section Store

variable {σ : Type} [TermStore σ]

def onStore {α : Type} (op : EStateM Fault σ α) : EStateM Fault (Run σ) α := fun r =>
  match op r.store with
  | .ok a store => .ok a { r with store }
  | .error e store => .error e { r with store }

def atoms : EStateM Fault (Run σ) AtomTable := return TermStore.atoms (← get).store

/-- Sweeps over the terms of the store.  The values are those that the sweep has left, also when it
fails. -/
def sweepStore (c : PassContext) (start : Array Single → PassState) :
    EStateM Fault (Run σ) PassState := do
  let items ← onStore TermStore.terms
  match c.sweep items (start (← atoms).values) with
  | .ok () s =>
    onStore (TermStore.onAtoms (AtomTable.setValues s.values))
    return s
  | .error e s =>
    onStore (TermStore.onAtoms (AtomTable.setValues s.values))
    throw e

/-- Notes down a pass that has been completed. -/
def record (pass : Pass) : EStateM Fault (Run σ) Unit :=
  modify fun r => { store := TermStore.endPass r.store, passes := r.passes.push pass }

/-- A pass, which also tells whether the run ends with it. -/
def pass (o : DescentOptions) (kinds : Array AtomKind) (iteration : Nat) (p : Progress) :
    EStateM Fault (Run σ) (Progress × Bool) := do
  let s ← sweepStore (context o kinds iteration p) (startState p)
  if iteration = 1 then
    record ⟨iteration, s.values, none⟩
    return (p.begin s, false)
  else
    let gradient := clipGradient boundMargin s.gradient p.previous
    record ⟨iteration, s.values, some (measurement o iteration gradient s)⟩
    let movement := meanMovement s.movement (kinds.countP (!·.isObserved))
    let done := shouldStop o iteration s.objective p.objective gradient movement s.visited
    match requireSize s.values p.previous with
    | .error e => throw e
    | .ok () => return (p.next iteration s, done)

/-- Refuses a pass of a run that has been cancelled. -/
def checkCancelled (cancelled : Nat → Bool) (iteration : Nat) : EStateM Fault (Run σ) Unit :=
  if cancelled iteration then throw (.cancelled iteration) else pure ()

/-- The passes from a given one on, at most so many, and the number of the last one. -/
def passesFrom (o : DescentOptions) (kinds : Array AtomKind) (cancelled : Nat → Bool) :
    (left iteration : Nat) → Progress → EStateM Fault (Run σ) (Nat × Progress)
  | 0, iteration, p => return (iteration - 1, p)
  | left + 1, iteration, p => do
    checkCancelled cancelled iteration
    let (p, done) ← pass o kinds iteration p
    if done then return (iteration, p)
    passesFrom o kinds cancelled left (iteration + 1) p

def passes (o : DescentOptions) (kinds : Array AtomKind) (cancelled : Nat → Bool) :
    EStateM Fault (Run σ) (Nat × Progress) :=
  passesFrom o kinds cancelled (maxPasses o) 1 (.start o kinds)

/-! ## Runs -/

/-- Measures the values after the last pass, and keeps and commits the best ones. -/
def settle (iterations : Nat) (p : Progress) : EStateM Fault (Run σ) Report := do
  let last ← onStore TermStore.evaluate
  let best := p.best.offer last.objective iterations (← atoms).values
  onStore (TermStore.onAtoms (AtomTable.setValues best.values))
  let change ← onStore TermStore.sync
  return {
    objective := best.objective
    iterations
    lowestIteration := best.iteration
    termCount := p.termCount
    change
    violated := last.violated }

/-- Lowers the objective of the terms of a store over its unobserved atoms.  A run that has been
cancelled ends at the start of the next pass. -/
def optimize (d : Descent) (cancelled : Nat → Bool := fun _ => false) :
    EStateM Fault (Run σ) Report := do
  onStore TermStore.beginRun
  let kinds := (← atoms).kinds
  let (iterations, p) ← passes d.options kinds cancelled
  settle iterations p

end Store

end Descent

/-! ## Notices -/

def Pass.notice? (p : Pass) : Option Notice :=
  p.measurement.map fun m =>
    .passMeasured (p.iteration - 1) m.objective m.normalized m.gradientNorm m.nonconvex

/-- What is told of a run that has succeeded. -/
def Report.notices (r : Report) (counts : AtomCounts) : List Notice :=
  (if 0 < r.violated then [.constraintsViolated r.violated] else []) ++
    [.runEnded r.objective r.normalized r.iterations, .movement r.change,
      .extent counts r.termCount, .lowestReached r.lowestIteration]

/-- What is told of a run, from the store at its start and its report, if there is one. -/
def Run.notices {σ : Type} [TermStore σ] (r : Run σ) (before : σ) (report : Option Report) :
    List Notice :=
  TermStore.newPageNotices before r.store ++ r.passes.toList.filterMap Pass.notice? ++
    (report.map fun p => p.notices (TermStore.atoms r.store).counts).getD []

end HingeLoss

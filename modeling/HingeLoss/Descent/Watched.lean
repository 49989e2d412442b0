import HingeLoss.Descent.Run

/-!
# HingeLoss.Descent.Watched

Watched runs.

After each pass, a watched run hands the store to its watcher and tells it the number of the pass.
The watcher may do with the store what it likes:

1. it gets the store when all terms have been visited and the hard ones repaired, and before the
   store prepares the next pass;
2. the run goes on with the store as the watcher leaves it.  The values that the next pass measures
   at are those of the store then, and the kinds of the atoms are read again;
3. the accumulators are those of the atoms at the start of the run, and the movement is averaged
   over the unobserved ones among these.

A run that no one watches is one whose watcher leaves the store as it is.
-/

namespace HingeLoss

namespace Descent

variable {σ : Type} [TermStore σ]

/-- Hands the store to the watcher and notes down what it has been told of.  The values are those
that the store has when the next pass has been prepared. -/
def handOver (watcher : Nat → σ → σ) (pass : Pass) : EStateM Fault (Run σ) (Array Single) := do
  modify fun r => { store := watcher pass.iteration r.store, passes := r.passes.push pass }
  modify fun r => { r with store := TermStore.endPass r.store }
  return (← atoms).values

/-- A watched pass, which also tells whether the run ends with it. -/
def watchedPass (watcher : Nat → σ → σ) (o : DescentOptions) (unobserved iteration : Nat)
    (p : Progress) : EStateM Fault (Run σ) (Progress × Bool) := do
  let s ← sweepStore (context o (← atoms).kinds iteration p) (startState p)
  if iteration = 1 then
    let values ← handOver watcher ⟨iteration, s.values, none⟩
    return (p.begin { s with values }, false)
  else
    let gradient := clipGradient boundMargin s.gradient p.previous
    let values ← handOver watcher ⟨iteration, s.values, some (measurement o iteration gradient s)⟩
    let movement := meanMovement s.movement unobserved
    let done := shouldStop o iteration s.objective p.objective gradient movement s.visited
    match requireSize values p.previous with
    | .error e => throw e
    | .ok () => return (p.next iteration { s with values }, done)

/-- The watched passes from a given one on, at most so many, and the number of the last one. -/
def watchedFrom (watcher : Nat → σ → σ) (o : DescentOptions) (cancelled : Nat → Bool)
    (unobserved : Nat) : (left iteration : Nat) → Progress → EStateM Fault (Run σ) (Nat × Progress)
  | 0, iteration, p => return (iteration - 1, p)
  | left + 1, iteration, p => do
    checkCancelled cancelled iteration
    let (p, done) ← watchedPass watcher o unobserved iteration p
    if done then return (iteration, p)
    watchedFrom watcher o cancelled unobserved left (iteration + 1) p

/-- As `optimize`, with a watcher. -/
def optimizeWatched (watcher : Nat → σ → σ) (d : Descent)
    (cancelled : Nat → Bool := fun _ => false) : EStateM Fault (Run σ) Report := do
  onStore TermStore.beginRun
  let kinds := (← atoms).kinds
  let unobserved := kinds.countP (!·.isObserved)
  let (iterations, p) ← watchedFrom watcher d.options cancelled unobserved (maxPasses d.options) 1
    (.start d.options kinds)
  settle iterations p

end Descent

end HingeLoss

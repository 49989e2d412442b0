import HingeLoss.Atoms.Table
import HingeLoss.Decimal.Shortest

/-!
# HingeLoss.Notice

What the library has to tell beside its results.  A notice names an event with its figures; it has
a level and a wording.
-/

namespace HingeLoss

/-- The levels of notices, from the gravest on. -/
inductive Level where
  | warn
  | info
  | debug
  | trace
deriving DecidableEq, Repr

def Level.text : Level → String
  | warn => "WARN"
  | info => "INFO"
  | debug => "DEBUG"
  | trace => "TRACE"

/-- An event worth telling. -/
inductive Notice where
  | pageFlushed (path : String) (terms bytes : Nat)
  /-- Ground rules have been added by several workers. -/
  | rulesAdded (rules workers : Nat)
  /-- The values after a pass have been measured. -/
  | passMeasured (iteration : Nat) (objective normalized : Double) (gradientNorm : Single)
    (nonconvex : Bool)
  /-- The values after the last pass of a run violate constraints. -/
  | constraintsViolated (count : Nat)
  | runEnded (objective normalized : Double) (iterations : Nat)
  /-- The distance of the kept values from the last commit. -/
  | movement (change : Double)
  | extent (counts : AtomCounts) (terms : Nat)
  /-- The pass after which the kept values were reached. -/
  | lowestReached (iteration : Nat)
deriving DecidableEq, Repr

namespace Notice

def level : Notice → Level
  | constraintsViolated .. => .warn
  | runEnded .. => .info
  | passMeasured .. => .trace
  | pageFlushed .. | rulesAdded .. | movement .. | extent .. | lowestReached .. => .debug

def message : Notice → String
  | pageFlushed path terms bytes => s!"Flushed page {path} ({terms} terms, {bytes} bytes)"
  | rulesAdded rules workers => s!"Added {rules} ground rules on {workers} workers"
  | passMeasured iteration objective normalized gradientNorm nonconvex =>
    s!"Iteration {iteration} -- Objective: {objective}, Normalized Objective: {normalized}, " ++
      s!"Gradient Norm: {gradientNorm}, Non-convex: {nonconvex}"
  | constraintsViolated count => s!"{count} hard constraints are still violated after optimization"
  | runEnded objective normalized iterations =>
    s!"Final Objective: {objective}, Final Normalized Objective: {normalized}, " ++
      s!"Total Number of Iterations: {iterations}"
  | movement change => s!"Movement of variables from initial state: {change}"
  | extent counts terms => s!"Optimized with {counts} variables and {terms} terms."
  | lowestReached iteration => s!"Lowest objective reached at iteration: {iteration}"

def text (n : Notice) : String := s!"{n.level.text} {n.message}"

end Notice

end HingeLoss

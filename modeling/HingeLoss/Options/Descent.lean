import HingeLoss.Options.Reading

/-!
# HingeLoss.Options.Descent

The options of the optimizer.  They start from their defaults and are set by name; a name that is
unknown changes nothing.  Ranges are checked when all options have been set, in a fixed order, so
an option that is set twice is judged by its last value.
-/

namespace HingeLoss

structure DescentOptions where
  learningRate : Single := 1
  /-- How the learning rate changes. -/
  schedule : Schedule := .stepDecay
  /-- The power of the pass that the rate is divided by. -/
  decayExponent : Single := 1
  extension : Extension := .none
  /-- The decay of the mean of the partials. -/
  beta1 : Single := 0.9
  /-- The decay of the mean of their squares. -/
  beta2 : Single := 0.999
  maxIterations : Nat := 200
  /-- The share of these passes that a run may use. -/
  budget : Single := 1
  /-- Whether a run goes on while the variables move. -/
  watchMovement : Bool := true
  /-- The mean movement of a pass above which the variables count as moving. -/
  movementThreshold : Single := 0.05
  /-- Whether a run ends when the objective stands still. -/
  objectiveBreak : Bool := true
  /-- The change of the objective per term up to which it counts as standing still. -/
  tolerance : Single := 0.00001
  runFullIterations : Bool := false
  /-- The power of the norm of the gradient. -/
  firstOrderNorm : Single := Single.infinity
  /-- The norm of the gradient up to which it counts as zero. -/
  firstOrderThreshold : Single := 0.01
  /-- Whether a term is evaluated again after each of its variables has moved. -/
  coordinateStep : Bool := false
  /-- The passes after which the non-convex rounds come again. -/
  nonconvexPeriod : Nat := 10
  /-- The number of non-convex rounds in a period. -/
  nonconvexRounds : Nat := 1
deriving DecidableEq, Repr

instance : Inhabited DescentOptions := ⟨{}⟩

structure OptionCondition (κ : Type) where
  key : κ
  holds : Bool
  fault : OptionFault

def Requirement.holds (r : Requirement) (x : Single) : Bool :=
  match r with
  | .positive => decide (0 < x)
  | .openUnit => decide (0 < x) && decide (x < 1)
  | .halfOpenUnit => decide (0 < x) && decide (x ≤ 1)
  | .nonNegative => decide (0 ≤ x)

namespace DescentOptions

/-! ## Setting -/

/-- Gives an option the value that a text stands for. -/
def set (o : DescentOptions) (key : DescentKey) (text : String) :
    Except OptionFault DescentOptions := do
  match key with
  | .learningRate => return { o with learningRate := ← Options.number text }
  | .learningSchedule => return { o with schedule := ← Options.schedule text }
  | .decayExponent => return { o with decayExponent := ← Options.number text }
  | .extension => return { o with extension := ← Options.extension text }
  | .beta1 => return { o with beta1 := ← Options.number text }
  | .beta2 => return { o with beta2 := ← Options.number text }
  | .maxIterations => return { o with maxIterations := ← Options.count text }
  | .budget => return { o with budget := ← Options.number text }
  | .watchMovement => return { o with watchMovement := ← Options.boolean text }
  | .movementThreshold => return { o with movementThreshold := ← Options.number text }
  | .objectiveBreak => return { o with objectiveBreak := ← Options.boolean text }
  | .tolerance => return { o with tolerance := ← Options.number text }
  | .runFullIterations => return { o with runFullIterations := ← Options.boolean text }
  | .firstOrderNorm => return { o with firstOrderNorm := ← Options.number text }
  | .firstOrderThreshold => return { o with firstOrderThreshold := ← Options.number text }
  | .coordinateStep => return { o with coordinateStep := ← Options.boolean text }
  | .nonconvexPeriod => return { o with nonconvexPeriod := ← Options.count text }
  | .nonconvexRounds => return { o with nonconvexRounds := ← Options.count text }

/-- Gives the option of a name its value.  There is no result for a name that is unknown. -/
def setNamed (o : DescentOptions) (name text : String) : Except Fault (Option DescentOptions) :=
  match DescentKey.ofText? name with
  | none => .ok none
  | some key => ((o.set key text).map some).mapError (.descentOption key)

/-- Sets options by name, in order.  Unknown names are passed over. -/
def setAll (o : DescentOptions) (pairs : List (String × String)) : Except Fault DescentOptions :=
  pairs.foldlM (fun o p => (o.setNamed p.1 p.2).map (·.getD o)) o

/-- Gives the option of a name its value in place, and tells whether the name is known. -/
def assign (name text : String) : EStateM Fault DescentOptions Bool := fun o =>
  match o.setNamed name text with
  | .ok (some o') => .ok true o'
  | .ok none => .ok false o
  | .error e => .error e o

/-! ## Ranges -/

/-- The conditions on the values, in the order in which they are checked. -/
def conditions (o : DescentOptions) : List (OptionCondition DescentKey) :=
  let number (key : DescentKey) (r : Requirement) (x : Single) : OptionCondition DescentKey :=
    ⟨key, r.holds x, .outOfRange r x⟩
  let count (key : DescentKey) (n : Nat) : OptionCondition DescentKey := ⟨key, 0 < n, .zeroCount⟩
  [ ⟨.learningRate, Requirement.positive.holds o.learningRate && o.learningRate.isFinite,
      .outOfRange .positive o.learningRate⟩,
    number .decayExponent .positive o.decayExponent,
    number .beta1 .openUnit o.beta1,
    number .beta2 .openUnit o.beta2,
    count .maxIterations o.maxIterations,
    number .budget .halfOpenUnit o.budget,
    number .movementThreshold .nonNegative o.movementThreshold,
    number .tolerance .nonNegative o.tolerance,
    number .firstOrderNorm .nonNegative o.firstOrderNorm,
    number .firstOrderThreshold .nonNegative o.firstOrderThreshold,
    count .nonconvexPeriod o.nonconvexPeriod,
    count .nonconvexRounds o.nonconvexRounds ]

/-- Refuses the first value that is out of range. -/
def check (o : DescentOptions) : Except Fault Unit :=
  match o.conditions.find? (!·.holds) with
  | none => .ok ()
  | some c => .error (.descentOption c.key c.fault)

/-- Options pass exactly if they meet all conditions. -/
theorem check_eq_ok_iff {o : DescentOptions} :
    o.check = .ok () ↔ ∀ c ∈ o.conditions, c.holds = true := by
  unfold check
  split
  · next hnone => simpa using hnone
  · next c hc =>
    have hbad : c.holds = false := by simpa using List.find?_some hc
    refine iff_of_false (by simp) fun h => ?_
    rw [h c (List.mem_of_find?_eq_some hc)] at hbad
    contradiction

/-- The options that pairs of a name and a value stand for. -/
def ofPairs (pairs : List (String × String)) : Except Fault DescentOptions := do
  let o ← setAll {} pairs
  o.check
  return o

/-! ## Derived quantities -/

/-- The number of passes that a run may use. -/
def iterationLimit (o : DescentOptions) : Nat :=
  (((o.maxIterations : Nat) : Double) * Double.ofSingle o.budget).toCount

/-- The learning rate of a pass. -/
def rate (o : DescentOptions) (iteration : Nat) : Single :=
  match o.schedule with
  | .constant => o.learningRate
  | .stepDecay => o.learningRate / ((iteration : Nat) : Single).pow o.decayExponent

/-- Whether a pass is one of the non-convex rounds. -/
def isNonconvexRound (o : DescentOptions) (iteration : Nat) : Bool :=
  o.nonconvexPeriod ≤ iteration && iteration % o.nonconvexPeriod < o.nonconvexRounds

end DescentOptions

end HingeLoss

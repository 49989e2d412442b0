/-!
# HingeLoss.Options.Key

The names of the options.  Names are matched exactly; a name that is not listed here belongs to
someone else and is ignored.
-/

namespace HingeLoss

/-- An option of the optimizer. -/
inductive DescentKey where
  | learningRate
  | learningSchedule
  | decayExponent
  | extension
  | beta1
  | beta2
  | maxIterations
  | budget
  | watchMovement
  | movementThreshold
  | objectiveBreak
  | tolerance
  | runFullIterations
  | firstOrderNorm
  | firstOrderThreshold
  | coordinateStep
  | nonconvexPeriod
  | nonconvexRounds
deriving DecidableEq, Repr

/-- An option of the paged term store. -/
inductive PagingKey where
  | pageLocation
  | pageSize
  | randomizePageAccess
  | shufflePage
  | seed
deriving DecidableEq, Repr

namespace DescentKey

/-- The name of an option. -/
def text : DescentKey → String
  | learningRate => "sgd.learningrate"
  | learningSchedule => "sgd.learningschedule"
  | decayExponent => "sgd.inversescaleexp"
  | extension => "sgd.extension"
  | beta1 => "sgd.adambeta1"
  | beta2 => "sgd.adambeta2"
  | maxIterations => "sgd.maxiterations"
  | budget => "reasoner.budget"
  | watchMovement => "sgd.movement"
  | movementThreshold => "sgd.movement.threshold"
  | objectiveBreak => "reasoner.objectivebreak"
  | tolerance => "reasoner.tolerance"
  | runFullIterations => "reasoner.runfulliterations"
  | firstOrderNorm => "sgd.firstordernorm"
  | firstOrderThreshold => "sgd.firstorderthreshold"
  | coordinateStep => "sgd.coordinatestep"
  | nonconvexPeriod => "reasoner.nonconvex.period"
  | nonconvexRounds => "reasoner.nonconvex.rounds"

/-- All options of the optimizer. -/
def all : List DescentKey :=
  [learningRate, learningSchedule, decayExponent, extension, beta1, beta2, maxIterations, budget,
   watchMovement, movementThreshold, objectiveBreak, tolerance, runFullIterations, firstOrderNorm,
   firstOrderThreshold, coordinateStep, nonconvexPeriod, nonconvexRounds]

/-- The option with a given name. -/
def ofText? (s : String) : Option DescentKey := all.find? (·.text = s)

/-- Different options have different names, so each is found by its own. -/
theorem ofText?_text (k : DescentKey) : ofText? k.text = some k := by
  cases k <;> decide +kernel

end DescentKey

namespace PagingKey

/-- The name of an option. -/
def text : PagingKey → String
  | pageLocation => "streamingtermstore.pagelocation"
  | pageSize => "streamingtermstore.pagesize"
  | randomizePageAccess => "streamingtermstore.randomizepageaccess"
  | shufflePage => "streamingtermstore.shufflepage"
  | seed => "random.seed"

/-- All options of the paged term store. -/
def all : List PagingKey := [pageLocation, pageSize, randomizePageAccess, shufflePage, seed]

/-- The option with a given name. -/
def ofText? (s : String) : Option PagingKey := all.find? (·.text = s)

end PagingKey

end HingeLoss

import HingeLoss.Descent.Objective
import HingeLoss.Descent.Step

/-!
# HingeLoss.Descent.Pass

One pass over the terms.

1. each soft term moves its unobserved variables, one after the other, against their partials and
   into `[0, 1]`; the linear form is that of the start of the term, or is evaluated again after
   each variable when steps are coordinate-wise;
2. hard terms are held back, and are repaired in their order when all soft terms have moved: the
   free variables of the term are moved along its coefficients to where the linear form is zero, by
   the one linear form of the start, and then into `[0, 1]`;
3. a pass that measures adds up the objective and the gradient of the soft terms at the values
   after the pass before, since the present values change under it.

A failure ends the pass where it is.
-/

namespace HingeLoss

/-! ## Repairing one constraint -/

namespace Term

variable {α : Type} [Scalar α]

/-- The sum of the squared coefficients of the free variables. -/
@[specialize] def freeNorm (t : Term α) (free : Variable → Bool) : α :=
  t.entries.foldl (fun s e => if free e.var then s + e.coefficient * e.coefficient else s) 0

/-- Whether there is nothing to repair where the linear form has a value. -/
def isSettled (t : Term α) (dot : α) : Bool :=
  decide (Scalar.IsZero dot) || (t.potential.isHinge && decide (dot < 0))

/-- Moves one variable, and adds the distance it has moved. -/
@[specialize] def moveTo (v : Variable) (target : α) (state : Array α × α) : Array α × α :=
  let (values, movement) := state
  let old := values.getD v.toNat 0
  let new := Scalar.clamp target
  (values.setIfInBounds v.toNat new, movement + Scalar.abs (new - old))

/-- The values after the repair of a term, and the total distance that they have moved.  A term
whose linear form is zero is left alone, as is a hinged one that is satisfied and one without a free
coefficient. -/
@[specialize] def project (t : Term α) (free : Variable → Bool) (values : Array α) :
    Array α × α :=
  let dot := t.dot (valuesAt values)
  let norm := t.freeNorm free
  if t.isSettled dot ∨ Scalar.IsZero norm then (values, 0)
  else t.entries.foldl (fun s e =>
    if free e.var then moveTo e.var (s.1.getD e.var.toNat 0 - dot * e.coefficient / norm) s else s)
    (values, 0)

end Term

/-! ## The pass -/

structure PassState where
  values : Array Single
  accumulators : Accumulators
  /-- The gradient that has been added up. -/
  gradient : Array Single
  /-- The objective that has been added up. -/
  objective : Double := 0
  /-- The distance that the variables have moved. -/
  movement : Single := 0
  visited : Nat := 0
  /-- The hard terms that are held back. -/
  held : Array (Term Single) := #[]

/-- What stays the same during a pass. -/
structure PassContext where
  options : DescentOptions
  kinds : Array AtomKind
  iteration : Nat
  /-- The values to measure at, if the pass measures. -/
  measured : Option (Array Single)

namespace PassContext

/-- Whether a variable may move. -/
def isFree (c : PassContext) (v : Variable) : Bool :=
  match c.kinds[v.toNat]? with
  | some .unobserved => true
  | _ => false

/-- Adds the cost and the gradient of a soft term at the values to measure at. -/
def measure (c : PassContext) (t : Term Single) (s : PassState) : Except Fault PassState :=
  match c.measured with
  | none => .ok s
  | some point => do
    t.requireWithin point.size
    t.requireWithin s.gradient.size
    let x := Term.valuesAt point
    return { s with
      objective := s.objective + Double.ofSingle (t.evaluate x)
      gradient := t.addGradient t.weight c.isFree x s.gradient }

/-- Moves the variables of entries in order.  `dot` is the linear form of the term, and `movement`
what its variables have moved so far. -/
def moveEntries (c : PassContext) (t : Term Single) (rate : Single) :
    List (Entry Single) → (dot movement : Single) → PassState →
      Except Fault (Single × PassState)
  | [], _, movement, s => .ok (movement, s)
  | e :: rest, dot, movement, s =>
    if c.isFree e.var then do
      let p := t.partialAt dot t.weight e.coefficient
      let (step, accumulators) ← s.accumulators.step c.options c.iteration rate e.var p
      let old := s.values.getD e.var.toNat 0
      let (values, movement) := Term.moveTo e.var (old - step) (s.values, movement)
      let dot := if c.options.coordinateStep then t.dot (Term.valuesAt values) else dot
      moveEntries c t rate rest dot movement { s with values, accumulators }
    else moveEntries c t rate rest dot movement s

/-- Moves the variables of a soft term. -/
def move (c : PassContext) (t : Term Single) (s : PassState) : Except Fault PassState := do
  t.requireWithin s.values.size
  t.requireWithin c.kinds.size
  let dot := t.dot (Term.valuesAt s.values)
  let (movement, s) ← c.moveEntries t (c.options.rate c.iteration) t.entries.toList dot 0 s
  return { s with movement := s.movement + movement }

def visit (c : PassContext) (t : Term Single) (s : PassState) : Except Fault PassState :=
  let s := { s with visited := s.visited + 1 }
  if t.isHard then .ok { s with held := s.held.push t }
  else do c.move t (← c.measure t s)

def repair (c : PassContext) (t : Term Single) (s : PassState) : Except Fault PassState := do
  t.requireWithin s.values.size
  t.requireWithin c.kinds.size
  let (values, movement) := t.project c.isFree s.values
  return { s with values, movement := s.movement + movement }

/-- Makes a step of a pass one that leaves the state as it was when it fails. -/
def attempt (step : PassState → Except Fault PassState) : EStateM Fault PassState Unit := fun s =>
  match step s with
  | .ok s => .ok () s
  | .error e => .error e s

def visitAll (c : PassContext) (items : List (Except Fault (Term Single))) :
    EStateM Fault PassState Unit :=
  items.forM fun item => attempt fun s => do c.visit (← item) s

/-- Repairs hard terms in order. -/
def repairAll (c : PassContext) (ts : List (Term Single)) : EStateM Fault PassState Unit :=
  ts.forM fun t => attempt (c.repair t)

/-- Visits the terms of a listing in order, and then repairs the hard ones. -/
def sweep (c : PassContext) (items : List (Except Fault (Term Single))) :
    EStateM Fault PassState Unit := do
  c.visitAll items
  c.repairAll (← get).held.toList

end PassContext

end HingeLoss

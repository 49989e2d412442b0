import HingeLoss.Store.TermStore

/-!
# HingeLoss.Descent.Objective

What is measured of a store and of the values of its atoms.

1. the objective is the sum of the costs of the soft terms, added up in double precision in the
   order of a pass.  Hard terms do not count; those whose potential is above a tolerance are
   violated;
2. the gradient is a subgradient of that sum over the free variables.  At a bound of `[0, 1]`, the
   part of it that points out of the interval cannot be followed, and it is clipped;
3. the norm of a gradient is the greatest distance from zero for the infinite power, and for power
   zero the number of entries that are not zero.  For any other power `p` it is the `p`-th root of
   the sum of the `p`-th powers, computed in double precision; the sum starts from the zero that
   leaves every number as it is.
-/

namespace HingeLoss

/-! ## Objectives -/

/-- The potential above which a hard term counts as violated. -/
def hardTolerance : Single := 0.0001

/-- Refuses a term with a variable that has no value. -/
def Term.requireWithin {α : Type} (t : Term α) (size : Nat) : Except Fault Unit :=
  match t.pastBound? size with
  | none => .ok ()
  | some v => .error (.outOfBounds v.toNat size)

def Term.isViolated (t : Term Single) (x : Variable → Single) : Bool :=
  t.isHard && decide (hardTolerance < t.unweighted x)

/-- What the terms of a store come to. -/
structure Evaluation where
  /-- The sum of the costs of the soft terms. -/
  objective : Double := 0
  violated : Nat := 0
deriving DecidableEq, Repr

namespace Evaluation

def addTerm (e : Evaluation) (t : Term Single) (x : Variable → Single) : Evaluation :=
  if t.isHard then { e with violated := if t.isViolated x then e.violated + 1 else e.violated }
  else { e with objective := e.objective + Double.ofSingle (t.evaluate x) }

/-- The evaluation with another item of a listing. -/
def addItem (values : Array Single) (e : Evaluation) (item : Except Fault (Term Single)) :
    Except Fault Evaluation := do
  let t ← item
  t.requireWithin values.size
  return e.addTerm t (Term.valuesAt values)

theorem addItem_ok {t : Term Single} {values : Array Single} (e : Evaluation)
    (h : t.requireWithin values.size = .ok ()) :
    e.addItem values (.ok t) = .ok (e.addTerm t (Term.valuesAt values)) := by
  change (t.requireWithin values.size >>= fun _ => _) = _
  rw [h]
  rfl

def ofListing (values : Array Single) (items : List (Except Fault (Term Single))) :
    Except Fault Evaluation :=
  items.foldlM (addItem values) {}

end Evaluation

/-- An objective as a mean over terms. -/
def normalize (objective : Double) (terms : Nat) : Double :=
  if terms = 0 then objective else objective / (terms : Double)

namespace TermStore

variable {σ : Type} [TermStore σ]

/-- The evaluation of a store at its present values. -/
def evaluate : EStateM Fault σ Evaluation := do
  let items ← terms
  match Evaluation.ofListing (atoms (← get)).values items with
  | .ok e => return e
  | .error e => throw e

/-- The objective of a store at its present values. -/
def objective : EStateM Fault σ Double := return (← evaluate).objective

end TermStore

/-! ## Gradients -/

section Gradient

variable {α : Type} [Scalar α]

/-- Adds the subgradient of a term at an assignment, for the variables that are free. -/
@[specialize] def Term.addGradient (t : Term α) (w : α) (free : Variable → Bool) (x : Variable → α)
    (gradient : Array α) : Array α :=
  let dot := t.dot x
  t.entries.foldl (fun g e =>
    if free e.var then g.modify e.var.toNat (· + t.partialAt dot w e.coefficient) else g) gradient

/-- An entry of a gradient at a value, and zero where it points out of `[0, 1]`.  A value within
the margin of a bound counts as being there. -/
@[specialize] def clipEntry (margin g v : α) : α :=
  if Scalar.abs v ≤ margin ∧ 0 < g then 0
  else if Scalar.abs (v - 1) ≤ margin ∧ g < 0 then 0
  else g

/-- A gradient without what points out of `[0, 1]`. -/
@[specialize] def clipGradient (margin : α) (gradient values : Array α) : Array α :=
  gradient.zipWith (clipEntry margin) values

/-- The distance from a bound at which a value counts as being there. -/
def boundMargin : Single := 0.000001

end Gradient

/-! ## Norms -/

/-- The greatest distance of an entry from zero. -/
def maxNorm {α : Type} [Scalar α] (values : Array α) : α :=
  values.foldl (fun m v => Scalar.max (Scalar.abs v) m) 0

/-- The number of entries that are not zero. -/
def supportSize {α : Type} [Scalar α] (values : Array α) : Nat :=
  values.countP fun v => ¬ Scalar.IsZero v

def powerNorm (values : Array Single) (p : Single) : Single :=
  if p.isInfinite then maxNorm values
  else if Scalar.IsZero p then ((supportSize values : Nat) : Single)
  else
    let power := Double.ofSingle p
    let sum := values.foldl (fun s v => s + (Double.ofSingle v.abs).pow power) Double.negativeZero
    (sum.pow (1 / power)).toSingle

end HingeLoss

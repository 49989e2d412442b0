import HingeLoss.Fault
import HingeLoss.Rule

/-!
# HingeLoss.Rule.Registry

The rules of a model, numbered in the order of their registration.  A rule is found by its id for
as long as there are ids left, since no rule is ever removed; after `2 ^ 32` rules the ids start
over, and a rule takes the place of the one that had its id.  Weights are checked on registration:
they are hard, or finite and not negative.
-/

namespace HingeLoss

/-- The rules of a model. -/
structure Registry where
  /-- What tells this registry from others. -/
  origin : Nat := 0
  rules : Array (Rule Single) := #[]
deriving DecidableEq, Repr

namespace Registry

def size (r : Registry) : Nat := r.rules.size

/-- Whether a weight is one that a rule can have. -/
def acceptsWeight : Weight Single → Bool
  | .hard => true
  | .soft w => w.isFinite && !decide (w < 0)

/-- Puts a rule in the place of its id. -/
def put (r : Registry) (rule : Rule Single) : Registry :=
  { r with rules :=
      if rule.id.toNat < r.size then r.rules.setIfInBounds rule.id.toNat rule
      else r.rules.push rule }

/-- Adds a rule under the next id. -/
def register (r : Registry) (name : String) (weight : Weight Single) (potential : Potential) :
    Except Fault (Rule Single × Registry) :=
  match weight with
  | .soft w =>
    if acceptsWeight (.soft w) then .ok (rule, r.put rule)
    else .error (.invalidWeight name w)
  | .hard => .ok (rule, r.put rule)
where
  rule : Rule Single := ⟨r.origin, .ofNat r.size, name, weight, potential⟩

def get? (r : Registry) (id : RuleId) : Option (Rule Single) := r.rules[id.toNat]?

def resolve (r : Registry) (id : RuleId) : Except Fault (Rule Single) :=
  match r.get? id with
  | some rule => .ok rule
  | none => .error (.unknownRule id)

/-- Whether a rule is one that this registry made. -/
def owns (r : Registry) (rule : Rule Single) : Bool := r.get? rule.id = some rule

end Registry

/-! ## The text of a rule -/

/-- The weight of a rule as a factor, infinite for a hard rule. -/
def Weight.value : Weight Single → Single
  | soft w => w
  | hard => Single.infinity

instance : ToString (Weight Single) := ⟨fun w => toString w.value⟩

instance : ToString (Rule Single) :=
  ⟨fun r => s!"{r.name} ({r.id}, weight {r.weight}, {r.potential.name})"⟩

end HingeLoss

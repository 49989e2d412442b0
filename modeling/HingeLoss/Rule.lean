import HingeLoss.Index
import HingeLoss.Potential

/-!
# HingeLoss.Rule

Weighted rules and their groundings.

1. a rule has a weight and a potential, which all terms made from it share;
2. a hard rule has no weight: its terms are constraints;
3. a rule carries the registry that numbered it, since two registries give out the same ids;
4. rules are compared and hashed by their ids, which tells apart the rules of one registry;
5. a ground rule is a clause of literals or a linear comparison over variables.
-/

namespace HingeLoss

inductive Weight (α : Type) where
  /-- The cost of a violation is multiplied by `w`. -/
  | soft (w : α)
  /-- A violation is not allowed at any cost. -/
  | hard
deriving DecidableEq, Repr

def Weight.isHard {α : Type} : Weight α → Bool
  | soft _ => false
  | hard => true

structure Rule (α : Type) where
  /-- The registry that numbered the rule. -/
  registry : Nat
  id : RuleId
  name : String
  weight : Weight α
  potential : Potential
deriving DecidableEq, Repr

namespace Rule

variable {α : Type}

def isHard (r : Rule α) : Bool := r.weight.isHard

instance : BEq (Rule α) := ⟨fun r s => r.id == s.id⟩

instance : Hashable (Rule α) := ⟨fun r => hash r.id⟩

theorem beq_iff {r s : Rule α} : (r == s) = true ↔ r.id = s.id :=
  beq_iff_eq (a := r.id) (b := s.id)

instance : LawfulHashable (Rule α) where
  hash_eq _ _ h := congrArg (hash : RuleId → UInt64) (beq_iff.mp h)

end Rule

/-! ## Groundings -/

/-- A comparison of a linear form with a constant. -/
inductive Comparator where
  | lessEqual
  | greaterEqual
  | equal
deriving DecidableEq, Repr

def Comparator.text : Comparator → String
  | lessEqual => "<="
  | greaterEqual => ">="
  | equal => "="

/-- A variable with its coefficient. -/
structure Entry (α : Type) where
  coefficient : α
  var : Variable
deriving DecidableEq, Inhabited, Repr

/-- What a ground rule says. -/
inductive GroundBody (α : Type) where
  /-- One of the positive variables is true or one of the negative ones is false. -/
  | clause (positive negative : List Variable)
  | arithmetic (entries : List (Entry α)) (comparator : Comparator) (constant : α)
deriving DecidableEq, Repr

/-- A rule with its variables filled in. -/
structure GroundRule (α : Type) where
  rule : Rule α
  /-- What it says about its variables. -/
  body : GroundBody α
deriving DecidableEq, Repr

/-- The variables that a ground rule mentions, in order and with repetitions. -/
def GroundRule.vars {α : Type} (g : GroundRule α) : List Variable :=
  match g.body with
  | .clause positive negative => positive ++ negative
  | .arithmetic entries _ _ => entries.map (·.var)

end HingeLoss

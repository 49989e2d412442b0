import HingeLoss.Scalar

/-!
# HingeLoss.Potential

The shape of the cost of a linear form.  A potential is linear or squared, with or without a hinge
that makes it zero below zero.
-/

namespace HingeLoss

/-- A potential, one case for each pair of a square and a hinge. -/
inductive Potential where
  | linear
  /-- The value where it is positive, and zero elsewhere. -/
  | hinge
  | squared
  /-- The square of the value where it is positive, and zero elsewhere. -/
  | squaredHinge
deriving DecidableEq, Inhabited, Repr

namespace Potential

def ofFlags : (squared hinge : Bool) → Potential
  | false, false => linear
  | false, true => hinge
  | true, false => squared
  | true, true => squaredHinge

def isSquared : Potential → Bool
  | linear | hinge => false
  | squared | squaredHinge => true

def isHinge : Potential → Bool
  | linear | squared => false
  | hinge | squaredHinge => true

def withHinge (p : Potential) : Potential := ofFlags p.isSquared true

def name : Potential → String
  | linear => "Linear"
  | hinge => "Hinge"
  | squared => "Squared"
  | squaredHinge => "SquaredHinge"

@[simp] theorem ofFlags_isSquared_isHinge (p : Potential) : ofFlags p.isSquared p.isHinge = p := by
  cases p <;> rfl

@[simp] theorem isSquared_ofFlags (s h : Bool) : (ofFlags s h).isSquared = s := by
  cases s <;> cases h <;> rfl

@[simp] theorem isHinge_ofFlags (s h : Bool) : (ofFlags s h).isHinge = h := by
  cases s <;> cases h <;> rfl

/-! ## Values and slopes -/

variable {α : Type} [Scalar α]

@[specialize] def apply (p : Potential) (dot : α) : α :=
  match p with
  | linear => dot
  | hinge => Scalar.max dot 0
  | squared => dot * dot
  | squaredHinge => Scalar.max dot 0 * Scalar.max dot 0

/-- The slope of the potential at a value, zero on the flat side of a hinge and at its kink. -/
@[specialize] def slope (p : Potential) (dot : α) : α :=
  if p.isHinge = true ∧ dot ≤ 0 then 0
  else if p.isSquared then dot + dot
  else 1

end Potential

end HingeLoss

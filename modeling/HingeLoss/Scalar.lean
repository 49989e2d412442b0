/-!
# HingeLoss.Scalar

The arithmetic that linear forms, potentials and steps are written in.

1. a scalar can be added, multiplied, divided, negated and compared;
2. comparisons are numeric: a value that is no number compares with nothing;
3. `max`, `min` and `clamp` are made of comparisons, so they return their second argument when the
   first one is no number.

The optimizer runs at single precision.  Everything that depends on the arithmetic alone is written
for any scalar, so that its exact reading at the rationals is an instance of the same definitions.
-/

namespace HingeLoss

/-- Numbers with the operations that the cost of a term and its descent need. -/
class Scalar (α : Type) extends
    Zero α, One α, NatCast α, Add α, Sub α, Mul α, Div α, Neg α, LT α, LE α where
  /-- Whether one scalar is below another. -/
  decidableLT : DecidableLT α
  /-- Whether one scalar is at most another. -/
  decidableLE : DecidableLE α
  abs : α → α

namespace Scalar

variable {α : Type} [Scalar α]

instance : DecidableLT α := Scalar.decidableLT

instance : DecidableLE α := Scalar.decidableLE

/-- Numeric equality: the two zeros are equal, and no number equals a value that is none. -/
def Same (a b : α) : Prop := a ≤ b ∧ b ≤ a

instance (a b : α) : Decidable (Same a b) := inferInstanceAs (Decidable (_ ∧ _))

/-- Numeric equality with zero. -/
def IsZero (a : α) : Prop := Same a 0

instance (a : α) : Decidable (IsZero a) := inferInstanceAs (Decidable (Same a 0))

/-- The larger of the two, and `b` where they do not compare. -/
@[inline] def max (a b : α) : α := if b < a then a else b

/-- The smaller of the two, and `b` where they do not compare. -/
@[inline] def min (a b : α) : α := if a < b then a else b

/-- The nearest value in `[0, 1]`. -/
@[inline] def clamp (a : α) : α := min (max a 0) 1

end Scalar

/-! ## The exact reading -/

instance : Scalar Rat where
  zero := 0
  one := 1
  decidableLT := inferInstance
  decidableLE := inferInstance
  abs a := if a < 0 then -a else a

end HingeLoss

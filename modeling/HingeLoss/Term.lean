import HingeLoss.LinearForm
import HingeLoss.Rule.Registry

/-!
# HingeLoss.Term

Terms of an objective.  A term is the potential of a linear form under the weight of its rule.

1. the *dot* of a term is its linear form at an assignment, added up from the left;
2. the *cost* is the weight times the potential of the dot, and zero where the potential is zero,
   so that a constraint costs nothing where it holds;
3. the *partial* of an entry is the slope at the dot times weight and coefficient;
4. a term has at most `Term.maxSize` entries.

A term keeps its own potential, which need not be the one of its rule.
-/

namespace HingeLoss

/-- A potential of a linear form, with its rule.  As in a linear form, coefficients and variables
stand together as entries, one of each. -/
structure Term (α : Type) where
  rule : Rule α
  potential : Potential
  /-- What is subtracted from the sum of the entries. -/
  constant : α
  entries : Array (Entry α)
deriving DecidableEq, Repr

namespace Term

/-- The greatest number of entries. -/
def maxSize : Nat := 32767

def size {α : Type} (t : Term α) : Nat := t.entries.size

def vars {α : Type} (t : Term α) : List Variable := t.entries.toList.map (·.var)

/-- Whether the term comes from a constraint. -/
def isHard {α : Type} (t : Term α) : Bool := t.rule.isHard

/-- The first variable at or past a bound. -/
def pastBound? {α : Type} (t : Term α) (bound : Nat) : Option Variable :=
  (t.entries.find? fun e => bound ≤ e.var.toNat).map (·.var)

/-- Whether all variables are below a bound. -/
def IsWithin {α : Type} (t : Term α) (bound : Nat) : Prop :=
  ∀ e ∈ t.entries.toList, e.var.toNat < bound

theorem pastBound?_eq_none {α : Type} {t : Term α} {bound : Nat} (h : t.IsWithin bound) :
    t.pastBound? bound = none := by
  have hnone : (t.entries.find? fun e => bound ≤ e.var.toNat) = none := by
    rw [Array.find?_eq_none]
    intro e he
    have := h e (Array.mem_toList_iff.2 he)
    simpa using this
  rw [pastBound?, hnone]
  rfl

def ofForm {α : Type} (rule : Rule α) (potential : Potential) (f : LinearForm α) :
    Except Fault (Term α) :=
  if maxSize < f.entries.size then .error (.capacity .termSize f.entries.size maxSize)
  else .ok ⟨rule, potential, f.constant, f.entries⟩

theorem ofForm_eq_ok_iff {α : Type} {rule : Rule α} {potential : Potential} {f : LinearForm α}
    {t : Term α} : ofForm rule potential f = .ok t ↔
      f.entries.size ≤ maxSize ∧ ⟨rule, potential, f.constant, f.entries⟩ = t := by
  unfold ofForm
  by_cases hsize : maxSize < f.entries.size
  · simp [hsize, Nat.not_le.mpr hsize]
  · simp [hsize, Nat.not_lt.mp hsize]

/-! ## Values and partials -/

section Values

variable {α : Type} [Scalar α]

/-- The linear form at an assignment. -/
@[specialize] def dot (t : Term α) (x : Variable → α) : α :=
  t.entries.foldl (fun s e => s + e.coefficient * x e.var) 0 - t.constant

/-- The potential at an assignment, without a weight. -/
@[specialize] def unweighted (t : Term α) (x : Variable → α) : α := t.potential.apply (t.dot x)

/-- The potential at an assignment under a weight. -/
@[specialize] def cost (t : Term α) (w : α) (x : Variable → α) : α :=
  let p := t.unweighted x
  if Scalar.IsZero p then 0 else w * p

/-- The partial of an entry with a given coefficient where the linear form is `dot`. -/
@[specialize] def partialAt (t : Term α) (dot w coefficient : α) : α :=
  let s := t.potential.slope dot
  if Scalar.IsZero s then 0 else w * s * coefficient

/-- The partial of the entry at a position.  A position past the entries has one only where the
slope is zero. -/
def partialAt? (t : Term α) (i : Nat) (dot w : α) : Option α :=
  if Scalar.IsZero (t.potential.slope dot) then some 0
  else t.entries[i]?.map fun e => t.partialAt dot w e.coefficient

/-- Every term is convex: its potential is, and a linear form keeps convexity. -/
def isConvex (_ : Term α) : Bool := true

end Values

/-! ## At single precision -/

/-- The assignment that an array of values stands for. -/
@[inline] def valuesAt {α : Type} [Scalar α] (values : Array α) : Variable → α :=
  fun v => values.getD v.toNat 0

def weight (t : Term Single) : Single := t.rule.weight.value

/-- The cost of a term under the weight of its rule. -/
def evaluate (t : Term Single) (x : Variable → Single) : Single := t.cost t.weight x

/-- The rule of a term that has not been read from anywhere. -/
def unreadRule : Rule Single := ⟨0, ⟨0⟩, "<unread>", .soft 0, .linear⟩

/-- A term without entries, to be filled by reading. -/
def unread : Term Single := ⟨unreadRule, .linear, 0, #[]⟩

instance : Inhabited (Term Single) := ⟨unread⟩

/-- The text of a term: its weight, and its linear form inside its potential. -/
def text (t : Term Single) : String :=
  let body := " + ".intercalate
    (t.entries.toList.map fun e => s!"({e.coefficient} * <index:{e.var}>)")
  let inner := s!"{body} - {t.constant}"
  let shaped := if t.potential.isHinge then s!"max(0.0, {inner})" else s!"({inner})"
  s!"{t.rule.weight} * {shaped}" ++ (if t.potential.isSquared then " ^2" else "")

instance : ToString (Term Single) := ⟨text⟩

end Term

end HingeLoss

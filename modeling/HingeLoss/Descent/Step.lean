import HingeLoss.Atoms.Table
import HingeLoss.Fault
import HingeLoss.Options.Descent

/-!
# HingeLoss.Descent.Step

The length of the step of a variable.

1. without an extension it is the partial times the learning rate;
2. `adaGrad` divides it by the root of the sum of the squared partials of the variable so far;
3. `adam` takes a decaying mean of the partials in place of the partial, and divides by the root of
   a decaying mean of their squares; both means start at zero and are corrected for that.

Only unobserved atoms have accumulators, which are kept without gaps; `slots` says where.
-/

namespace HingeLoss

/-- What is added to the roots that are divided by. -/
def rootMargin : Single := 0.00000001

/-- The slot of each atom, counting the unobserved ones. -/
def slotsOf (kinds : List AtomKind) (next : Nat) : List (Option Nat) :=
  match kinds with
  | [] => []
  | .observed :: rest => none :: slotsOf rest next
  | .unobserved :: rest => some next :: slotsOf rest (next + 1)

inductive Accumulators where
  | none
  | adaGrad (slots : Array (Option Nat)) (squares : Array Single)
  /-- The decaying means of the partials and of their squares. -/
  | adam (slots : Array (Option Nat)) (means variances : Array Single)
deriving Inhabited, Repr

namespace Accumulators

def start (extension : Extension) (kinds : Array AtomKind) : Accumulators :=
  let slots := (slotsOf kinds.toList 0).toArray
  let zeros := Array.replicate (kinds.countP (!·.isObserved)) (0 : Single)
  match extension with
  | .none => none
  | .adaGrad => adaGrad slots zeros
  | .adam => adam slots zeros zeros

/-- The greatest power that the decays are raised to. -/
def maxPower : Nat := 2147483647

/-- The sum of squares with another partial. -/
def addSquare (sum p : Single) : Single := sum + p * p

/-- The step for a sum of squares that has the partial in it. -/
def adaGradStep (rate sum p : Single) : Single := p * rate / (sum + rootMargin).sqrt

/-- The decaying mean with another partial. -/
def decayMean (beta mean p : Single) : Single := beta * mean + (1 - beta) * p

/-- The decaying mean of squares with another partial. -/
def decayVariance (beta variance p : Single) : Single := beta * variance + (1 - beta) * p * p

def adamStep (o : DescentOptions) (iteration : Nat) (rate mean variance : Single) : Single :=
  let t := min iteration maxPower
  let mean := mean / (1 - o.beta1.powNat t)
  let variance := variance / (1 - o.beta2.powNat t)
  mean * rate / (variance.sqrt + rootMargin)

/-- The slot of a variable among the accumulators. -/
def slotOf (slots : Array (Option Nat)) (size : Nat) (v : Variable) : Except Fault Nat :=
  match slots[v.toNat]? with
  | some (some slot) => if slot < size then .ok slot else .error (.outOfBounds slot size)
  | _ => .error (.outOfBounds v.toNat slots.size)

/-- The step of an unobserved variable for a partial, which goes into its accumulators. -/
def step (o : DescentOptions) (iteration : Nat) (rate : Single) (v : Variable) (p : Single) :
    Accumulators → Except Fault (Single × Accumulators)
  | none => .ok (p * rate, none)
  | adaGrad slots squares => do
    let i ← slotOf slots squares.size v
    let sum := addSquare (squares.getD i 0) p
    return (adaGradStep rate sum p, adaGrad slots (squares.setIfInBounds i sum))
  | adam slots means variances => do
    let i ← slotOf slots (min means.size variances.size) v
    let mean := decayMean o.beta1 (means.getD i 0) p
    let variance := decayVariance o.beta2 (variances.getD i 0) p
    return (adamStep o iteration rate mean variance,
      adam slots (means.setIfInBounds i mean) (variances.setIfInBounds i variance))

end Accumulators

end HingeLoss

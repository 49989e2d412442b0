import HingeLoss.Atoms.Table
import HingeLoss.Grounding
import HingeLoss.Notice

/-!
# HingeLoss.Store.TermStore

What the optimizer asks of a store of terms.  A store owns the table of the atoms that its terms
are about and the generator that makes terms of ground rules.

1. operations may fail, and then they leave the store as the failure left it;
2. the terms are listed in the order of a pass; a store that reads them from records lists the
   failure of reading behind the terms before it, and nothing after it;
3. a closed store has no generator and no terms, and refuses every use of them;
4. a store may put its terms into a random order.  A `Shuffler` gives an order of `n` things for
   every draw; which one is its own affair, but it is always an order of all of them, and nothing
   depends on more.
-/

namespace HingeLoss

/-! ## Random orders -/

/-- A source of orders. -/
structure Shuffler where
  /-- The order of `n` things that a draw gives, as a list of positions. -/
  order : (draw n : Nat) → List Nat
  /-- Each position is there once. -/
  order_perm : ∀ draw n, (order draw n).Perm (List.range n)

namespace Shuffler

/-- A rank that is spread out evenly over the positions. -/
def rank (seed draw i : Nat) : UInt64 := mixHash (hash seed) (mixHash (hash draw) (hash i))

/-- The shuffler of a seed, which orders positions by their ranks. -/
def ofSeed (seed : Nat) : Shuffler where
  order draw n := (List.range n).mergeSort fun i j => rank seed draw i ≤ rank seed draw j
  order_perm _ _ := List.mergeSort_perm _ _

/-- Puts things into the order of a draw. -/
def apply {α : Type} (s : Shuffler) (draw : Nat) (xs : Array α) : Array α :=
  ((s.order draw xs.size).filterMap fun i => xs[i]?).toArray

end Shuffler

/-! ## Stores -/

class TermStore (σ : Type) where
  atoms : σ → AtomTable
  withAtoms : AtomTable → σ → σ
  size : σ → Nat
  /-- The generator, until the store is closed. -/
  generator : σ → Option Generator
  isClosed : σ → Bool
  /-- Makes room for so many terms. -/
  reserve : Nat → EStateM Fault σ Unit
  insert : Term Single → EStateM Fault σ Unit
  termAt : Nat → EStateM Fault σ (Term Single)
  /-- The terms in the order of the next pass. -/
  terms : EStateM Fault σ (List (Except Fault (Term Single)))
  clear : EStateM Fault σ Unit
  /-- Removes all terms and the generator, for good. -/
  close : EStateM Fault σ Unit
  /-- Prepares the first pass of a run. -/
  beginRun : EStateM Fault σ Unit
  /-- Prepares the next pass of a run. -/
  endPass : σ → σ
  /-- What has been told of the pages that hold terms. -/
  pageNotices : σ → List Notice

namespace TermStore

variable {σ : Type} [TermStore σ]

/-- Refuses a store whose generator is gone. -/
def checkOpen (s : σ) : Except Fault Unit :=
  if (generator s).isNone then .error .storeClosed else .ok ()

def checkVariables (atoms : AtomTable) (t : Term Single) : Except Fault Unit :=
  t.vars.forM atoms.check

/-! ## Ground rules -/

/-- The terms that a store makes of a ground rule. -/
def ground (s : σ) (g : GroundRule Single) : Except Fault (List (Term Single)) :=
  match generator s with
  | none => .error .storeClosed
  | some gen => (gen.ground g).map (·.terms.toList)

/-- Adds the terms of a ground rule, one by one, and tells how many they are. -/
def add (g : GroundRule Single) : EStateM Fault σ Nat := do
  match ground (← get) g with
  | .error e => throw e
  | .ok ts =>
    ts.forM insert
    return ts.length

/-- Adds the terms of ground rules in order, up to the first failure. -/
def addInOrder (gs : List (GroundRule Single)) : EStateM Fault σ Nat :=
  gs.foldlM (fun n g => return n + (← add g)) 0

/-! ## Terms of a rule -/

/-- Whether an item of a listing belongs to the listing of a rule.  A failure belongs to all. -/
def belongsTo (id : RuleId) : Except Fault (Term Single) → Bool
  | .ok t => t.rule.id = id
  | .error _ => true

/-- The terms of a rule, in the order of the next pass. -/
def termsOf (id : RuleId) : EStateM Fault σ (List (Except Fault (Term Single))) :=
  return (← terms).filter (belongsTo id)

/-- The number of items of a listing, unless one is a failure. -/
def countListed (items : List (Except Fault (Term Single))) : Except Fault Nat :=
  items.foldlM (fun n item => item.map fun _ => n + 1) 0

def countOf (id : RuleId) : EStateM Fault σ Nat := do
  match countListed (← termsOf id) with
  | .ok n => return n
  | .error e => throw e

/-! ## Atoms -/

/-- Runs an operation of the table of atoms. -/
def onAtoms {α : Type} (op : EStateM Fault AtomTable α) : EStateM Fault σ α := fun s =>
  match op (atoms s) with
  | .ok a t => .ok a (withAtoms t s)
  | .error e t => .error e (withAtoms t s)

/-- Takes all atoms back to their initial values. -/
def reset (s : σ) : σ := withAtoms (atoms s).reset s

/-- Commits the present values, and tells how far they have moved since the last commit. -/
def sync : EStateM Fault σ Double := onAtoms AtomTable.sync

/-- The notices of the pages that a store has gained. -/
def newPageNotices (before after : σ) : List Notice :=
  (pageNotices after).drop (pageNotices before).length

end TermStore

end HingeLoss

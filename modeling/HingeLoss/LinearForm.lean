import HingeLoss.Rule
import Std.Data.HashMap

/-!
# HingeLoss.LinearForm

Linear forms `Σ coefficient · variable - constant`.

1. entries stand in the order in which their variables first came;
2. adding a variable that is present adds to its coefficient, so every variable has one entry;
3. pruning drops the entries whose coefficient is zero and keeps the order of the others.

Short forms are searched from the front.  From `indexedFrom` entries on, a table of positions is
built on the first search and kept up to date until entries are dropped.
-/

namespace HingeLoss

/-- A linear form, as it is being built.  Coefficients and variables are not kept in columns of
their own but as entries, so that there are as many of the one as of the other holds by type. -/
structure LinearForm (α : Type) where
  entries : Array (Entry α) := #[]
  /-- What is subtracted from the sum. -/
  constant : α
  /-- The position of each variable, or nothing while the form is short. -/
  positions : Std.HashMap Variable Nat := ∅

namespace LinearForm

variable {α : Type} [Scalar α]

/-- The size from which on variables are looked up in the table. -/
def indexedFrom : Nat := 16

/-- The form without entries and with constant zero. -/
def empty : LinearForm α := { constant := 0 }

/-- The greatest number of entries that room can be made for: a coefficient takes four bytes, and
less than `2 ^ 63` bytes can be addressed. -/
def maxRoom : Nat := 0x7fffffffffffffff / 4

/-- The empty form with room for entries, if there can be so many. -/
def withRoom? (n : Nat) : Option (LinearForm α) := if n ≤ maxRoom then some empty else none

instance : EmptyCollection (LinearForm α) := ⟨empty⟩

instance : Inhabited (LinearForm α) := ⟨empty⟩

def size (f : LinearForm α) : Nat := f.entries.size

/-- Whether there is no entry. -/
def isEmpty (f : LinearForm α) : Bool := f.entries.isEmpty

def vars (f : LinearForm α) : List Variable := f.entries.toList.map (·.var)

/-- The table of all positions. -/
def indexAll (entries : Array (Entry α)) : Std.HashMap Variable Nat :=
  entries.zipIdx.foldl (fun m (e, i) => m.insert e.var i) ∅

/-- Builds the table of positions where a long form has none. -/
def index (f : LinearForm α) : LinearForm α :=
  if f.size < indexedFrom ∨ f.positions.isEmpty = false then f
  else { f with positions := indexAll f.entries }

def position? (f : LinearForm α) (v : Variable) : Option Nat :=
  if f.size < indexedFrom then f.entries.findIdx? (·.var = v) else f.positions[v]?

/-- Adds `coefficient · v` to the form. -/
@[specialize] def add (f : LinearForm α) (v : Variable) (coefficient : α) : LinearForm α :=
  let ⟨entries, constant, positions⟩ := f.index
  match position? ⟨entries, constant, positions⟩ v with
  | some i =>
    ⟨entries.modify i fun e => { e with coefficient := e.coefficient + coefficient },
      constant, positions⟩
  | none =>
    let n := entries.size
    ⟨entries.push ⟨coefficient, v⟩, constant,
      if positions.isEmpty then positions else positions.insert v n⟩

@[specialize] def addAll (f : LinearForm α) (entries : List (Entry α)) : LinearForm α :=
  entries.foldl (fun f e => f.add e.var e.coefficient) f

def withConstant (f : LinearForm α) (constant : α) : LinearForm α := { f with constant }

/-- Takes the entry at a position to the end of the first `kept` entries, unless its coefficient is
zero.  What stood there takes its place. -/
def keepAt (s : Array (Entry α) × Nat) (i : Nat) : Array (Entry α) × Nat :=
  let (entries, kept) := s
  match entries[i]? with
  | none => (entries, kept)
  | some e =>
    if Scalar.IsZero e.coefficient then (entries, kept)
    else (entries.swapIfInBounds kept i, kept + 1)

/-- Takes the entries whose coefficient is not zero to the front, one after the other, and counts
them. -/
def compact (entries : Array (Entry α)) : Array (Entry α) × Nat :=
  (List.range entries.size).foldl keepAt (entries, 0)

/-- Drops the entries whose coefficient is zero, and the table with them, since positions change. -/
def prune (f : LinearForm α) : LinearForm α :=
  let (entries, kept) := compact f.entries
  if kept < f.size then { f with entries := entries.take kept, positions := ∅ }
  else { f with entries }

/-- The form with all signs flipped. -/
def negate (f : LinearForm α) : LinearForm α :=
  { f with
    entries := f.entries.map fun e => { e with coefficient := -e.coefficient }
    constant := -f.constant }

/-- Takes back everything that has been added. -/
def clear (f : LinearForm α) : LinearForm α :=
  { f with entries := #[], constant := 0, positions := ∅ }

/-- Numeric equality of entries, in order, and of constants. -/
def Same (f g : LinearForm α) : Prop :=
  f.vars = g.vars ∧
    (∀ p ∈ f.entries.toList.zip g.entries.toList, Scalar.Same p.1.coefficient p.2.coefficient) ∧
    Scalar.Same f.constant g.constant

instance (f g : LinearForm α) : Decidable (f.Same g) :=
  inferInstanceAs (Decidable (_ ∧ _ ∧ _))

end LinearForm

end HingeLoss

import HingeLoss.Atoms.Archive
import HingeLoss.Atoms.Place

/-!
# HingeLoss.Atoms.Table

The table of atoms, which holds an assignment to the variables of the objective.  An atom is
observed, and then its value is read but never moved, or unobserved, and then its value is a
variable of the objective.

1. the atom at a position is the variable of that position;
2. a value that comes in with its atom is in `[0, 1]`, and it is the initial, the committed and the
   present value of the atom;
3. present values move freely; `reset` takes them back to the initial ones, and `sync` commits them
   and tells how far they have moved since the last commit;
4. a table with a place is saved there on each `sync`, after the values have been committed.
-/

namespace HingeLoss

inductive AtomKind where
  | observed
  | unobserved
deriving DecidableEq, Inhabited, Repr

def AtomKind.isObserved : AtomKind → Bool
  | observed => true
  | unobserved => false

/-- What is known of an atom beside its present value. -/
structure Atom where
  kind : AtomKind
  /-- The value that the atom came with. -/
  initial : Single
  committed : Single
deriving DecidableEq, Inhabited, Repr

structure AtomCounts where
  observed : Nat
  unobserved : Nat
deriving DecidableEq, Repr

instance : ToString AtomCounts :=
  ⟨fun c => s!"{c.unobserved} unobserved and {c.observed} observed"⟩

/-- The greatest position of an atom. -/
def AtomTable.maxIndex : Nat := 2147483647

/-- The atoms and their present values.  Kinds, initial and committed values are not kept in columns
of their own but together, so that there is one of each for every atom holds by type; that there are
as many present values is a field. -/
structure AtomTable where
  atoms : Array Atom := #[]
  /-- The present value of each atom. -/
  values : Array Single := #[]
  size_values : values.size = atoms.size := by rfl
  /-- No atom is past the greatest position. -/
  size_le : atoms.size ≤ AtomTable.maxIndex + 1 := by decide
  place : Option Place := none
deriving Repr

instance : Inhabited AtomTable := ⟨{}⟩

namespace AtomTable

def size (t : AtomTable) : Nat := t.atoms.size

def isEmpty (t : AtomTable) : Bool := t.size = 0

def kinds (t : AtomTable) : Array AtomKind := t.atoms.map (·.kind)

def counts (t : AtomTable) : AtomCounts where
  observed := t.atoms.countP (·.kind.isObserved)
  unobserved := t.atoms.countP (!·.kind.isObserved)

def value? (t : AtomTable) (v : Variable) : Option Single := t.values[v.toNat]?

def isObserved? (t : AtomTable) (v : Variable) : Option Bool :=
  t.atoms[v.toNat]?.map (·.kind.isObserved)

def check (t : AtomTable) (v : Variable) : Except Fault Unit :=
  if v.toNat < t.size then .ok () else .error (.capacity .variableIndex v.toNat t.size)

/-! ## Growing -/

/-- Whether a value is one that an atom can come with. -/
def acceptsValue (value : Single) : Bool :=
  value.isFinite && decide (0 ≤ value) && decide (value ≤ 1)

/-- Adds an atom behind the others. -/
def push (kind : AtomKind) (value : Single) : EStateM Fault AtomTable Variable := fun t =>
  let index := t.size
  if acceptsValue value = false then .error (.invalidValue index value) t
  else if hfull : maxIndex < index then .error (.capacity .variableIndex index maxIndex) t
  else
    have hroom : t.atoms.size ≤ maxIndex := Nat.le_of_not_lt hfull
    let ⟨atoms, values, h, _, place⟩ := t
    .ok (.ofNat index)
      ⟨atoms.push ⟨kind, value, value⟩, values.push value, by simp [h], by simpa using hroom, place⟩

/-- Adds atoms in order, up to the first that is refused. -/
def pushAll (atoms : List (AtomKind × Single)) : EStateM Fault AtomTable Unit :=
  atoms.forM fun a => discard (push a.1 a.2)

/-! ## Moving -/

/-- Gives an atom another present value. -/
def setValue (v : Variable) (value : Single) : EStateM Fault AtomTable Unit := fun t =>
  if v.toNat < t.size then
    .ok () { t with
      values := t.values.setIfInBounds v.toNat value
      size_values := by rw [Array.size_setIfInBounds, t.size_values] }
  else .error (.outOfBounds v.toNat t.size) t

/-- Gives all atoms other present values. -/
def setValues (values : Array Single) : EStateM Fault AtomTable Unit := fun t =>
  if h : values.size = t.atoms.size then .ok () { t with values, size_values := h }
  else .error (.outOfBounds values.size t.size) t

/-- Takes all atoms back to their initial values. -/
def reset (t : AtomTable) : AtomTable :=
  { t with values := t.atoms.map (·.initial), size_values := by simp }

/-! ## Committing -/

/-- The total distance of the present values from the committed ones. -/
def change (t : AtomTable) : Double :=
  (t.values.zip t.atoms).foldl
    (fun s p => s + (Double.ofSingle p.1 - Double.ofSingle p.2.committed).abs) .negativeZero

/-- Makes the present values the committed ones. -/
def commit (t : AtomTable) : AtomTable :=
  { t with
    atoms := t.atoms.zipWith (fun a v => { a with committed := v }) t.values
    size_values := by simp [t.size_values]
    size_le := by simpa [t.size_values] using t.size_le }

/-- The committed state as it is kept. -/
def archive (t : AtomTable) : Archive where
  values := t.atoms.toList.map (·.committed)
  observed := t.atoms.toList.map (·.kind.isObserved)

/-- Keeps the committed state at the place of the table, if it has one. -/
def save : EStateM Fault AtomTable Unit := fun t =>
  match t.place with
  | none => .ok () t
  | some p => match p.save t.archive.encode.toArray with
    | .ok _ p => .ok () { t with place := some p }
    | .error e p => .error (.file e) { t with place := some p }

/-- Commits the present values, and tells how far they have moved since the last commit. -/
def sync : EStateM Fault AtomTable Double := do
  let moved := (← get).change
  modify commit
  save
  return moved

/-- The table that is kept at a place.  Nothing, or an empty file, is an empty table. -/
def load (p : Place) : Except Fault AtomTable :=
  let empty : AtomTable := { place := some p }
  match p.entry with
  | .absent => .ok empty
  | .directory => .error (.file (.mapVariables p.path))
  | .file bytes =>
    if bytes.isEmpty then .ok empty
    else match Archive.decode bytes with
      | none => .error (.file .invalidArchive)
      | some a =>
        if a.values.length ≠ a.observed.length then
          .error (.file (.lengthMismatch p.path a.values.length a.observed.length))
        else
          let kinds := a.observed.map fun b => if b then AtomKind.observed else .unobserved
          match pushAll (kinds.zip a.values) empty with
          | .ok _ t => .ok t
          | .error e _ => .error e

end AtomTable

end HingeLoss

import HingeLoss.Record.Cursor
import HingeLoss.Term

/-!
# HingeLoss.Record.Term

Terms as records.  A record holds

1. a byte that is one for a squared potential, and a byte that is one for a hinge;
2. the id of the rule, the constant, and the number of entries in two bytes;
3. for each entry its coefficient and its variable as a signed word.

A record names its rule by the id alone, so it is read with the registry that made the rule.  It is
written whole or not at all, and it is read only when all its entries are there.
-/

namespace HingeLoss

open Record

namespace Term

/-- The bytes of a record before its entries. -/
def headerSize : Nat := 12

def entrySize : Nat := 8

def recordSize {α : Type} (t : Term α) : Nat := headerSize + t.size * entrySize

def flagByte (b : Bool) : UInt8 := if b then 1 else 0

def entryFields (e : Entry Single) : List Field :=
  [.single e.coefficient, .signed e.var.toSigned]

/-- The fields of a record, in order. -/
def fields (t : Term Single) : List Field :=
  [.byte (flagByte t.potential.isSquared), .byte (flagByte t.potential.isHinge),
   .word t.rule.id.number, .single t.constant, .short (.ofNat t.size)] ++
  t.entries.toList.flatMap entryFields

def record (t : Term Single) : List UInt8 := t.fields.flatMap Field.bytes

/-- Entries take eight bytes each. -/
theorem length_entryBytes (es : List (Entry Single)) :
    ((es.flatMap entryFields).flatMap Field.bytes).length = es.length * entrySize := by
  induction es with
  | nil => rfl
  | cons e es ih =>
    simp only [List.flatMap_cons, List.flatMap_append, List.length_append, List.length_cons, ih]
    simp [entryFields, Field.kind, FieldKind.width, entrySize]
    omega

/-- A record is as long as its term says. -/
theorem length_record (t : Term Single) : t.record.length = t.recordSize := by
  simp only [record, fields, List.flatMap_append, List.length_append, length_entryBytes, recordSize]
  simp [Field.kind, FieldKind.width, headerSize, size]

/-- Writes the record of a term, if all of it fits. -/
def write (t : Term Single) : WriteM Unit := do
  let w ← get
  if w.remaining < t.recordSize then
    throw (.capacity .recordByte (w.position + t.recordSize) (w.position + w.remaining))
  t.fields.forM putField

end Term

/-! ## Reading -/

/-- What stands before the entries of a record. -/
structure Record.Header where
  potential : Potential
  rule : Rule Single
  constant : Single
  size : Nat

namespace Record

def getFlag : ReadM Bool := do
  let offset ← position
  match ← getByte with
  | 0 => return false
  | 1 => return true
  | b => throw (.corruptRecord offset (.flag b))

/-- Reads the header of a record and checks that its entries can be there. -/
def getHeader (rules : Registry) : ReadM Header := do
  let start ← position
  let squared ← getFlag
  let hinge ← getFlag
  let id : RuleId := ⟨← getWord⟩
  let rule ← match rules.resolve id with
    | .ok rule => pure rule
    | .error e => throw e
  let constant ← getSingle
  let size := (← getShort).toNat
  if Term.maxSize < size then throw (.corruptRecord start (.oversized size))
  let left := (← get).remaining
  if left < size * Term.entrySize then throw (.corruptRecord start (.missingEntries size left))
  return ⟨.ofFlags squared hinge, rule, constant, size⟩

/-- Reads entries behind those that are there. -/
def getEntries : Nat → Array (Entry Single) → ReadM (Array (Entry Single))
  | 0, entries => return entries
  | n + 1, entries => do
    let coefficient ← getSingle
    let offset ← position
    let raw ← getSigned
    match Variable.ofSigned? raw with
    | some v => getEntries n (entries.push ⟨coefficient, v⟩)
    | none => throw (.corruptRecord offset (.negativeVariable raw))

end Record

namespace Term

/-- Reads the next record as a new term. -/
def decode (rules : Registry) : ReadM (Term Single) := do
  let h ← getHeader rules
  let entries ← getEntries h.size (Array.emptyWithCapacity h.size)
  return ⟨h.rule, h.potential, h.constant, entries⟩

end Term

end HingeLoss

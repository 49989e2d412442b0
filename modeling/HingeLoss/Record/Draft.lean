import HingeLoss.Record.Term

/-!
# HingeLoss.Record.Draft

Terms that are read in storage that has been used before.  A draft keeps the coefficients and the
variables of its entries in two arrays, which stay in use from one record to the next.

1. nothing is touched before the header of a record has been read and checked;
2. then the arrays are emptied and filled again, a coefficient before its variable;
3. a reading that fails among the entries leaves what it has come to, which may be a coefficient
   without its variable;
4. a draft has as many entries as variables, and writing it passes over what has no variable.
-/

namespace HingeLoss

open Record

/-- A term in storage that is used again for each record. -/
structure Draft where
  rule : Rule Single
  potential : Potential
  constant : Single
  coefficients : Array Single
  vars : Array Variable
deriving DecidableEq, Repr

namespace Draft

def ofTerm (t : Term Single) : Draft where
  rule := t.rule
  potential := t.potential
  constant := t.constant
  coefficients := t.entries.map (·.coefficient)
  vars := t.entries.map (·.var)

/-- The term that a draft holds.  A coefficient without a variable is no part of it. -/
def term (d : Draft) : Term Single :=
  ⟨d.rule, d.potential, d.constant, d.coefficients.zipWith Entry.mk d.vars⟩

@[simp] theorem term_ofTerm (t : Term Single) : (ofTerm t).term = t := by
  have hentries : (t.entries.map (·.coefficient)).zipWith Entry.mk (t.entries.map (·.var)) =
      t.entries := by
    refine Array.ext (by simp) fun i h₁ h₂ => ?_
    simp
  simp only [term, ofTerm, hentries]

/-! ## Changing a draft -/

/-- Takes over what stands before the entries of a record. -/
def setHeader (h : Header) (d : Draft) : Draft :=
  { d with rule := h.rule, potential := h.potential, constant := h.constant }

/-- Takes all entries away and keeps their storage. -/
def clear (d : Draft) : Draft :=
  { d with coefficients := d.coefficients.shrink 0, vars := d.vars.shrink 0 }

def pushCoefficient (c : Single) (d : Draft) : Draft :=
  { d with coefficients := d.coefficients.push c }

def pushVar (v : Variable) (d : Draft) : Draft := { d with vars := d.vars.push v }

end Draft

/-! ## Reading -/

/-- Reading into a draft may fail and then leaves cursor and draft as they have become. -/
abbrev RefillM := EStateM Fault (Reader × Draft)

namespace Draft

/-- Reads without touching the draft. -/
def reading {α : Type} (x : ReadM α) : RefillM α := fun s =>
  match x s.1 with
  | .ok a r => .ok a (r, s.2)
  | .error e r => .error e (r, s.2)

def change (f : Draft → Draft) : RefillM Unit := modify fun s => (s.1, f s.2)

/-- Reads entries behind those that are there. -/
def fill : Nat → RefillM Unit
  | 0 => return
  | n + 1 => do
    let coefficient ← reading getSingle
    change (pushCoefficient coefficient)
    let offset ← reading position
    let raw ← reading getSigned
    match Variable.ofSigned? raw with
    | some v =>
      change (pushVar v)
      fill n
    | none => throw (.corruptRecord offset (.negativeVariable raw))

/-- Reads the next record in place of what the draft holds. -/
def refill (rules : Registry) : RefillM Unit := do
  let h ← reading (getHeader rules)
  change (setHeader h)
  change clear
  fill h.size

end Draft

/-! ## Writing -/

/-- Writes fields that have so many bytes together, if all of them fit. -/
def Record.writeFields (size : Nat) (fs : List Field) : WriteM Unit := do
  let w ← get
  if w.remaining < size then
    throw (.capacity .recordByte (w.position + size) (w.position + w.remaining))
  fs.forM putField

theorem Term.write_eq (t : Term Single) : t.write = writeFields t.recordSize t.fields := rfl

namespace Draft

def recordSize (d : Draft) : Nat := Term.headerSize + d.vars.size * Term.entrySize

/-- The fields of the record of what a draft holds, in order. -/
def fields (d : Draft) : List Field :=
  [.byte (Term.flagByte d.potential.isSquared), .byte (Term.flagByte d.potential.isHinge),
   .word d.rule.id.number, .single d.constant, .short (.ofNat d.vars.size)] ++
  d.term.entries.toList.flatMap Term.entryFields

def write (d : Draft) : WriteM Unit := writeFields d.recordSize d.fields

end Draft

end HingeLoss

import HingeLoss.Fault
import HingeLoss.Record.Bytes

/-!
# HingeLoss.Record.Cursor

Reading and writing fields in a buffer of fixed size.  A cursor never leaves its buffer: a field
that does not fit is refused before anything is touched, so a refused write changes neither the
buffer nor the position, and a refused read does not move.
-/

namespace HingeLoss.Record

/-! ## Writing -/

/-- A buffer that is being overwritten from its start. -/
structure Writer where
  buffer : Array UInt8
  /-- The number of bytes before the cursor. -/
  position : Nat
  /-- The cursor is inside the buffer or at its end. -/
  position_le : position ≤ buffer.size

/-- Puts bytes in place of those from a position on. -/
def overwrite (buffer : Array UInt8) (start : Nat) : List UInt8 → Array UInt8
  | [] => buffer
  | b :: bs => overwrite (buffer.setIfInBounds start b) (start + 1) bs

@[simp] theorem size_overwrite (buffer : Array UInt8) (start : Nat) (bs : List UInt8) :
    (overwrite buffer start bs).size = buffer.size := by
  induction bs generalizing buffer start with
  | nil => rfl
  | cons b bs ih => simp [overwrite, ih]

namespace Writer

def start (buffer : Array UInt8) : Writer := ⟨buffer, 0, Nat.zero_le _⟩

/-- The number of bytes after the cursor. -/
def remaining (w : Writer) : Nat := w.buffer.size - w.position

end Writer

/-- Writing may fail and then keeps what has been written. -/
abbrev WriteM := EStateM Fault Writer

/-- Writes bytes at the cursor. -/
def putBytes (bs : List UInt8) : WriteM Unit := fun ⟨buffer, position, _⟩ =>
  if h : bs.length ≤ buffer.size - position then
    .ok () ⟨overwrite buffer position bs, position + bs.length, by rw [size_overwrite]; omega⟩
  else .error (.capacity .recordByte (position + bs.length) buffer.size) ⟨buffer, position, by omega⟩

/-- Writes a field at the cursor. -/
def putField (f : Field) : WriteM Unit := putBytes f.bytes

/-! ## Reading -/

/-- A buffer that is being read from its start. -/
structure Reader where
  bytes : Array UInt8
  /-- The number of bytes before the cursor. -/
  position : Nat
  /-- The cursor is inside the buffer or at its end. -/
  position_le : position ≤ bytes.size

namespace Reader

/-- A cursor at the start of a buffer. -/
def start (bytes : Array UInt8) : Reader := ⟨bytes, 0, Nat.zero_le _⟩

/-- The number of bytes after the cursor. -/
def remaining (r : Reader) : Nat := r.bytes.size - r.position

/-- Whether no byte is left. -/
def atEnd (r : Reader) : Bool := r.remaining = 0

/-- The bytes after the cursor. -/
def rest (r : Reader) : List UInt8 := r.bytes.toList.drop r.position

end Reader

/-- Reading may fail and then leaves the cursor where it stands. -/
abbrev ReadM := EStateM Fault Reader

def position : ReadM Nat := return (← get).position

def getBytes (n : Nat) : ReadM (List UInt8) := fun ⟨bytes, position, _⟩ =>
  if h : n ≤ bytes.size - position then
    .ok (bytes.extract position (position + n)).toList ⟨bytes, position + n, by omega⟩
  else
    .error (.corruptRecord position (.short n (bytes.size - position))) ⟨bytes, position, by omega⟩

def getNumber (width : Nat) : ReadM Nat := return ofBigEndian (← getBytes width)

def getByte : ReadM UInt8 := return UInt8.ofNat (← getNumber 1)

/-- Reads two bytes without a sign. -/
def getShort : ReadM UInt16 := return UInt16.ofNat (← getNumber 2)

/-- Reads four bytes without a sign. -/
def getWord : ReadM UInt32 := return UInt32.ofNat (← getNumber 4)

/-- Reads four bytes with a sign. -/
def getSigned : ReadM Int32 := return (← getWord).toInt32

def getSingle : ReadM Single := return ⟨← getWord⟩

def getField (k : FieldKind) : ReadM Field := return Field.ofNat k (← getNumber k.width)

end HingeLoss.Record

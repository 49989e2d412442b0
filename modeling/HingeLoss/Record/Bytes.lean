import HingeLoss.Scalar.Single

/-!
# HingeLoss.Record.Bytes

The fields of records.  A field has a fixed width and stands with its most significant byte first;
signed words are in two's complement, and single precision numbers are their patterns.
-/

namespace HingeLoss.Record

/-! ## Big-endian numbers -/

/-- How many numbers fill so many bytes. -/
def byteRange : (width : Nat) → Nat
  | 0 => 1
  | w + 1 => 256 * byteRange w

/-- The low bytes of a number, the most significant one first. -/
def toBigEndian : (width n : Nat) → List UInt8
  | 0, _ => []
  | w + 1, n => UInt8.ofNat (n / byteRange w) :: toBigEndian w n

/-- The number with the given bytes. -/
def ofBigEndian (bs : List UInt8) : Nat := bs.foldl (fun n b => 256 * n + b.toNat) 0

@[simp] theorem length_toBigEndian (w n : Nat) : (toBigEndian w n).length = w := by
  induction w with
  | zero => rfl
  | succ w ih => simp [toBigEndian, ih]

/-- The bytes before the last ones count in multiples of their range. -/
theorem foldl_toBigEndian (w n acc : Nat) :
    (toBigEndian w n).foldl (fun n b => 256 * n + b.toNat) acc =
      byteRange w * acc + n % byteRange w := by
  induction w generalizing acc with
  | zero => simp [toBigEndian, byteRange, Nat.mod_one]
  | succ w ih =>
    have h : n % byteRange (w + 1) = n % byteRange w + byteRange w * (n / byteRange w % 256) := by
      rw [byteRange, Nat.mul_comm, Nat.mod_mul]
    have e : byteRange (w + 1) * acc = byteRange w * (256 * acc) := by
      rw [byteRange, Nat.mul_comm 256, Nat.mul_assoc]
    rw [toBigEndian, List.foldl_cons, ih, UInt8.toNat_ofNat', h, e, Nat.mul_add,
      show (2 : Nat) ^ 8 = 256 from rfl]
    omega

/-- Reading back the bytes of a number that fits them gives the number. -/
theorem ofBigEndian_toBigEndian {w n : Nat} (h : n < byteRange w) :
    ofBigEndian (toBigEndian w n) = n := by
  rw [ofBigEndian, foldl_toBigEndian, Nat.mul_zero, Nat.zero_add, Nat.mod_eq_of_lt h]

/-! ## Fields -/

inductive FieldKind where
  | byte
  /-- Two bytes without a sign. -/
  | short
  /-- Four bytes without a sign. -/
  | word
  | signed
  | single
deriving DecidableEq, Repr

def FieldKind.width : FieldKind → Nat
  | byte => 1
  | short => 2
  | word | signed | single => 4

inductive Field where
  | byte (x : UInt8)
  | short (x : UInt16)
  | word (x : UInt32)
  | signed (x : Int32)
  | single (x : Single)
deriving DecidableEq, Repr

namespace Field

def kind : Field → FieldKind
  | byte _ => .byte
  | short _ => .short
  | word _ => .word
  | signed _ => .signed
  | single _ => .single

def toNat : Field → Nat
  | byte x => x.toNat
  | short x => x.toNat
  | word x => x.toNat
  | signed x => x.toUInt32.toNat
  | single x => x.bits.toNat

def bytes (f : Field) : List UInt8 := toBigEndian f.kind.width f.toNat

def ofNat : FieldKind → Nat → Field
  | .byte, n => byte (.ofNat n)
  | .short, n => short (.ofNat n)
  | .word, n => word (.ofNat n)
  | .signed, n => signed (UInt32.ofNat n).toInt32
  | .single, n => single ⟨.ofNat n⟩

@[simp] theorem length_bytes (f : Field) : f.bytes.length = f.kind.width := by simp [bytes]

@[simp] theorem ofNat_toNat (f : Field) : ofNat f.kind f.toNat = f := by
  cases f <;> simp [ofNat, kind, toNat]

end Field

end HingeLoss.Record

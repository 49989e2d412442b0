import HingeLoss.Record.Bytes

/-!
# HingeLoss.Atoms.Archive

The file that a table of atoms is kept in.  All its words have four bytes, the least significant
byte first.

1. the values come first, then one byte for each atom that is one when the atom is observed, then
   zero bytes up to a multiple of four;
2. the last sixteen bytes are the *root*: for the values and then for the flags, where they start
   and how many there are;
3. a start is written as its distance from the word it is written in, in two's complement.

A reader trusts none of this: the values have to be aligned, the two regions have to lie one after
the other before the root, and every flag has to be zero or one.
-/

namespace HingeLoss

structure Archive where
  values : List Single
  observed : List Bool
deriving DecidableEq, Repr

namespace Archive

open Record

/-! ## Little-endian words -/

def wordBytes (n : Nat) : List UInt8 := (toBigEndian 4 n).reverse

/-- The word that four bytes stand for. -/
def ofWordBytes (bs : List UInt8) : Nat := ofBigEndian bs.reverse

/-- The word that stands for a signed number. -/
def ofSigned (i : Int) : Nat := (Int32.ofInt i).toUInt32.toNat

/-- The signed number that a word stands for. -/
def toSigned (n : Nat) : Int := (UInt32.ofNat n).toInt32.toInt

def wordAt (bytes : Array UInt8) (position : Nat) : Nat :=
  ofWordBytes (bytes.extract position (position + 4)).toList

/-! ## Writing -/

def rootSize : Nat := 16

def flagByte (b : Bool) : UInt8 := if b then 1 else 0

/-- The zero bytes that follow `n` bytes. -/
def padding (n : Nat) : List UInt8 := List.replicate ((4 - n % 4) % 4) 0

/-- The bytes before the root. -/
def body (a : Archive) : List UInt8 :=
  a.values.flatMap (fun v => wordBytes v.bits.toNat) ++ a.observed.map flagByte ++
    padding a.observed.length

def root (a : Archive) (position : Nat) : List UInt8 :=
  wordBytes (ofSigned (-position)) ++ wordBytes a.values.length ++
    wordBytes (ofSigned (4 * a.values.length - (position + 8))) ++ wordBytes a.observed.length

def encode (a : Archive) : List UInt8 := a.body ++ a.root a.body.length

/-! ## Reading -/

/-- The flag that a byte stands for. -/
def flag? (b : UInt8) : Option Bool :=
  if b = 0 then some false else if b = 1 then some true else none

/-- Two regions of a file. -/
structure Layout where
  valuesAt : Int
  values : Nat
  flagsAt : Int
  flags : Nat

/-- The regions that the root at a position names. -/
def Layout.ofRoot (bytes : Array UInt8) (position : Nat) : Layout where
  valuesAt := position + toSigned (wordAt bytes position)
  values := wordAt bytes (position + 4)
  flagsAt := position + 8 + toSigned (wordAt bytes (position + 8))
  flags := wordAt bytes (position + 12)

/-- The values are aligned, and both regions lie one after the other before the root. -/
def Layout.Fits (l : Layout) (root : Nat) : Prop :=
  0 ≤ l.valuesAt ∧ l.valuesAt % 4 = 0 ∧ l.valuesAt + 4 * l.values ≤ l.flagsAt ∧
    l.flagsAt + l.flags ≤ root

instance (l : Layout) (root : Nat) : Decidable (l.Fits root) :=
  inferInstanceAs (Decidable (_ ∧ _ ∧ _ ∧ _))

/-- The content of a file, if it is an archive. -/
def decode (bytes : Array UInt8) : Option Archive :=
  let root := bytes.size - rootSize
  let l := Layout.ofRoot bytes root
  if rootSize ≤ bytes.size ∧ root % 4 = 0 ∧ l.Fits root then
    let values := (List.range l.values).map fun i =>
      (⟨UInt32.ofNat (wordAt bytes (l.valuesAt.toNat + 4 * i))⟩ : Single)
    let flags := bytes.extract l.flagsAt.toNat (l.flagsAt.toNat + l.flags)
    (flags.toList.mapM flag?).map (⟨values, ·⟩)
  else none

end Archive

end HingeLoss

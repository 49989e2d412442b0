/-!
# HingeLoss.Index

Variables and rules are numbered from zero.  Both numbers have 32 bits: a variable stands in a term
record as a signed word, so the records hold the variables below `2 ^ 31`, and a rule number fills
its field.
-/

namespace HingeLoss

/-- A variable, by the position of its atom in the atom table. -/
structure Variable where
  index : UInt32
deriving DecidableEq, Hashable, Inhabited, Repr

namespace Variable

/-- The position as a natural number. -/
@[inline] def toNat (v : Variable) : Nat := v.index.toNat

theorem toNat_inj {v w : Variable} : v.toNat = w.toNat ↔ v = w := by
  obtain ⟨v⟩ := v
  obtain ⟨w⟩ := w
  simp only [toNat, UInt32.toNat_inj, Variable.mk.injEq]

/-- The variable at a position below `2 ^ 32`. -/
@[inline] def ofNat (n : Nat) : Variable := ⟨UInt32.ofNat n⟩

/-- The signed word that stands for a variable in a record. -/
@[inline] def toSigned (v : Variable) : Int32 := v.index.toInt32

/-- The variable that a signed word stands for; a negative word stands for none. -/
def ofSigned? (raw : Int32) : Option Variable :=
  if raw < 0 then none else some ⟨raw.toUInt32⟩

instance : ToString Variable := ⟨fun v => toString v.index⟩

end Variable

/-- The number that a registry gave to a rule. -/
structure RuleId where
  number : UInt32
deriving DecidableEq, Hashable, Inhabited, Repr

namespace RuleId

@[inline] def toNat (r : RuleId) : Nat := r.number.toNat

/-- The id with a number below `2 ^ 32`. -/
@[inline] def ofNat (n : Nat) : RuleId := ⟨UInt32.ofNat n⟩

instance : ToString RuleId := ⟨fun r => s!"rule#{r.number}"⟩

end RuleId

end HingeLoss

import HingeLoss.Descent.Step
import Mathlib.Data.Set.Function

/-!
# HingeLoss.Proofs.Descent.Slots

Where the accumulators of an atom are.

The slot of an unobserved atom is its rank, the number of unobserved atoms before it
(`getElem?_slotsOf`).  Ranks grow from one unobserved atom to the next, and each number below that of
the unobserved atoms is the rank of one, so no two variables share a slot and no slot is left over
(`bijOn_rank`), wherever the observed atoms stand.
-/

namespace HingeLoss

@[simp] theorem AtomKind.isObserved_observed : observed.isObserved = true := rfl

@[simp] theorem AtomKind.isObserved_unobserved : unobserved.isObserved = false := rfl

/-- How many unobserved atoms stand before a position. -/
def rank (kinds : List AtomKind) (i : Nat) : Nat := (kinds.take i).countP (!·.isObserved)

variable {kinds : List AtomKind} {i j : Nat}

@[simp] theorem rank_zero (kinds : List AtomKind) : rank kinds 0 = 0 := rfl

@[simp] theorem rank_observed_cons (kinds : List AtomKind) (i : Nat) :
    rank (.observed :: kinds) (i + 1) = rank kinds i := by simp [rank]

@[simp] theorem rank_unobserved_cons (kinds : List AtomKind) (i : Nat) :
    rank (.unobserved :: kinds) (i + 1) = rank kinds i + 1 := by simp [rank]

@[simp] theorem length_slotsOf (kinds : List AtomKind) (next : Nat) :
    (slotsOf kinds next).length = kinds.length := by
  induction kinds generalizing next with
  | nil => rfl
  | cons kind kinds ih => cases kind <;> simp [slotsOf, ih]

theorem getElem?_slotsOf (kinds : List AtomKind) (next i : Nat) :
    (slotsOf kinds next)[i]? =
      kinds[i]?.map fun kind => if kind.isObserved then none else some (next + rank kinds i) := by
  induction kinds generalizing next i with
  | nil => simp [slotsOf]
  | cons kind kinds ih =>
    cases kind <;> cases i <;>
      simp [slotsOf, ih, Nat.add_assoc, Nat.add_comm 1]

/-- Later unobserved atoms have greater ranks. -/
theorem rank_lt_rank (hi : kinds[i]? = some .unobserved) (hij : i < j) :
    rank kinds i < rank kinds j := by
  induction kinds generalizing i j with
  | nil => simp at hi
  | cons kind kinds ih =>
    obtain ⟨j, rfl⟩ : ∃ k, j = k + 1 := ⟨j - 1, by omega⟩
    cases i with
    | zero =>
      obtain rfl : kind = .unobserved := by simpa using hi
      simp
    | succ i =>
      have hrest := ih (i := i) (j := j) (by simpa using hi) (by omega)
      cases kind <;> simpa using hrest

/-- Every number below that of the unobserved atoms is the rank of one. -/
theorem exists_rank_eq {slot : Nat} (h : slot < kinds.countP (!·.isObserved)) :
    ∃ i, kinds[i]? = some .unobserved ∧ rank kinds i = slot := by
  induction kinds generalizing slot with
  | nil => simp at h
  | cons kind kinds ih =>
    cases kind with
    | observed =>
      have hslot : slot < kinds.countP (!·.isObserved) := by simpa using h
      obtain ⟨i, hi, hrank⟩ := ih hslot
      exact ⟨i + 1, by simpa using hi, by simpa using hrank⟩
    | unobserved =>
      cases slot with
      | zero => exact ⟨0, rfl, rfl⟩
      | succ slot =>
        have hslot : slot < kinds.countP (!·.isObserved) := by simpa using h
        obtain ⟨i, hi, hrank⟩ := ih hslot
        exact ⟨i + 1, by simpa using hi, by simpa using hrank⟩

theorem rank_lt_countP (hi : kinds[i]? = some .unobserved) :
    rank kinds i < kinds.countP (!·.isObserved) := by
  obtain ⟨hlength, -⟩ := List.getElem?_eq_some_iff.mp hi
  simpa [rank] using rank_lt_rank hi hlength

/-- **Ranks number the unobserved atoms without gaps.** -/
theorem bijOn_rank (kinds : List AtomKind) :
    Set.BijOn (rank kinds) {i | kinds[i]? = some .unobserved}
      {slot | slot < kinds.countP (!·.isObserved)} := by
  refine ⟨fun i hi => rank_lt_countP hi, fun i hi j hj hrank => ?_, fun slot h => exists_rank_eq h⟩
  by_contra hne
  obtain hlt | hlt := Nat.lt_or_gt_of_ne hne
  · exact absurd hrank (rank_lt_rank hi hlt).ne
  · exact absurd hrank (rank_lt_rank hj hlt).ne'

end HingeLoss

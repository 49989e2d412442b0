import HingeLoss.LinearForm

/-!
# HingeLoss.Proofs.Grounding.Forms

Every variable of a linear form has one entry.

A form is searched for a variable before an entry is added for it, and a long form is searched
through its table of positions.  So the variables are distinct as long as the table is right, and
the two facts are carried along together: `IsSound` holds of the empty form and is preserved by
each operation, so it holds of every form that can be built (`IsBuilt.isSound`).
-/

namespace HingeLoss.LinearForm

/-- Forms that are made from the empty one by the operations on forms. -/
inductive IsBuilt {α : Type} [Scalar α] : LinearForm α → Prop where
  | empty : IsBuilt empty
  | add {f : LinearForm α} (h : IsBuilt f) (v : Variable) (c : α) : IsBuilt (f.add v c)
  | withConstant {f : LinearForm α} (h : IsBuilt f) (c : α) : IsBuilt (f.withConstant c)
  | prune {f : LinearForm α} (h : IsBuilt f) : IsBuilt f.prune
  | negate {f : LinearForm α} (h : IsBuilt f) : IsBuilt f.negate

/-! ## Tables of positions -/

section Tables

variable {positions : Std.HashMap Variable Nat} {vs : List Variable} {v : Variable}

/-- Whether a table gives every variable its position. -/
def IsTable (positions : Std.HashMap Variable Nat) (vs : List Variable) : Prop :=
  ∀ (v : Variable) (i : Nat), positions[v]? = some i ↔ vs[i]? = some v

theorem isTable_empty : IsTable ∅ [] := by
  intro v i
  simp

theorem IsTable.insert (h : IsTable positions vs) (hnew : v ∉ vs) :
    IsTable (positions.insert v vs.length) (vs ++ [v]) := by
  intro w i
  rw [Std.HashMap.getElem?_insert, List.getElem?_append]
  by_cases hlt : i < vs.length
  · have hne : vs[i]? = some w → v ≠ w := fun hw hvw => hnew (hvw ▸ List.mem_of_getElem? hw)
    rw [if_pos hlt]
    grind [h w i]
  · have hnone : vs[i]? = none := List.getElem?_eq_none (Nat.not_lt.mp hlt)
    rw [if_neg hlt]
    grind [h w i]

/-- Entries for new variables can be taken into a table one after the other. -/
theorem isTable_foldl {α : Type} {es : List (Entry α)} (h : IsTable positions vs)
    (hvars : (vs ++ es.map (·.var)).Nodup) :
    IsTable ((es.zipIdx vs.length).foldl (fun m (e, i) => m.insert e.var i) positions)
      (vs ++ es.map (·.var)) := by
  induction es generalizing vs positions with
  | nil => simpa using h
  | cons e es ih =>
    rw [List.map_cons, List.append_cons] at hvars ⊢
    have hnew : e.var ∉ vs := by grind
    have hrest := ih (h.insert hnew) hvars
    rwa [List.length_append] at hrest

theorem isTable_indexAll {α : Type} {entries : Array (Entry α)}
    (hvars : (entries.toList.map (·.var)).Nodup) :
    IsTable (indexAll entries) (entries.toList.map (·.var)) := by
  have hall := isTable_foldl isTable_empty hvars
  rwa [indexAll, ← Array.foldl_toList, Array.toList_zipIdx]

end Tables

/-! ## Pruning -/

section Pruning

variable {α : Type} [Scalar α] {entries : Array (Entry α)} {s : Array (Entry α) × Nat} {i : Nat}

/-- What the loop of a pruning has done when it has come to a position: the entries that are kept
stand at the front, and those from the position on stand where they were. -/
structure IsCompacted (entries : Array (Entry α)) (i : Nat) (s : Array (Entry α) × Nat) : Prop where
  size_eq : s.1.size = entries.size
  kept_le : s.2 ≤ i
  front : s.1.toList.take s.2 =
    (entries.toList.take i).filter fun e => ¬ Scalar.IsZero e.coefficient
  rest : ∀ j, i ≤ j → s.1[j]? = entries[j]?

theorem IsCompacted.keepAt (h : IsCompacted entries i s) (hi : i < entries.size) :
    IsCompacted entries (i + 1) (keepAt s i) := by
  obtain ⟨es, kept⟩ := s
  obtain ⟨hsize, hkept, hfront, hrest⟩ := h
  simp only at hsize hkept hfront hrest
  have hentry : es[i]? = some entries[i] := by simp [hrest i (Nat.le_refl i), hi]
  have htake : entries.toList.take (i + 1) = entries.toList.take i ++ [entries[i]] := by
    simp [List.take_add_one, hi]
  unfold LinearForm.keepAt
  simp only [hentry]
  by_cases hzero : Scalar.IsZero entries[i].coefficient
  · simp only [if_pos hzero]
    constructor
    · exact hsize
    · exact Nat.le_succ_of_le hkept
    · simpa [htake, hzero] using hfront
    · intro j hj
      exact hrest j (Nat.le_of_succ_le hj)
  · -- The entry goes behind those kept so far, and what it takes the place of goes no further.
    have hplace : kept < es.size := by omega
    have hpos : i < es.size := by omega
    have hhere : es[i] = entries[i] := by simpa [hpos] using hentry
    simp only [if_neg hzero, Array.swapIfInBounds_def, hplace, hpos, dif_pos]
    constructor
    · simpa using hsize
    · exact Nat.succ_le_succ hkept
    · have hmoved : (es.swap kept i hplace hpos)[kept]? = some entries[i] := by
        rw [Array.getElem?_swap]
        split
        · next heq => simp only [← heq, hhere]
        · simp [hhere]
      have hbefore : (es.swap kept i hplace hpos).toList.take kept = es.toList.take kept := by
        rw [Array.toList_swap, List.take_set_of_le hkept, List.take_set_of_le (Nat.le_refl kept)]
      rw [List.take_add_one, hbefore, hfront, htake, List.filter_append, Array.getElem?_toList,
        hmoved]
      simp [hzero]
    · intro j hj
      rw [Array.getElem?_swap, if_neg (by omega), if_neg (by omega)]
      exact hrest j (Nat.le_of_succ_le hj)

theorem isCompacted_compact (entries : Array (Entry α)) :
    IsCompacted entries entries.size (compact entries) := by
  suffices hloop : ∀ n ≤ entries.size,
      IsCompacted entries n ((List.range n).foldl LinearForm.keepAt (entries, 0)) from
    hloop entries.size (Nat.le_refl _)
  intro n hn
  induction n with
  | zero => exact ⟨rfl, Nat.le_refl 0, by simp, fun _ _ => rfl⟩
  | succ n ih =>
    rw [List.range_succ, List.foldl_append]
    exact (ih (Nat.le_of_succ_le hn)).keepAt hn

/-- **Pruning is a filter.**  The loop leaves the entries whose coefficient is not zero, in their
order, and the table is dropped exactly if entries are. -/
theorem prune_eq (f : LinearForm α) : f.prune =
    let kept := f.entries.filter fun e => ¬ Scalar.IsZero e.coefficient
    if kept.size < f.size then { f with entries := kept, positions := ∅ } else f := by
  obtain ⟨hsize, hcount, hfront, -⟩ := isCompacted_compact f.entries
  rw [← Array.length_toList, List.take_length, ← Array.toList_filter] at hfront
  have hall (hsame : (f.entries.filter fun e => ¬ Scalar.IsZero e.coefficient).size = f.size) :
      (f.entries.filter fun e => ¬ Scalar.IsZero e.coefficient) = f.entries :=
    Array.filter_eq_self.mpr (Array.filter_size_eq_size.mp hsame)
  unfold prune
  rw [← size] at hsize hcount
  generalize compact f.entries = s at hsize hcount hfront
  generalize f.entries.filter (fun e => ¬ Scalar.IsZero e.coefficient) = kept at hfront hall
  obtain ⟨es, count⟩ := s
  simp only at hsize hcount hfront ⊢
  have hkept : kept = es.take count := by
    apply Array.toList_inj.mp
    simp [← hfront]
  have hsizes : kept.size = count := by simp [hkept]; omega
  by_cases hdropped : count < f.size
  · rw [if_pos hdropped, if_pos (by omega), hkept]
  · have hwhole : kept = es := by
      rw [hkept, Array.take_eq_extract, Array.extract_eq_self_of_le (by omega)]
    rw [if_neg hdropped, if_neg (by omega), ← hwhole, hall (by omega)]

end Pruning

/-! ## Sound forms -/

/-- Every variable has one entry, and a table of positions is right. -/
structure IsSound {α : Type} (f : LinearForm α) : Prop where
  nodup : f.vars.Nodup
  table : f.positions.isEmpty = false → IsTable f.positions f.vars

variable {α : Type} {f g : LinearForm α} {v : Variable}

theorem IsSound.of_eq (h : f.IsSound) (hvars : g.vars = f.vars)
    (hpositions : g.positions = f.positions) : g.IsSound :=
  ⟨hvars ▸ h.nodup, hvars ▸ hpositions ▸ h.table⟩

/-! ### Searching -/

@[simp] theorem entries_index (f : LinearForm α) : f.index.entries = f.entries := by
  unfold index
  split <;> rfl

@[simp] theorem vars_index (f : LinearForm α) : f.index.vars = f.vars := by
  rw [vars, entries_index, vars]

@[simp] theorem size_index (f : LinearForm α) : f.index.size = f.size := by
  rw [size, entries_index, size]

theorem IsSound.index (h : f.IsSound) : f.index.IsSound := by
  unfold LinearForm.index
  split
  · exact h
  · exact ⟨h.nodup, fun _ => isTable_indexAll h.nodup⟩

/-- A long form has a table when it is searched. -/
theorem IsSound.isTable_index (h : f.IsSound) (hlong : indexedFrom ≤ f.size) :
    IsTable f.index.positions f.vars := by
  unfold LinearForm.index
  split
  · next hkept => exact h.table (hkept.resolve_left (Nat.not_lt.mpr hlong))
  · exact isTable_indexAll h.nodup

/-- A variable that is not found has no entry. -/
theorem IsSound.not_mem_vars (h : f.IsSound) (hnone : f.index.position? v = none) :
    v ∉ f.vars := by
  unfold position? at hnone
  rw [size_index, entries_index] at hnone
  split at hnone
  · have hall := Array.findIdx?_eq_none_iff.mp hnone
    simpa [vars] using hall
  · next hlong =>
    have htable := h.isTable_index (Nat.not_lt.mp hlong)
    intro hv
    obtain ⟨i, hi⟩ := List.getElem?_of_mem hv
    rw [(htable v i).mpr hi] at hnone
    contradiction

/-- A variable that is found has its entry there. -/
theorem IsSound.getElem?_vars (h : f.IsSound) {i : Nat} (hsome : f.index.position? v = some i) :
    f.vars[i]? = some v := by
  unfold position? at hsome
  rw [size_index, entries_index] at hsome
  split at hsome
  · obtain ⟨hi, hfound, _⟩ := Array.findIdx?_eq_some_iff_getElem.mp hsome
    simpa [vars, hi] using hfound
  · next hlong => exact (h.isTable_index (Nat.not_lt.mp hlong) v i).mp hsome

/-! ### Operations -/

/-- Changing the coefficient of an entry keeps the variables. -/
theorem map_var_modify (es : List (Entry α)) (i : Nat) (change : α → α) :
    (es.modify i fun e => { e with coefficient := change e.coefficient }).map (·.var) =
      es.map (·.var) := by
  apply List.ext_getElem?
  intro j
  rw [List.getElem?_map, List.getElem?_modify, List.getElem?_map]
  cases es[j]? with
  | none => rfl
  | some e => split <;> rfl

variable [Scalar α]

theorem IsSound.add (h : f.IsSound) (v : Variable) (c : α) : (f.add v c).IsSound := by
  unfold LinearForm.add
  split
  next entries constant positions hindex =>
  have hsound := h.index
  rw [hindex] at hsound
  split
  · -- the variable has an entry, whose coefficient changes
    refine hsound.of_eq ?_ rfl
    rw [vars, Array.toList_modify, map_var_modify _ _ (· + c), vars]
  · next hnone =>
    have hnew : v ∉ entries.toList.map (·.var) := by
      have hnew := h.not_mem_vars (hindex ▸ hnone)
      rwa [← vars_index, hindex] at hnew
    have hvars : (entries.push ⟨c, v⟩).toList.map (·.var) = entries.toList.map (·.var) ++ [v] := by
      rw [Array.toList_push, List.map_append, List.map_singleton]
    constructor
    · rw [vars, hvars, List.nodup_append]
      exact ⟨hsound.nodup, List.pairwise_singleton _ v, by grind⟩
    · rw [vars, hvars]
      by_cases hempty : positions.isEmpty = true
      · simp only [hempty, if_true]
        exact fun h => nomatch h
      · simp only [if_neg hempty]
        have htable := (hsound.table (Bool.eq_false_iff.mpr hempty)).insert hnew
        rw [vars, List.length_map, Array.length_toList] at htable
        exact fun _ => htable

/-- Where entries are dropped, the table is dropped with them. -/
theorem IsSound.prune (h : f.IsSound) : f.prune.IsSound := by
  rw [prune_eq]
  simp only
  split
  · refine ⟨?_, fun hne => nomatch Std.HashMap.isEmpty_empty.symm.trans hne⟩
    rw [vars, Array.toList_filter]
    exact h.nodup.sublist (List.filter_sublist.map _)
  · exact h

theorem vars_negate (f : LinearForm α) : f.negate.vars = f.vars := by
  simp [vars, negate]

theorem IsBuilt.isSound (h : f.IsBuilt) : f.IsSound := by
  induction h with
  | empty => exact ⟨List.nodup_nil, fun hne => nomatch Std.HashMap.isEmpty_empty.symm.trans hne⟩
  | add _ v c ih => exact ih.add v c
  | withConstant _ _ ih => exact ih.of_eq rfl rfl
  | prune _ ih => exact ih.prune
  | negate _ ih => exact ih.of_eq (vars_negate _) rfl

end HingeLoss.LinearForm

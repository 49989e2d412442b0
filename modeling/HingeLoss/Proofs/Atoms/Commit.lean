import HingeLoss.Atoms.Table
import HingeLoss.Proofs.Program

/-!
# HingeLoss.Proofs.Atoms.Commit

What setting all values and committing them keep of a table.

1. setting values replaces the values or changes nothing;
2. saving changes the place of the table at most;
3. a sync commits before it saves, so after a sync that fails the committed values are the present
   ones all the same (`exists_save_of_sync_error`).
-/

namespace HingeLoss

namespace AtomTable

variable {I : AtomTable → Prop} {t t' : AtomTable} {values : Array Single}

theorem setValues_ok (h : values.size = t.atoms.size) :
    setValues values t = .ok () { t with values, size_values := h } := by
  unfold setValues
  rw [dif_pos h]

theorem setValues_eq_ok (h : setValues values t = .ok () t') :
    ∃ hsize : values.size = t.atoms.size, t' = { t with values, size_values := hsize } := by
  by_cases hsize : values.size = t.atoms.size
  · rw [setValues_ok hsize] at h
    injection h with _ h
    exact ⟨hsize, h.symm⟩
  · rw [setValues, dif_neg hsize] at h
    contradiction

theorem keeps_setValues
    (h : ∀ t (hsize : values.size = t.atoms.size), I t → I { t with values, size_values := hsize }) :
    Preserves I (setValues values) := by
  intro t ht
  by_cases hsize : values.size = t.atoms.size
  · rw [setValues_ok hsize]
    exact ⟨trivial, h t hsize ht⟩
  · rw [setValues, dif_neg hsize]
    exact ⟨trivial, ht⟩

theorem keeps_setValue (v : Variable) (value : Single)
    (h : ∀ t (hsize : (t.values.setIfInBounds v.toNat value).size = t.atoms.size), I t →
      I { t with values := t.values.setIfInBounds v.toNat value, size_values := hsize }) :
    Preserves I (setValue v value) := by
  intro t ht
  by_cases hsize : v.toNat < t.size
  · rw [setValue, if_pos hsize]
    exact ⟨trivial, h t _ ht⟩
  · rw [setValue, if_neg hsize]
    exact ⟨trivial, ht⟩

/-- Setting values neither adds atoms nor takes any away. -/
theorem keeps_size_setValues (n : Nat) (values : Array Single) :
    Preserves (fun t => t.size = n) (setValues values) :=
  keeps_setValues fun _ _ ht => ht

theorem keeps_save (h : ∀ t p, t.place.isSome = true → I t → I { t with place := some p }) :
    Preserves I save := by
  intro t ht
  cases hplace : t.place with
  | none => simp only [save, hplace]; exact ⟨trivial, ht⟩
  | some p =>
    have hsome : t.place.isSome = true := by rw [hplace]; rfl
    cases hsave : p.save t.archive.encode.toArray with
    | ok _ p => simp only [save, hplace, hsave]; exact ⟨trivial, h t p hsome ht⟩
    | error e p => simp only [save, hplace, hsave]; exact ⟨trivial, h t p hsome ht⟩

theorem keeps_sync (hcommit : ∀ t, I t → I t.commit)
    (hplace : ∀ t p, t.place.isSome = true → I t → I { t with place := some p }) :
    Preserves I sync :=
  Keeps.get.bind fun _ _ => (Keeps.modify hcommit).bind fun _ _ =>
    (keeps_save hplace).bind fun _ _ => Keeps.pure trivial

@[simp] theorem size_commit (t : AtomTable) : t.commit.size = t.size := by
  simp [commit, size, t.size_values]

/-- Committing neither adds atoms nor takes any away. -/
theorem keeps_size_sync (n : Nat) : Preserves (fun t => t.size = n) sync :=
  keeps_sync (fun t ht => t.size_commit.trans ht) fun _ _ _ ht => ht

def committed (t : AtomTable) : Array Single := t.atoms.map (·.committed)

@[simp] theorem committed_commit (t : AtomTable) : t.commit.committed = t.values := by
  refine Array.ext (by simp [committed, commit, t.size_values]) fun i h₁ h₂ => ?_
  simp [committed, commit]

theorem save_eq_ok (h : save t = .ok () t') : ∃ place, t' = { t with place } := by
  unfold save at h
  cases hplace : t.place with
  | none =>
    rw [hplace] at h
    injection h with _ h
    exact ⟨t.place, h.symm⟩
  | some p =>
    rw [hplace] at h
    cases hsave : p.save t.archive.encode.toArray with
    | ok _ p =>
      simp only [hsave] at h
      injection h with _ h
      exact ⟨some p, h.symm⟩
    | error e p => simp only [hsave] at h; contradiction

/-- A table without a place is committed and not saved. -/
theorem sync_of_place_none (h : t.place = none) : sync t = .ok t.change t.commit := by
  have hsave : save t.commit = .ok () t.commit := by simp only [save, commit, h]
  unfold sync
  rw [bind_ok (get_apply t), bind_ok (modify_apply _ t), bind_ok hsave, pure_apply]

/-- A sync that succeeds has committed the present values. -/
theorem sync_eq_ok {moved : Double} (h : sync t = .ok moved t') :
    t'.values = t.values ∧ t'.committed = t.values := by
  unfold sync at h
  rw [bind_ok (get_apply t), bind_ok (modify_apply _ t)] at h
  obtain ⟨_, u, hsave, h⟩ := bind_eq_ok h
  injection h with _ h
  subst h
  obtain ⟨place, rfl⟩ := save_eq_ok hsave
  exact ⟨rfl, committed_commit t⟩

/-- A sync that succeeds has saved the table as it is committed, and has told how far the values
have moved. -/
theorem exists_save_of_sync_ok {moved : Double} {p : Place} (hplace : t.place = some p)
    (h : sync t = .ok moved t') :
    moved = t.change ∧ ∃ p', t' = { t.commit with place := some p' } ∧
      p.save t.commit.archive.encode.toArray = .ok () p' := by
  unfold sync at h
  rw [bind_ok (get_apply t), bind_ok (modify_apply _ t)] at h
  obtain ⟨_, u, hsave, h⟩ := bind_eq_ok h
  injection h with hmoved h
  subst h
  have hcommit : t.commit.place = some p := hplace
  simp only [save, hcommit] at hsave
  cases hput : p.save t.commit.archive.encode.toArray with
  | ok _ q =>
    rw [hput] at hsave
    injection hsave with _ hu
    exact ⟨hmoved.symm, q, hu.symm, rfl⟩
  | error e q =>
    rw [hput] at hsave
    contradiction

/-- **A sync fails where the table cannot be saved**, and then it has committed the present values
before. -/
theorem exists_save_of_sync_error {e : Fault} (h : sync t = .error e t') :
    ∃ p p' f, t.place = some p ∧ e = .file f ∧ t' = { t.commit with place := some p' } ∧
      p.save t.commit.archive.encode.toArray = .error f p' := by
  cases hplace : t.place with
  | none =>
    rw [sync_of_place_none hplace] at h
    contradiction
  | some p =>
    unfold sync at h
    rw [bind_ok (get_apply t), bind_ok (modify_apply _ t)] at h
    have hcommit : t.commit.place = some p := hplace
    cases hsave : p.save t.commit.archive.encode.toArray with
    | ok _ q =>
      have hsaved : save t.commit = .ok () { t.commit with place := some q } := by
        simp only [save, hcommit, hsave]
      rw [bind_ok hsaved] at h
      contradiction
    | error f q =>
      have hfailed : save t.commit = .error (.file f) { t.commit with place := some q } := by
        simp only [save, hcommit, hsave]
      rw [bind_error hfailed] at h
      injection h with he ht
      exact ⟨p, q, f, rfl, he.symm, ht.symm, hsave⟩

/-- Only a table with a place can fail to be saved. -/
theorem sync_eq_error {e : Fault} (h : sync t = .error e t') :
    t.place.isSome = true ∧ ∃ f, e = .file f := by
  obtain ⟨p, _, f, hplace, he, _⟩ := exists_save_of_sync_error h
  exact ⟨by rw [hplace]; rfl, f, he⟩

end AtomTable

end HingeLoss

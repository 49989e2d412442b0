import HingeLoss.Proofs.Atoms.Commit

/-!
# HingeLoss.Proofs.Atoms.Saving

What a table leaves on its disk when it is saved, and when it cannot be saved.

1. `Place.SaveEnds` lists the ways in which a saving ends, with the place that each of them leaves;
2. a saving that succeeds leaves the bytes at the path (`Place.entry_of_save`);
3. one that fails may have made directories, and something may stand at the location of the
   temporary file;
4. all other files are as they were (`Place.isSpared_of_save`), and so is the file of the table,
   unless it is its own temporary file (`Place.contents_of_save_error`).
-/

namespace HingeLoss

namespace Disk

variable {d : Disk} {k l : Location}

theorem entryAt_put_of_ne (h : k ≠ l) (e : DiskEntry) (d : Disk) :
    (d.put l e).entryAt k = d.entryAt k := by
  simp [entryAt, put, List.lookup_cons, beq_eq_false_iff_ne.2 h]

/-- Only the outermost directory has the empty location. -/
theorem ne_nil_of_isDirectory (h : (d.entryAt l).isDirectory = false) : l ≠ [] := by
  rintro rfl
  contradiction

theorem entryAt_put_self (h : (d.entryAt l).isDirectory = false) (e : DiskEntry) :
    (d.put l e).entryAt l = e := by
  rw [entryAt_put (ne_nil_of_isDirectory h), if_pos rfl]

/-- The directories that are made on a way leave all files as they are. -/
theorem bytes_makeWay (ns : List Path.Name) (l : Location) (d : Disk) (k : Location) :
    ((makeWay ns l d).2.entryAt k).bytes? = (d.entryAt k).bytes? := by
  induction ns generalizing l d with
  | nil => rfl
  | cons n ns ih =>
    unfold makeWay
    simp only
    split
    · exact ih _ _
    · rfl
    · next habsent =>
      split
      · rw [ih]
        by_cases hk : k = l.step n
        · subst hk
          have hne : l.step n ≠ [] := by
            intro hroot
            rw [entryAt, if_pos hroot] at habsent
            contradiction
          rw [entryAt_put hne, if_pos rfl, habsent]
          rfl
        · rw [entryAt_put_of_ne hk]
      · rfl

theorem bytes_makeWayTo (path : String) (d : Disk) (k : Location) :
    ((makeWayTo path d).2.entryAt k).bytes? = (d.entryAt k).bytes? := by
  unfold makeWayTo
  split
  · exact bytes_makeWay _ _ _ _
  · rfl

/-- A way stays open when something is put where no directory stands. -/
theorem hasWay_put {ns : List Path.Name} (hl : (d.entryAt l).isDirectory = false) (e : DiskEntry)
    (h : d.hasWay ns k = true) : (d.put l e).hasWay ns k = true := by
  induction ns generalizing k with
  | nil => rfl
  | cons n ns ih =>
    simp only [hasWay, Bool.and_eq_true] at h ⊢
    have hne : k.step n ≠ l := by
      rintro rfl
      exact Bool.false_ne_true (hl.symm.trans h.1)
    rw [entryAt_put_of_ne hne]
    exact ⟨h.1, ih h.2⟩

theorem reaches_put {path : String} (hl : (d.entryAt l).isDirectory = false) (e : DiskEntry)
    (h : d.reaches path = true) : (d.put l e).reaches path = true := by
  simp only [reaches, Bool.and_eq_true] at h ⊢
  exact ⟨h.1, hasWay_put hl e h.2⟩

/-- Making directories closes no way. -/
theorem reaches_makeWay {path : String} {ns : List Path.Name} (h : d.reaches path = true) :
    (makeWay ns l d).2.reaches path = true := by
  induction ns generalizing l d with
  | nil => exact h
  | cons n ns ih =>
    unfold makeWay
    simp only
    split
    · exact ih h
    · exact h
    · next habsent =>
      split
      · exact ih (reaches_put (by rw [habsent]; rfl) _ h)
      · exact h

theorem reaches_makeWayTo {path : String} (target : String) (h : d.reaches path = true) :
    (makeWayTo target d).2.reaches path = true := by
  unfold makeWayTo
  split
  · exact reaches_makeWay h
  · exact h

theorem takesFile_eq_true {path : String} (h : d.takesFile path = true) :
    d.reaches path = true ∧ Path.endsInName path = true ∧
      (d.entryAt (.ofPath path)).isDirectory = false := by
  simp only [takesFile, Bool.and_eq_true, Bool.not_eq_true'] at h
  exact ⟨h.1.1.1, h.1.1.2, h.2⟩

/-- A file stands at a path if the path leads to it and ends in its name. -/
theorem entry_eq_file_iff {path : String} {bytes : Array UInt8} :
    d.entry path = .file bytes ↔ d.reaches path = true ∧ Path.endsInName path = true ∧
      d.entryAt (.ofPath path) = .file bytes := by
  simp only [entry]
  constructor
  · intro h
    split at h
    · next hreach =>
      rw [h] at hreach
      simp only [DiskEntry.isDirectory, Bool.false_or, Bool.and_eq_true] at hreach
      exact ⟨hreach.1, hreach.2, h⟩
    · contradiction
  · rintro ⟨hreach, hname, h⟩
    rw [if_pos (by simp [hreach, hname]), h]

end Disk

namespace Place

/-! ## How a saving ends -/

/-- A place with as much of the way to its file as can be made. -/
def withWay (p : Place) : Place := { p with disk := (p.disk.makeWayTo p.path).2 }

/-- A place with its temporary file. -/
def withTemporary (p : Place) (bytes : Array UInt8) : Place :=
  p.put p.temporaryPath (.file bytes)

/-- A place whose temporary file has taken the name of its file. -/
def withFile (p : Place) (bytes : Array UInt8) : Place :=
  (p.put p.temporaryPath .absent).put p.path (.file bytes)

section Fields

variable (p : Place) (bytes : Array UInt8)

@[simp] theorem path_withWay : p.withWay.path = p.path := by simp only [withWay]

@[simp] theorem refused_withWay : p.withWay.refused = p.refused := by simp only [withWay]

@[simp] theorem disk_withWay : p.withWay.disk = (p.disk.makeWayTo p.path).2 := by
  simp only [withWay]

@[simp] theorem path_withTemporary : (p.withTemporary bytes).path = p.path := rfl

@[simp] theorem refused_withTemporary : (p.withTemporary bytes).refused = p.refused := rfl

@[simp] theorem disk_withTemporary :
    (p.withTemporary bytes).disk = p.disk.put (.ofPath p.temporaryPath) (.file bytes) := rfl

@[simp] theorem path_withFile : (p.withFile bytes).path = p.path := rfl

@[simp] theorem refused_withFile : (p.withFile bytes).refused = p.refused := rfl

@[simp] theorem disk_withFile : (p.withFile bytes).disk =
    (p.disk.put (.ofPath p.temporaryPath) .absent).put (.ofPath p.path) (.file bytes) := rfl

/-- The name of the temporary file is made of the path alone. -/
theorem temporaryPath_congr {p q : Place} (h : q.path = p.path) :
    q.temporaryPath = p.temporaryPath := by
  rw [temporaryPath, temporaryPath, h]

end Fields

/-- The ways in which a saving from `p` ends, where `q` is `p` with the way made. -/
inductive SaveEnds (bytes : Array UInt8) (p q : Place) :
    EStateM.Result FileFault Place Unit → Prop
  | refused : SaveEnds bytes p q (.error .createVariableDirectory p)
  | way : SaveEnds bytes p q (.error .createVariableDirectory q)
  | temporary : SaveEnds bytes p q (.error .createTemporary q)
  | write (kept : Nat) (h : q.disk.takesFile q.temporaryPath = true) :
      SaveEnds bytes p q (.error .writeVariables (q.withTemporary (bytes.take kept)))
  | flush (h : q.disk.takesFile q.temporaryPath = true) :
      SaveEnds bytes p q (.error .flushVariables (q.withTemporary bytes))
  | rename (h : q.disk.takesFile q.temporaryPath = true) :
      SaveEnds bytes p q (.error .renameVariables (q.withTemporary bytes))
  | saved (h : q.disk.takesFile q.temporaryPath = true)
      (hpath : (q.withTemporary bytes).disk.takesFile (q.withTemporary bytes).path = true) :
      SaveEnds bytes p q (.ok () ((q.withTemporary bytes).withFile bytes))

/-- **A saving ends in one of these ways.** -/
theorem saveEnds_save (p : Place) (bytes : Array UInt8) :
    SaveEnds bytes p p.withWay (p.save bytes) := by
  change EndsIn (SaveEnds bytes p p.withWay) (save bytes) p
  unfold save
  refine .get_bind (.ite (fun _ => .throw_bind .refused) fun _ => ?_)
  cases hmade : p.disk.makeWayTo p.path with
  | mk made disk =>
    have hway : p.withWay = { p with disk } := by rw [withWay, hmade]
    rw [hway]
    refine .set_bind (.ite (fun _ => .throw_bind .way) fun _ => ?_)
    refine .ite (fun _ => .throw_bind .temporary) fun htemporary => ?_
    rw [not_or, Decidable.not_not] at htemporary
    dsimp only
    split
    · exact .set_bind (.throw_bind (.write _ htemporary.1))
    · refine .set_bind (.ite (fun _ => .throw_bind (.flush htemporary.1)) fun _ => ?_)
      refine .ite (fun _ => .throw_bind (.rename htemporary.1)) fun hrename => ?_
      rw [not_or, Decidable.not_not] at hrename
      exact .set (.saved htemporary.1 hrename.1)

/-- A place after a saving that has failed: the files are as before, but for the temporary one. -/
structure IsSpared (p p' : Place) : Prop where
  path_eq : p'.path = p.path
  bytes_eq : ∀ l, l ≠ .ofPath p.temporaryPath →
    (p'.disk.entryAt l).bytes? = (p.disk.entryAt l).bytes?

/-- **A saving that fails spares the files**, at whatever step it has failed. -/
theorem isSpared_of_save {p p' : Place} {bytes : Array UInt8} {f : FileFault}
    (h : p.save bytes = .error f p') : p.IsSpared p' := by
  have hends := saveEnds_save p bytes
  rw [h] at hends
  have hway : p.IsSpared p.withWay :=
    ⟨path_withWay p, fun l _ => by rw [disk_withWay, Disk.bytes_makeWayTo]⟩
  generalize p.withWay = q at hends hway
  have htemporary (bs : Array UInt8) : p.IsSpared (q.withTemporary bs) := by
    refine ⟨hway.path_eq, fun l hl => ?_⟩
    rw [disk_withTemporary, temporaryPath_congr hway.path_eq, Disk.entryAt_put_of_ne hl]
    exact hway.bytes_eq l hl
  cases hends with
  | refused => exact ⟨rfl, fun _ _ => rfl⟩
  | way => exact hway
  | temporary => exact hway
  | write kept _ => exact htemporary _
  | flush _ => exact htemporary _
  | rename _ => exact htemporary _

/-! ## The file of the table -/

/-- Whether the file is its own temporary file. -/
def IsOwnTemporary (p : Place) : Prop := Location.ofPath p.temporaryPath = .ofPath p.path

instance (p : Place) : Decidable p.IsOwnTemporary := inferInstanceAs (Decidable (_ = _))

theorem isOwnTemporary_congr {p q : Place} (h : q.path = p.path) :
    q.IsOwnTemporary ↔ p.IsOwnTemporary := by
  rw [IsOwnTemporary, IsOwnTemporary, temporaryPath_congr h, h]

/-- The content of the file at the location of the path. -/
def contents (p : Place) : Option (Array UInt8) := (p.disk.entryAt (.ofPath p.path)).bytes?

/-- A fault of a saving that has begun to write. -/
def IsLate (f : FileFault) : Prop :=
  f = .writeVariables ∨ f = .flushVariables ∨ f = .renameVariables

instance (f : FileFault) : Decidable (IsLate f) := inferInstanceAs (Decidable (_ ∨ _ ∨ _))

variable {p q : Place} {bytes : Array UInt8} {f : FileFault}

theorem contents_withWay (p : Place) : p.withWay.contents = p.contents := by
  rw [contents, contents, path_withWay, disk_withWay, Disk.bytes_makeWayTo]

/-- A temporary file that is made is not the file of the table, or it has its content. -/
theorem contents_withTemporary (h : q.disk.takesFile q.temporaryPath = true) :
    (q.withTemporary bytes).contents = if q.IsOwnTemporary then some bytes else q.contents := by
  have hplain := (Disk.takesFile_eq_true h).2.2
  rw [contents, path_withTemporary, disk_withTemporary]
  split
  · next hown =>
    rw [← hown, Disk.entryAt_put_self hplain]
    rfl
  · next hother => rw [Disk.entryAt_put_of_ne (Ne.symm hother), contents]

/-- **A saving that succeeds leaves the bytes at the path.** -/
theorem entry_of_save (h : p.save bytes = .ok () q) :
    q.path = p.path ∧ q.refused = p.refused ∧ q.entry = .file bytes := by
  have hends := saveEnds_save p bytes
  rw [h] at hends
  generalize hway : p.withWay = r at hends
  have hpath : r.path = p.path := by rw [← hway, path_withWay]
  have hrefused : r.refused = p.refused := by rw [← hway, refused_withWay]
  cases hends with
  | saved htemporary hfile =>
    refine ⟨by simp [hpath], by simp [hrefused], Disk.entry_eq_file_iff.mpr ?_⟩
    have hplain := (Disk.takesFile_eq_true htemporary).2.2
    rw [disk_withTemporary, path_withTemporary] at hfile
    obtain ⟨hreach, hname, hfile⟩ := Disk.takesFile_eq_true hfile
    rw [disk_withFile, path_withFile, path_withTemporary, disk_withTemporary,
      temporaryPath_congr (path_withTemporary r bytes)]
    -- what stood at the two locations is a file or nothing, so the way to the path stays open
    have hmade : ((r.disk.put (.ofPath r.temporaryPath) (.file bytes)).entryAt
        (.ofPath r.temporaryPath)).isDirectory = false := by
      rw [Disk.entryAt_put_self hplain]
      rfl
    have hrest : (((r.disk.put (.ofPath r.temporaryPath) (.file bytes)).put
        (.ofPath r.temporaryPath) .absent).entryAt (.ofPath r.path)).isDirectory = false := by
      rw [Disk.entryAt_put (Disk.ne_nil_of_isDirectory hmade)]
      split
      · rfl
      · exact hfile
    exact ⟨Disk.reaches_put hrest _ (Disk.reaches_put hmade _ hreach), hname,
      Disk.entryAt_put_self hrest _⟩

/-- **A saving that fails leaves the file of the table as it was**, unless the file is its own
temporary file and writing has begun: then it holds the first bytes of what was to be saved. -/
theorem contents_of_save_error (h : p.save bytes = .error f q) :
    q.path = p.path ∧ q.refused = p.refused ∧
      (q.contents = p.contents ∨
        p.IsOwnTemporary ∧ IsLate f ∧ ∃ kept, q.contents = some (bytes.take kept)) := by
  have hends := saveEnds_save p bytes
  rw [h] at hends
  have hcontents := contents_withWay p
  generalize hway : p.withWay = r at hends hcontents
  have hpath : r.path = p.path := by rw [← hway, path_withWay]
  have hrefused : r.refused = p.refused := by rw [← hway, refused_withWay]
  have hlate (kept : Nat) (hf : IsLate f) (htemporary : r.disk.takesFile r.temporaryPath = true) :
      (r.withTemporary (bytes.take kept)).contents = p.contents ∨ p.IsOwnTemporary ∧ IsLate f ∧
        ∃ kept', (r.withTemporary (bytes.take kept)).contents = some (bytes.take kept') := by
    rw [contents_withTemporary htemporary, hcontents]
    split
    · next hown => exact .inr ⟨(isOwnTemporary_congr hpath).mp hown, hf, kept, rfl⟩
    · exact .inl rfl
  have hall : bytes.take bytes.size = bytes := by simp
  cases hends with
  | refused => exact ⟨rfl, rfl, .inl rfl⟩
  | way => exact ⟨hpath, hrefused, .inl hcontents⟩
  | temporary => exact ⟨hpath, hrefused, .inl hcontents⟩
  | write kept htemporary => exact ⟨hpath, hrefused, hlate kept (.inl rfl) htemporary⟩
  | flush htemporary =>
    have := hlate bytes.size (.inr (.inl rfl)) htemporary
    rw [hall] at this
    exact ⟨hpath, hrefused, this⟩
  | rename htemporary =>
    have := hlate bytes.size (.inr (.inr rfl)) htemporary
    rw [hall] at this
    exact ⟨hpath, hrefused, this⟩

/-- A saving that fails closes no way. -/
theorem reaches_of_save_error {path : String} (h : p.save bytes = .error f q)
    (hreach : p.disk.reaches path = true) : q.disk.reaches path = true := by
  have hends := saveEnds_save p bytes
  rw [h] at hends
  have hway : p.withWay.disk.reaches path = true := by
    rw [disk_withWay]
    exact Disk.reaches_makeWayTo p.path hreach
  generalize p.withWay = r at hends hway
  have htemporary (bs : Array UInt8) (htakes : r.disk.takesFile r.temporaryPath = true) :
      (r.withTemporary bs).disk.reaches path = true :=
    Disk.reaches_put (Disk.takesFile_eq_true htakes).2.2 _ hway
  cases hends with
  | refused => exact hreach
  | way => exact hway
  | temporary => exact hway
  | write kept htakes => exact htemporary _ htakes
  | flush htakes => exact htemporary _ htakes
  | rename htakes => exact htemporary _ htakes

/-- What stands at the path when a file stands there, by the content of its location. -/
theorem entry_eq_of_contents {bs : Array UInt8} (hreach : p.disk.reaches p.path = true)
    (hname : Path.endsInName p.path = true) (h : p.contents = some bs) : p.entry = .file bs := by
  refine Disk.entry_eq_file_iff.mpr ⟨hreach, hname, ?_⟩
  unfold contents at h
  cases hentry : p.disk.entryAt (.ofPath p.path) with
  | absent => rw [hentry] at h; contradiction
  | directory => rw [hentry] at h; contradiction
  | file bytes =>
    rw [hentry] at h
    cases h
    rfl

/-- A file at the path stays there through a saving that fails, if the content of its location
stays. -/
theorem entry_of_contents_eq {bs : Array UInt8} (h : p.save bytes = .error f q)
    (hsame : q.contents = p.contents) (hentry : p.entry = .file bs) : q.entry = .file bs := by
  obtain ⟨hpath, -⟩ := contents_of_save_error h
  obtain ⟨hreach, hname, hfile⟩ := Disk.entry_eq_file_iff.mp hentry
  refine entry_eq_of_contents ?_ (by rwa [hpath]) (hsame.trans (by rw [contents, hfile]; rfl))
  rw [hpath]
  exact reaches_of_save_error h hreach

end Place

end HingeLoss

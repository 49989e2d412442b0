import HingeLoss.Proofs.Atoms.Layout
import HingeLoss.Proofs.Atoms.Saving
import HingeLoss.Proofs.Scalar.Difference

/-!
# HingeLoss.Proofs.Atoms.Loading

What comes out of a file when a table is loaded from it.

1. the layer of atoms: adding them in order succeeds if each value is accepted and there is room, and
   what the table holds then is known (`pushAll_eq_ok_iff`);
2. `IsUnmoved` says that nothing has moved since the atoms came in;
3. a table comes out of a file if the file is empty, or an archive with as many flags as values, all
   of them accepted (`exists_load_file_iff`), and it is unmoved (`load_file_eq_ok_iff`);
4. what has been loaded and saved is loaded again (`load_of_sync`).
-/

namespace HingeLoss

namespace AtomTable

variable {t t' : AtomTable} {p q : Place} {a : Archive} {bytes : Array UInt8}

/-! ## Tables by their parts -/

theorem eq_of_fields (hatoms : t.atoms = t'.atoms) (hvalues : t.values = t'.values)
    (hplace : t.place = t'.place) : t = t' := by
  cases t
  cases t'
  cases hatoms
  cases hvalues
  cases hplace
  rfl

def initial (t : AtomTable) : Array Single := t.atoms.map (·.initial)

/-- A table on which nothing has moved since its atoms came in. -/
structure IsUnmoved (t : AtomTable) : Prop where
  initial_eq : t.initial = t.values
  committed_eq : t.committed = t.values
  /-- Each value is one that an atom can come with. -/
  accepts : ∀ v ∈ t.values, acceptsValue v = true

/-- What an accepted value is. -/
theorem acceptsValue_iff {v : Single} :
    acceptsValue v = true ↔ v.isFinite = true ∧ 0 ≤ v ∧ v ≤ 1 := by
  simp [acceptsValue, and_assoc]

@[simp] theorem values_archive (t : AtomTable) : t.archive.values = t.committed.toList := by
  simp [archive, committed]

@[simp] theorem length_observed_archive (t : AtomTable) : t.archive.observed.length = t.size := by
  simp [archive, size]

@[simp] theorem size_committed (t : AtomTable) : t.committed.size = t.size := by
  simp [committed, size]

/-- The archive of a table has as many flags as values. -/
theorem lengths_archive (t : AtomTable) :
    t.archive.values.length = t.archive.observed.length := by simp

/-! ## Adding atoms -/

/-- The atom that comes in with a kind and a value. -/
def newAtom (a : AtomKind × Single) : Atom := ⟨a.1, a.2, a.2⟩

theorem push_eq_ok_iff {kind : AtomKind} {value : Single} {v : Variable} :
    push kind value t = .ok v t' ↔ acceptsValue value = true ∧ t.size ≤ maxIndex ∧
      v = .ofNat t.size ∧ t'.atoms = t.atoms.push ⟨kind, value, value⟩ ∧
      t'.values = t.values.push value ∧ t'.place = t.place := by
  by_cases haccepts : acceptsValue value = true
  · by_cases hfull : maxIndex < t.size
    · have hrun : push kind value t = .error (.capacity .variableIndex t.size maxIndex) t := by
        simp [push, haccepts, hfull]
      rw [hrun]
      constructor
      · intro h
        contradiction
      · rintro ⟨-, hle, -⟩
        omega
    · have hroom : t.atoms.size ≤ maxIndex := Nat.le_of_not_lt hfull
      have hrun : push kind value t = .ok (.ofNat t.size)
          { t with
            atoms := t.atoms.push ⟨kind, value, value⟩
            values := t.values.push value
            size_values := by simp [t.size_values]
            size_le := by simpa using hroom } := by
        simp [push, haccepts, hfull]
      rw [hrun]
      constructor
      · intro h
        cases h
        exact ⟨haccepts, hroom, rfl, rfl, rfl, rfl⟩
      · rintro ⟨-, -, rfl, hatoms, hvalues, hplace⟩
        exact congrArg (EStateM.Result.ok _)
          (eq_of_fields hatoms.symm hvalues.symm hplace.symm)
  · have hrun : push kind value t = .error (.invalidValue t.size value) t := by
      simp [push, haccepts]
    rw [hrun]
    constructor
    · intro h
      contradiction
    · rintro ⟨htrue, -⟩
      exact absurd htrue haccepts

/-- An atom is refused for its value, or else for want of room, and then the table is as it was. -/
theorem push_eq_error {kind : AtomKind} {value : Single} {e : Fault}
    (h : push kind value t = .error e t') :
    t' = t ∧ (acceptsValue value = false ∧ e = .invalidValue t.size value ∨
      acceptsValue value = true ∧ maxIndex < t.size ∧
        e = .capacity .variableIndex t.size maxIndex) := by
  simp only [push] at h
  split at h
  · next hrefused =>
    injection h with he ht
    exact ⟨ht.symm, .inl ⟨hrefused, he.symm⟩⟩
  · next haccepts =>
    split at h
    · next hfull =>
      injection h with he ht
      exact ⟨ht.symm, .inr ⟨by simpa using haccepts, hfull, he.symm⟩⟩
    · contradiction

theorem pushAll_cons (a : AtomKind × Single) (as : List (AtomKind × Single)) :
    pushAll (a :: as) = push a.1 a.2 >>= fun _ => pushAll as := by
  funext s
  change (discard (push a.1 a.2) >>= fun _ => pushAll as) s = _
  simp only [discard, Functor.mapConst, EStateM.map, bind, EStateM.bind, Function.comp_apply]
  cases push a.1 a.2 s <;> rfl

/-- **Atoms can be added if their values are accepted and there is room for them.** -/
theorem pushAll_eq_ok_iff {as : List (AtomKind × Single)} :
    pushAll as t = .ok () t' ↔ (∀ a ∈ as, acceptsValue a.2 = true) ∧
      t.size + as.length ≤ maxIndex + 1 ∧ t'.atoms = t.atoms ++ (as.map newAtom).toArray ∧
      t'.values = t.values ++ (as.map (·.2)).toArray ∧ t'.place = t.place := by
  induction as generalizing t with
  | nil =>
    have hsize : t.size ≤ maxIndex + 1 := t.size_le
    have hrun : pushAll [] t = .ok () t := rfl
    rw [hrun]
    constructor
    · intro h
      cases h
      simp [hsize]
    · rintro ⟨-, -, hatoms, hvalues, hplace⟩
      have hsame : t = t' :=
        eq_of_fields (by simpa using hatoms.symm) (by simpa using hvalues.symm) hplace.symm
      rw [hsame]
  | cons a as ih =>
    rw [pushAll_cons]
    constructor
    · intro h
      obtain ⟨v, u, hpush, hrest⟩ := bind_eq_ok h
      obtain ⟨haccepts, hroom, -, hatoms, hvalues, hplace⟩ := push_eq_ok_iff.mp hpush
      obtain ⟨hall, hfit, hatoms', hvalues', hplace'⟩ := ih.mp hrest
      have husize : u.size = t.size + 1 := by rw [size, hatoms, Array.size_push, size]
      refine ⟨?_, ?_, ?_, ?_, hplace'.trans hplace⟩
      · intro b hb
        rw [List.mem_cons] at hb
        cases hb with
        | inl hb => rw [hb]; exact haccepts
        | inr hb => exact hall b hb
      · rw [husize] at hfit
        rw [List.length_cons]
        omega
      · rw [hatoms', hatoms]
        simp [newAtom]
      · rw [hvalues', hvalues]
        simp
    · rintro ⟨hall, hfit, hatoms, hvalues, hplace⟩
      rw [List.length_cons] at hfit
      have hroom : ¬ maxIndex < t.size := by omega
      obtain ⟨u, hu⟩ : ∃ u, push a.1 a.2 t = .ok (.ofNat t.size) u := by
        simp [push, hall a List.mem_cons_self, hroom]
      obtain ⟨-, -, -, huatoms, huvalues, huplace⟩ := push_eq_ok_iff.mp hu
      have husize : u.size = t.size + 1 := by rw [size, huatoms, Array.size_push, size]
      rw [bind_ok hu]
      refine ih.mpr ⟨fun b hb => hall b (List.mem_cons_of_mem a hb), by omega, ?_, ?_,
        hplace.trans huplace.symm⟩
      · rw [hatoms, huatoms]
        simp [newAtom]
      · rw [hvalues, huvalues]
        simp

/-! ## Archives and tables -/

def kindOf (observed : Bool) : AtomKind := if observed then .observed else .unobserved

/-- The kinds and values of an archive. -/
def entries (a : Archive) : List (AtomKind × Single) := (a.observed.map kindOf).zip a.values

theorem map_fst_entries (h : a.values.length = a.observed.length) :
    (entries a).map (·.1.isObserved) = a.observed := by
  have hfst : (entries a).map (·.1) = a.observed.map kindOf :=
    List.map_fst_zip (by rw [List.length_map]; omega)
  have hsplit : (entries a).map (·.1.isObserved) =
      ((entries a).map (·.1)).map AtomKind.isObserved := by
    rw [List.map_map]
    rfl
  rw [hsplit, hfst, List.map_map, List.map_congr_left (g := id), List.map_id]
  intro b _
  cases b <;> rfl

theorem map_snd_entries (h : a.values.length = a.observed.length) :
    (entries a).map (·.2) = a.values :=
  List.map_snd_zip (by rw [List.length_map]; omega)

/-- The atoms of an unmoved table come in with the entries of its archive. -/
theorem IsUnmoved.map_newAtom (h : t.IsUnmoved) :
    (entries t.archive).map newAtom = t.atoms.toList := by
  have hentries : entries t.archive = t.atoms.toList.map fun x => (x.kind, x.committed) := by
    have hkinds : t.archive.observed.map kindOf = t.atoms.toList.map (·.kind) := by
      rw [archive, List.map_map]
      refine List.map_congr_left fun x _ => ?_
      rw [Function.comp_apply]
      cases x.kind <;> rfl
    rw [entries, hkinds, archive, List.zip_map']
  have hsame : t.atoms.map (·.initial) = t.atoms.map (·.committed) :=
    h.initial_eq.trans h.committed_eq.symm
  rw [hentries, List.map_map, List.map_congr_left (g := id), List.map_id]
  intro x hx
  have hinitial : x.initial = x.committed :=
    Array.map_inj_left.mp hsame x (Array.mem_def.mpr hx)
  cases x
  simp only at hinitial
  simp only [Function.comp_apply, newAtom, id, hinitial]

/-- A table with the entries of an archive and nothing else is unmoved and has that archive. -/
theorem isUnmoved_of_entries (hsame : a.values.length = a.observed.length)
    (haccepts : ∀ v ∈ a.values, acceptsValue v = true)
    (hatoms : t.atoms.toList = (entries a).map newAtom) (hvalues : t.values.toList = a.values) :
    t.IsUnmoved ∧ t.archive = a := by
  have hcommitted : t.committed = t.values := by
    rw [← Array.toList_inj, hvalues, committed, Array.toList_map, hatoms, List.map_map,
      ← map_snd_entries hsame]
    rfl
  refine ⟨⟨?_, hcommitted, fun v hv => haccepts v (by rw [← hvalues]; simpa using hv)⟩, ?_⟩
  · rw [← hcommitted, ← Array.toList_inj, committed, initial, Array.toList_map, Array.toList_map,
      hatoms, List.map_map, List.map_map]
    rfl
  · have hobserved : t.archive.observed = a.observed := by
      simp only [archive]
      rw [hatoms, List.map_map, ← map_fst_entries hsame]
      rfl
    have hread : t.archive.values = a.values := by rw [values_archive, hcommitted, hvalues]
    cases a
    cases hread
    cases hobserved
    rfl

/-- **Adding the entries of an archive** gives the unmoved table that has this archive. -/
theorem pushAll_entries_eq_ok_iff (hsame : a.values.length = a.observed.length) :
    pushAll (entries a) { place := some p } = .ok () t ↔
      t.IsUnmoved ∧ t.place = some p ∧ t.archive = a := by
  have hsnd := map_snd_entries hsame
  rw [pushAll_eq_ok_iff]
  constructor
  · rintro ⟨haccepts, -, hatoms, hvalues, hplace⟩
    have hall : ∀ v ∈ a.values, acceptsValue v = true := by
      intro v hv
      rw [← hsnd, List.mem_map] at hv
      obtain ⟨x, hx, rfl⟩ := hv
      exact haccepts x hx
    obtain ⟨hunmoved, harchive⟩ := isUnmoved_of_entries hsame hall
      (by rw [hatoms]; simp) (by rw [hvalues, ← hsnd]; simp)
    exact ⟨hunmoved, hplace, harchive⟩
  · rintro ⟨h, hplace, rfl⟩
    refine ⟨fun x hx => ?_, ?_, ?_, ?_, hplace⟩
    · have hmem : x.2 ∈ t.archive.values := hsnd ▸ List.mem_map_of_mem hx
      rw [values_archive, h.committed_eq] at hmem
      exact h.accepts _ (by simpa using hmem)
    · have hlength : (entries t.archive).length = t.atoms.size := by
        rw [← Array.length_toList, ← h.map_newAtom, List.length_map]
      have hle := t.size_le
      simp only [size, List.size_toArray, List.length_nil]
      omega
    · rw [h.map_newAtom]
      simp
    · rw [hsnd, values_archive, h.committed_eq]
      simp

/-! ## Loading -/

theorem load_of_empty (h : p.entry = .absent ∨ p.entry = .file #[]) :
    load p = .ok { place := some p } := by
  cases h with
  | inl h => simp only [load, h]
  | inr h => simp only [load, h]; rfl

/-- A file that is no archive is refused, unless it is empty. -/
theorem load_of_decode_none (hentry : p.entry = .file bytes) (hne : bytes ≠ #[])
    (h : Archive.decode bytes = none) : load p = .error (.file .invalidArchive) := by
  have hfull : bytes.isEmpty = false := by simpa using hne
  simp only [load, hentry, hfull, h, Bool.false_eq_true, if_false]

/-- A file that is an archive is loaded as its entries are added. -/
theorem load_of_decode (hentry : p.entry = .file bytes) (h : Archive.decode bytes = some a) :
    load p = if a.values.length = a.observed.length then
        match pushAll (entries a) { place := some p } with
        | .ok _ t => .ok t
        | .error e _ => .error e
      else .error (.file (.lengthMismatch p.path a.values.length a.observed.length)) := by
  have hne : bytes ≠ #[] := by
    rintro rfl
    contradiction
  have hfull : bytes.isEmpty = false := by simpa using hne
  simp only [load, hentry, hfull, h, Bool.false_eq_true, if_false, ite_not]
  rfl

/-- **What a table is loaded from**: an empty file, or an archive that is the one of the table. -/
theorem load_file_eq_ok_iff (hentry : p.entry = .file bytes) :
    load p = .ok t ↔ t.IsUnmoved ∧ t.place = some p ∧
      (bytes = #[] ∧ t.size = 0 ∨ Archive.decode bytes = some t.archive) := by
  by_cases hempty : bytes = #[]
  · subst hempty
    rw [load_of_empty (.inr hentry)]
    have hnone : Archive.decode #[] = none := rfl
    rw [hnone]
    constructor
    · intro h
      cases h
      exact ⟨⟨by simp [initial], by simp [committed], by simp⟩, rfl, .inl ⟨rfl, rfl⟩⟩
    · rintro ⟨h, hplace, ⟨-, hsize⟩ | hsome⟩
      · have hatoms : t.atoms = #[] := Array.eq_empty_of_size_eq_zero hsize
        have hvalues : t.values = #[] :=
          Array.eq_empty_of_size_eq_zero (t.size_values.trans hsize)
        exact congrArg Except.ok (eq_of_fields hatoms.symm hvalues.symm hplace.symm)
      · contradiction
  · cases hdecode : Archive.decode bytes with
    | none =>
      rw [load_of_decode_none hentry hempty hdecode]
      simp [hempty]
    | some a =>
      rw [load_of_decode hentry hdecode]
      simp only [hempty, false_and, false_or, Option.some.injEq]
      constructor
      · intro h
        split at h
        · next hsame =>
          split at h
          · next hpush =>
            cases h
            obtain ⟨hunmoved, hplace, harchive⟩ := (pushAll_entries_eq_ok_iff hsame).mp hpush
            exact ⟨hunmoved, hplace, harchive.symm⟩
          · contradiction
        · contradiction
      · rintro ⟨h, hplace, rfl⟩
        have hpush := (pushAll_entries_eq_ok_iff t.lengths_archive).mpr ⟨h, hplace, rfl⟩
        rw [if_pos t.lengths_archive, hpush]

/-- A table that has been loaded is unmoved, and it is kept where it comes from. -/
theorem isUnmoved_of_load (h : load p = .ok t) : t.IsUnmoved ∧ t.place = some p := by
  cases hentry : p.entry with
  | absent =>
    rw [load_of_empty (.inl hentry)] at h
    cases h
    exact ⟨⟨by simp [initial], by simp [committed], by simp⟩, rfl⟩
  | directory =>
    simp only [load, hentry] at h
    contradiction
  | file bytes =>
    obtain ⟨hunmoved, hplace, -⟩ := (load_file_eq_ok_iff hentry).mp h
    exact ⟨hunmoved, hplace⟩

/-! ## Files that can be loaded -/

/-- A file that a table with atoms comes out of. -/
structure IsLoadable (bytes : Array UInt8) : Prop where
  archive : Archive.IsArchive bytes
  /-- There are as many flags as values. -/
  flags_eq : (Archive.layout bytes).flags = (Archive.layout bytes).values
  accepts : ∀ i < (Archive.layout bytes).values,
    acceptsValue ((Archive.layout bytes).value bytes i) = true

/-- An archive that can be written can be loaded, if its values are accepted. -/
theorem exists_load_of_decode (hentry : p.entry = .file bytes)
    (hdecode : Archive.decode bytes = some a) (hsame : a.values.length = a.observed.length)
    (haddressable : a.IsAddressable) (haccepts : ∀ v ∈ a.values, acceptsValue v = true) :
    ∃ t, load p = .ok t ∧ t.IsUnmoved ∧ t.archive = a ∧ t.place = some p := by
  have hbody := Archive.length_body a
  have hlength : (entries a).length = a.values.length := by
    rw [← map_snd_entries hsame, List.length_map]
  have hroom : a.values.length ≤ maxIndex + 1 := by
    simp only [Archive.IsAddressable] at haddressable
    simp only [maxIndex]
    omega
  let t : AtomTable := {
    atoms := ((entries a).map newAtom).toArray
    values := a.values.toArray
    size_values := by simp [hlength]
    size_le := by simpa [hlength] using hroom
    place := some p }
  obtain ⟨hunmoved, harchive⟩ := isUnmoved_of_entries (t := t) hsame haccepts rfl rfl
  exact ⟨t, (load_file_eq_ok_iff hentry).mpr ⟨hunmoved, rfl, .inr (harchive ▸ hdecode)⟩, hunmoved,
    harchive, rfl⟩

/-- **Which files can be loaded**: the empty one, and archives with a flag for each value and with
values that are accepted. -/
theorem exists_load_file_iff (hentry : p.entry = .file bytes) :
    (∃ t, load p = .ok t) ↔ bytes = #[] ∨ IsLoadable bytes := by
  constructor
  · rintro ⟨t, h⟩
    obtain ⟨hunmoved, -, ⟨hempty, -⟩ | hdecode⟩ := (load_file_eq_ok_iff hentry).mp h
    · exact .inl hempty
    · obtain ⟨harchive, hvalues, -⟩ := Archive.decode_eq_some_iff.mp hdecode
      obtain ⟨hcount, hflags⟩ := Archive.lengths_of_decode hdecode
      refine .inr ⟨harchive, ?_, fun i hi => hunmoved.accepts _ ?_⟩
      · rw [← hflags, ← hcount, t.lengths_archive]
      · rw [← hunmoved.committed_eq, ← Array.mem_toList_iff, ← values_archive, hvalues]
        exact List.mem_map_of_mem (List.mem_range.mpr hi)
  · rintro (hempty | h)
    · exact ⟨_, load_of_empty (.inr (hempty ▸ hentry))⟩
    · obtain ⟨a, hdecode⟩ := Archive.exists_decode_iff.mpr h.archive
      obtain ⟨hcount, hflags⟩ := Archive.lengths_of_decode hdecode
      have hsame : a.values.length = a.observed.length := by rw [hcount, hflags, h.flags_eq]
      have haccepts : ∀ v ∈ a.values, acceptsValue v = true := by
        intro v hv
        rw [(Archive.decode_eq_some_iff.mp hdecode).2.1, List.mem_map] at hv
        obtain ⟨i, hi, rfl⟩ := hv
        exact h.accepts i (List.mem_range.mp hi)
      obtain ⟨t, hload, -⟩ := exists_load_of_decode hentry hdecode hsame
        (Archive.isAddressable_of_decode hdecode hsame) haccepts
      exact ⟨t, hload⟩

/-! ## Saving what has been loaded -/

/-- Committing an unmoved table changes nothing. -/
theorem IsUnmoved.commit_eq (h : t.IsUnmoved) : t.commit = t := by
  have hatoms : t.commit.atoms = t.atoms := by
    refine Array.ext (by simp [commit, t.size_values]) fun i hi hi' => ?_
    have hvalues : i < t.values.size := by rwa [t.size_values]
    have hvalue : t.values[i] = t.atoms[i].committed := by
      simp only [← h.committed_eq, committed, Array.getElem_map]
    simp only [commit, Array.getElem_zipWith, hvalue]
  exact eq_of_fields hatoms rfl rfl

/-- Resetting an unmoved table changes nothing. -/
theorem IsUnmoved.reset_eq (h : t.IsUnmoved) : t.reset = t := eq_of_fields rfl h.initial_eq rfl

/-- **The values of an unmoved table have moved by zero.** -/
theorem IsUnmoved.isZero_change (h : t.IsUnmoved) : Scalar.IsZero t.change := by
  have hzero : ∀ x ∈ (t.values.zip t.atoms).toList,
      (Double.ofSingle x.1 - Double.ofSingle x.2.committed).abs = 0 := by
    intro x hx
    obtain ⟨i, hi, rfl⟩ := List.getElem_of_mem hx
    have hvalue : i < t.values.size := by simp at hi; omega
    have hatom : i < t.atoms.size := by rwa [← t.size_values]
    have hsame : t.atoms[i].committed = t.values[i] := by
      simp only [← h.committed_eq, committed, Array.getElem_map]
    simp only [Array.getElem_toList, Array.getElem_zip, hsame]
    have haccepts := h.accepts _ (Array.getElem_mem hvalue)
    exact Double.abs_ofSingle_sub_self (acceptsValue_iff.mp haccepts).1
  have hsum := Double.isZero_foldl_add hzero (.inl rfl)
  rwa [Array.foldl_toList] at hsum

/-- The archive of a loaded table can be written. -/
theorem isAddressable_of_load (h : load p = .ok t) : t.archive.IsAddressable := by
  cases hentry : p.entry with
  | absent =>
    rw [load_of_empty (.inl hentry)] at h
    cases h
    simp [Archive.IsAddressable, Archive.length_body, size]
  | directory =>
    simp only [load, hentry] at h
    contradiction
  | file bytes =>
    obtain ⟨-, -, ⟨-, hsize⟩ | hdecode⟩ := (load_file_eq_ok_iff hentry).mp h
    · simp [Archive.IsAddressable, Archive.length_body, hsize]
    · exact Archive.isAddressable_of_decode hdecode t.lengths_archive

/-- **What has been loaded and saved is loaded again.** -/
theorem load_of_sync {moved : Double} (hload : load p = .ok t) (hunmoved : t.IsUnmoved)
    (hplace : t.place = some p) (h : sync t = .ok moved t') :
    t'.atoms = t.atoms ∧ t'.values = t.values ∧ ∃ q, t'.place = some q ∧ load q = .ok t' := by
  obtain ⟨-, q, rfl, hsave⟩ := exists_save_of_sync_ok hplace h
  rw [hunmoved.commit_eq] at hsave ⊢
  obtain ⟨-, -, hentry⟩ := Place.entry_of_save hsave
  refine ⟨rfl, rfl, q, rfl, (load_file_eq_ok_iff hentry).mpr ⟨?_, rfl, .inr ?_⟩⟩
  · exact ⟨hunmoved.initial_eq, hunmoved.committed_eq, hunmoved.accepts⟩
  · exact Archive.decode_encode t.lengths_archive (isAddressable_of_load hload)

/-- **Loading a file is safe, whatever its bytes are.**  No byte outside the file is looked at.  The
file is accepted if it is empty, or an archive with a flag for each value and with values that are
accepted, and it is refused otherwise.  A table that comes out of it has the archive of the file; its
initial, committed and present values are the same, and they are finite numbers in `[0, 1]`.  When it
is saved, the place that it is saved at is loaded as the same table. -/
theorem load_file_sound (hentry : p.entry = .file bytes) :
    Archive.decodeIn bytes = .ok (Archive.decode bytes) ∧
      ((∃ t, load p = .ok t) ↔ bytes = #[] ∨ IsLoadable bytes) ∧
      ∀ t, load p = .ok t →
        (bytes = #[] ∧ t.size = 0 ∨ Archive.decode bytes = some t.archive) ∧
        t.kinds.size = t.values.size ∧ t.initial = t.values ∧ t.committed = t.values ∧
        (∀ v ∈ t.values, v.isFinite = true ∧ 0 ≤ v ∧ v ≤ 1) ∧
        ∀ moved t', sync t = .ok moved t' →
          t'.atoms = t.atoms ∧ t'.values = t.values ∧ ∃ q, t'.place = some q ∧ load q = .ok t' := by
  refine ⟨Archive.decodeIn_eq bytes, exists_load_file_iff hentry, fun t hload => ?_⟩
  obtain ⟨hunmoved, hplace, hcontent⟩ := (load_file_eq_ok_iff hentry).mp hload
  refine ⟨hcontent, ?_, hunmoved.initial_eq, hunmoved.committed_eq, fun v hv => ?_,
    fun moved t' hsync => load_of_sync hload hunmoved hplace hsync⟩
  · simp [kinds, t.size_values]
  · exact acceptsValue_iff.mp (hunmoved.accepts v hv)

/-- The archive of one atom that is not observed and has the value one half. -/
def halfArchive : Archive := ⟨[⟨0x3f000000⟩], [false]⟩

/-- A place whose file is that archive. -/
def halfPlace : Place where
  path := "atoms.bin"
  disk := Disk.put (.ofPath "atoms.bin") (.file halfArchive.encode.toArray) {}

/-- The file of one atom is accepted. -/
theorem load_halfPlace : halfPlace.entry = .file halfArchive.encode.toArray ∧
    Archive.decodeIn halfArchive.encode.toArray = .ok (some halfArchive) ∧
      ∃ t, load halfPlace = .ok t ∧ t.archive = halfArchive := by
  have hentry : halfPlace.entry = .file halfArchive.encode.toArray := by decide
  have hdecode : Archive.decode halfArchive.encode.toArray = some halfArchive := by decide
  obtain ⟨hread, hiff, hall⟩ := load_file_sound hentry
  have hloadable : IsLoadable halfArchive.encode.toArray := by
    refine ⟨Archive.exists_decode_iff.mp ⟨_, hdecode⟩, by decide, by decide⟩
  obtain ⟨t, hload⟩ := hiff.mpr (.inr hloadable)
  refine ⟨hentry, by rw [hread, hdecode], t, hload, ?_⟩
  obtain ⟨hempty, -⟩ | harchive := (hall t hload).1
  · exact absurd hempty (by decide)
  · exact Option.some.inj (harchive.symm.trans hdecode)

end AtomTable

end HingeLoss

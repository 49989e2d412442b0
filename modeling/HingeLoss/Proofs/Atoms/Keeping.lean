import HingeLoss.Proofs.Atoms.Loading

/-!
# HingeLoss.Proofs.Atoms.Keeping

A place keeps what was saved last.

1. `History` is what can become of a table with a place: atoms come in, values are written and taken
   back, the table is saved and loaded, savings fail at any step, and the rest of the disk changes.
   Beside the table it has the archive that was saved last (`Ledger`);
2. all values of a table are accepted, and the file at the path holds the archive of the ledger
   (`IsKept`); each step keeps this (`History.isKept`);
3. so loading gives the table that was saved last, on which nothing has moved (`kept_of_history`).

A file that is its own temporary file is the exception, which the ledger records: once a saving has
begun to write it and then fails, what was saved before is lost (`sync_overwrites`).
-/

namespace HingeLoss

namespace AtomTable

/-! ## Histories -/

/-- The archive that was saved last, if a file still holds it. -/
abbrev Ledger := Option Archive

variable {t t' : AtomTable} {p q : Place} {a : Archive} {saved : Ledger}

/-- What a saving that fails leaves of the ledger. -/
def Ledger.afterFault (saved : Ledger) (p : Place) (f : FileFault) : Ledger :=
  if p.IsOwnTemporary ∧ Place.IsLate f then none else saved

/-- What can become of a table with a place. -/
inductive History : AtomTable → Ledger → Prop
  | create (p : Place) : History { place := some p } none
  /-- The history starts with whatever stands at the path. -/
  | found {p : Place} {t : AtomTable} (h : load p = .ok t) : History t none
  | push {t : AtomTable} {saved : Ledger} (h : History t saved) (kind : AtomKind) (value : Single) :
      History (finalState (push kind value t)) saved
  | setValue {t : AtomTable} {saved : Ledger} (h : History t saved) (v : Variable) (value : Single)
      (haccepts : acceptsValue value = true) : History (finalState (setValue v value t)) saved
  | reset {t : AtomTable} {saved : Ledger} (h : History t saved) : History t.reset saved
  | sync {t t' : AtomTable} {saved : Ledger} {moved : Double} (h : History t saved)
      (hsync : sync t = .ok moved t') : History t' (some t'.archive)
  | syncFails {t t' : AtomTable} {saved : Ledger} {p : Place} {f : FileFault} (h : History t saved)
      (hplace : t.place = some p) (hsync : sync t = .error (.file f) t') :
      History t' (saved.afterFault p f)
  /-- The table is dropped, and loaded again from its path. -/
  | reload {t t' : AtomTable} {saved : Ledger} {p : Place} (h : History t saved)
      (hplace : t.place = some p) (hload : load p = .ok t') : History t' saved
  /-- The disk changes and may refuse another step, but a file at the path stays. -/
  | outside {t : AtomTable} {saved : Ledger} {p q : Place} (h : History t saved)
      (hplace : t.place = some p) (hpath : q.path = p.path)
      (hentry : ∀ bytes, p.entry = .file bytes → q.entry = .file bytes) :
      History { t with place := some q } saved

/-! ## What the steps keep -/

theorem finalState_push_cases (kind : AtomKind) (value : Single) (t : AtomTable) :
    finalState (push kind value t) = t ∨ acceptsValue value = true ∧
      (finalState (push kind value t)).initial = t.initial.push value ∧
      (finalState (push kind value t)).values = t.values.push value ∧
      (finalState (push kind value t)).place = t.place := by
  cases hrun : push kind value t with
  | ok v t' =>
    obtain ⟨haccepts, -, -, hatoms, hvalues, hplace⟩ := push_eq_ok_iff.mp hrun
    refine .inr ⟨haccepts, ?_, hvalues, hplace⟩
    simp [initial, finalState, hatoms]
  | error e t' => exact .inl (push_eq_error hrun).1

theorem finalState_setValue_cases (v : Variable) (value : Single) (t : AtomTable) :
    finalState (setValue v value t) = t ∨
      (finalState (setValue v value t)).atoms = t.atoms ∧
      (finalState (setValue v value t)).values = t.values.setIfInBounds v.toNat value ∧
      (finalState (setValue v value t)).place = t.place := by
  unfold setValue
  split
  · exact .inr ⟨rfl, rfl, rfl⟩
  · exact .inl rfl

theorem initial_commit (t : AtomTable) : t.commit.initial = t.initial := by
  refine Array.ext (by simp [initial, commit, t.size_values]) fun i h₁ h₂ => ?_
  simp [initial, commit]

/-- A table of a history: all values are accepted, and its file holds the archive of the ledger. -/
structure IsKept (t : AtomTable) (saved : Ledger) : Prop where
  initial : ∀ v ∈ t.initial, acceptsValue v = true
  values : ∀ v ∈ t.values, acceptsValue v = true
  lengths : ∀ a, saved = some a → a.values.length = a.observed.length
  accepts : ∀ a, saved = some a → ∀ v ∈ a.values, acceptsValue v = true
  isSome_place : t.place.isSome = true
  entry : ∀ a, saved = some a → ∀ p, t.place = some p → p.entry = .file a.encode.toArray

namespace IsKept

theorem push (h : t.IsKept saved) (kind : AtomKind) (value : Single) :
    (finalState (push kind value t)).IsKept saved := by
  obtain hsame | ⟨haccepts, hinitial, hvalues, hplace⟩ := finalState_push_cases kind value t
  · rwa [hsame]
  · refine ⟨?_, ?_, h.lengths, h.accepts, hplace ▸ h.isSome_place, hplace ▸ h.entry⟩
    · rw [hinitial]
      intro v hv
      obtain hv | rfl := Array.mem_push.mp hv
      · exact h.initial v hv
      · exact haccepts
    · rw [hvalues]
      intro v hv
      obtain hv | rfl := Array.mem_push.mp hv
      · exact h.values v hv
      · exact haccepts

theorem setValue (h : t.IsKept saved) (v : Variable) {value : Single}
    (haccepts : acceptsValue value = true) :
    (finalState (AtomTable.setValue v value t)).IsKept saved := by
  obtain hsame | ⟨hatoms, hvalues, hplace⟩ := finalState_setValue_cases v value t
  · rwa [hsame]
  · refine ⟨?_, ?_, h.lengths, h.accepts, hplace ▸ h.isSome_place, hplace ▸ h.entry⟩
    · rw [AtomTable.initial, hatoms]
      exact h.initial
    · rw [hvalues]
      intro u hu
      obtain hu | rfl := Array.mem_or_eq_of_mem_setIfInBounds hu
      · exact h.values u hu
      · exact haccepts

theorem reset (h : t.IsKept saved) : t.reset.IsKept saved :=
  ⟨h.initial, h.initial, h.lengths, h.accepts, h.isSome_place, h.entry⟩

/-- A table that has just been loaded is kept with any ledger that its file holds. -/
theorem of_load (hload : load p = .ok t)
    (hsaved : ∀ a, saved = some a → a.values.length = a.observed.length ∧
      (∀ v ∈ a.values, acceptsValue v = true) ∧ p.entry = .file a.encode.toArray) :
    t.IsKept saved := by
  obtain ⟨hunmoved, hplace⟩ := isUnmoved_of_load hload
  refine ⟨?_, hunmoved.accepts, fun a ha => (hsaved a ha).1, fun a ha => (hsaved a ha).2.1, ?_,
    fun a ha q hq => ?_⟩
  · rw [hunmoved.initial_eq]
    exact hunmoved.accepts
  · rw [hplace]
    rfl
  · rw [hplace] at hq
    cases hq
    exact (hsaved a ha).2.2

/-- A saving that succeeds leaves the archive of the table at its place. -/
theorem sync {moved : Double} (h : t.IsKept saved) (hsync : sync t = .ok moved t') :
    t'.IsKept (some t'.archive) := by
  obtain ⟨p, hplace⟩ := Option.isSome_iff_exists.mp h.isSome_place
  obtain ⟨-, q, rfl, hsave⟩ := exists_save_of_sync_ok hplace hsync
  obtain ⟨-, -, hentry⟩ := Place.entry_of_save hsave
  refine ⟨?_, h.values, ?_, ?_, rfl, ?_⟩
  · change ∀ v ∈ t.commit.initial, acceptsValue v = true
    rw [initial_commit]
    exact h.initial
  · rintro _ ⟨⟩
    exact lengths_archive _
  · rintro _ ⟨⟩ v hv
    rw [values_archive] at hv
    change v ∈ t.commit.committed.toList at hv
    rw [committed_commit] at hv
    exact h.values v (Array.mem_toList_iff.mp hv)
  · rintro _ ⟨⟩ _ ⟨⟩
    exact hentry

/-- A saving that fails leaves the file, unless the ledger says otherwise. -/
theorem syncFails {f : FileFault} (h : t.IsKept saved) (hplace : t.place = some p)
    (hsync : AtomTable.sync t = .error (.file f) t') : t'.IsKept (saved.afterFault p f) := by
  obtain ⟨p', q, f', hplace', hf, rfl, hsave⟩ := exists_save_of_sync_error hsync
  cases hf
  cases hplace.symm.trans hplace'
  have hledger (a : Archive) (ha : saved.afterFault p f = some a) :
      saved = some a ∧ ¬ (p.IsOwnTemporary ∧ Place.IsLate f) := by
    unfold Ledger.afterFault at ha
    split at ha
    · contradiction
    · next hspared => exact ⟨ha, hspared⟩
  refine ⟨?_, h.values, fun a ha => h.lengths a (hledger a ha).1,
    fun a ha => h.accepts a (hledger a ha).1, rfl, ?_⟩
  · change ∀ v ∈ t.commit.initial, acceptsValue v = true
    rw [initial_commit]
    exact h.initial
  · rintro a ha _ ⟨⟩
    obtain ⟨hsaved, hspared⟩ := hledger a ha
    obtain ⟨-, -, hsame | ⟨hown, hlate, -⟩⟩ := Place.contents_of_save_error hsave
    · exact Place.entry_of_contents_eq hsave hsame (h.entry a hsaved p hplace)
    · exact absurd ⟨hown, hlate⟩ hspared

end IsKept

/-- **Every table of a history is kept.** -/
theorem History.isKept (h : History t saved) : t.IsKept saved := by
  induction h with
  | create p => exact ⟨by simp [initial], by simp, nofun, nofun, rfl, nofun⟩
  | found hload => exact .of_load hload nofun
  | push _ kind value ih => exact ih.push kind value
  | setValue _ v _ haccepts ih => exact ih.setValue v haccepts
  | reset _ ih => exact ih.reset
  | sync _ hsync ih => exact ih.sync hsync
  | syncFails _ hplace hsync ih => exact ih.syncFails hplace hsync
  | reload _ hplace hload ih =>
    exact .of_load hload fun a ha => ⟨ih.lengths a ha, ih.accepts a ha, ih.entry a ha _ hplace⟩
  | outside _ hplace _ hentry ih =>
    refine ⟨ih.initial, ih.values, ih.lengths, ih.accepts, rfl, ?_⟩
    rintro a ha _ ⟨⟩
    exact hentry _ (ih.entry a ha _ hplace)

/-! ## What is loaded -/

/-- **A place keeps what was saved last.**  In every history of a table with a place:

1. a saving that fails leaves the file at the path byte for byte as it was, unless the file is its
   own temporary file and writing has begun; then it holds the first bytes of the new archive;
2. if a saving has succeeded, and no later one has failed in that way, then loading gives the kinds
   and values of the table that was saved last, if its offsets fit their words.  They are initial,
   committed and present, so resetting changes nothing, and saving reports no movement. -/
theorem kept_of_history (h : History t saved) (hplace : t.place = some p) :
    (∀ e t', sync t = .error e t' → ∃ f q, e = .file f ∧ t'.place = some q ∧ q.path = p.path ∧
      ((q.contents = p.contents ∧ ∀ bytes, p.entry = .file bytes → q.entry = .file bytes) ∨
        p.IsOwnTemporary ∧ Place.IsLate f ∧
          ∃ kept, q.contents = some (t.commit.archive.encode.toArray.take kept))) ∧
      ∀ a, saved = some a → 5 * a.values.length ≤ 2147483648 →
        ∃ u, load p = .ok u ∧ u.archive = a ∧ u.initial = u.values ∧ u.committed = u.values ∧
          u.reset = u ∧ ∀ moved u', sync u = .ok moved u' → Scalar.IsZero moved := by
  constructor
  · intro e t' hsync
    obtain ⟨p', q, f, hplace', rfl, rfl, hsave⟩ := exists_save_of_sync_error hsync
    cases hplace.symm.trans hplace'
    obtain ⟨hpath, -, hsame | hlate⟩ := Place.contents_of_save_error hsave
    · exact ⟨f, q, rfl, rfl, hpath, .inl ⟨hsame, fun _ => Place.entry_of_contents_eq hsave hsame⟩⟩
    · exact ⟨f, q, rfl, rfl, hpath, .inr hlate⟩
  · intro a hsaved hroom
    have hkept := h.isKept
    have hsame := hkept.lengths a hsaved
    have haddressable := (Archive.isAddressable_iff hsame).mpr hroom
    obtain ⟨u, hload, hunmoved, harchive, huplace⟩ :=
      exists_load_of_decode (hkept.entry a hsaved p hplace)
        (Archive.decode_encode hsame haddressable) hsame haddressable (hkept.accepts a hsaved)
    refine ⟨u, hload, harchive, hunmoved.initial_eq, hunmoved.committed_eq, hunmoved.reset_eq,
      fun moved u' hsync => ?_⟩
    obtain ⟨hmoved, -⟩ := exists_save_of_sync_ok huplace hsync
    rw [hmoved]
    exact hunmoved.isZero_change

/-! ## Two histories -/

section Samples

variable (path : String)

/-- A table with one atom that has been saved. -/
def onceSaved : AtomTable :=
  finalState (sync (finalState (push .unobserved 0
    { (default : AtomTable) with place := some { path } })))

/-- The table with another value, on a disk that breaks off the next saving while it writes. -/
def unwritable : AtomTable :=
  let t := finalState (setValue (.ofNat 0) 1 (onceSaved path))
  { t with place := t.place.map ({ · with refused := some (.write 0) }) }

variable {path}

theorem history_unwritable
    (hsync : succeeds (sync (finalState (push .unobserved 0 { place := some { path } }))) = true) :
    History (unwritable path) (some (onceSaved path).archive) := by
  obtain ⟨moved, hsync⟩ := eq_ok_of_succeeds hsync
  have hmoved := (((History.create { path }).push .unobserved 0).sync hsync).setValue (.ofNat 0) 1
    (by decide)
  obtain ⟨p, hplace⟩ := Option.isSome_iff_exists.mp hmoved.isKept.isSome_place
  have hrefused := hmoved.outside (q := { p with refused := some (.write 0) }) hplace rfl
    fun _ hentry => hentry
  have hsame : unwritable path = { finalState (setValue (.ofNat 0) 1 (onceSaved path)) with
      place := some { p with refused := some (.write 0) } } := by
    change (finalState (setValue (.ofNat 0) 1 (onceSaved path))).place = some p at hplace
    simp only [unwritable, hplace, Option.map_some]
  rw [hsame]
  exact hrefused

end Samples

/-- A saving that breaks off leaves what was saved before, if the temporary file is another. -/
theorem kept_of_unwritable : ∃ p, (unwritable "atoms.bin").place = some p ∧
    History (unwritable "atoms.bin") (some ⟨[0], [false]⟩) ∧
      ∃ u, load p = .ok u ∧ u.archive = ⟨[0], [false]⟩ ∧ u.reset = u := by
  have hsync : succeeds (sync (finalState (push .unobserved 0
      { place := some { path := "atoms.bin" } }))) = true := by decide +kernel
  have harchive : (onceSaved "atoms.bin").archive = ⟨[0], [false]⟩ := by decide +kernel
  have hhistory := history_unwritable hsync
  rw [harchive] at hhistory
  obtain ⟨p, hplace⟩ := Option.isSome_iff_exists.mp hhistory.isKept.isSome_place
  obtain ⟨u, hload, hu, -, -, hreset, -⟩ :=
    (kept_of_history hhistory hplace).2 _ rfl (by decide)
  exact ⟨p, hplace, hhistory, u, hload, hu, hreset⟩

/-- **A file that is its own temporary file is lost when a saving breaks off**: it is empty then, and
is loaded as a table without atoms. -/
theorem sync_overwrites : ∃ p t' q, (unwritable "atoms.tmp").place = some p ∧
    History (unwritable "atoms.tmp") (some ⟨[0], [false]⟩) ∧
      p.entry = .file (Archive.encode ⟨[0], [false]⟩).toArray ∧
      sync (unwritable "atoms.tmp") = .error (.file .writeVariables) t' ∧
      t'.place = some q ∧ q.path = p.path ∧ q.entry = .file #[] ∧
      load q = .ok { place := some q } := by
  have hsync : succeeds (sync (finalState (push .unobserved 0
      { place := some { path := "atoms.tmp" } }))) = true := by decide +kernel
  have harchive : (onceSaved "atoms.tmp").archive = ⟨[0], [false]⟩ := by decide +kernel
  have hhistory := history_unwritable hsync
  rw [harchive] at hhistory
  obtain ⟨p, hplace⟩ := Option.isSome_iff_exists.mp hhistory.isKept.isSome_place
  have hfails : onFailure (fun e t => (e, t.place.map (·.entry)))
      (sync (unwritable "atoms.tmp")) = some (.file .writeVariables, some (.file #[])) := by
    decide +kernel
  obtain ⟨e, t', hsync', heval⟩ := exists_of_onFailure hfails
  injection heval with he hentry
  subst he
  obtain ⟨p', q, f, hplace', -, rfl, hsave⟩ := exists_save_of_sync_error hsync'
  cases hplace.symm.trans hplace'
  have hempty : q.entry = .file #[] := Option.some.inj hentry
  exact ⟨p, _, q, hplace, hhistory, hhistory.isKept.entry _ rfl p hplace, hsync', rfl,
    (Place.contents_of_save_error hsave).1, hempty, load_of_empty (.inr hempty)⟩

end AtomTable

end HingeLoss

import HingeLoss.Proofs.Record.Reuse

/-!
# HingeLoss.Proofs.Record.Room

A record is written whole or not at all.

1. One look at the room that is left decides, before anything is written.  Behind it every field has
   its place, because the size that has been looked for is that of all fields together, so no single
   write can fail (`wholeOrNothing_writeFields`).
2. What stands before and behind the record stays, and a record that is refused leaves buffer and
   cursor as they are.
3. A draft has as many entries as variables.  A reading that has failed may have left a coefficient
   more (`Draft.InUse.isPaired`), which no record shows.
-/

namespace HingeLoss

namespace Record

/-! ## Writing as a whole -/

/-- Whether a writing of `n` bytes is done as a whole, exactly where there is room for it, and
otherwise not at all. -/
structure WholeOrNothing (x : WriteM Unit) (n : Nat) : Prop where
  succeeds_iff : ∀ w, (∃ w', x w = .ok () w') ↔ n ≤ w.remaining
  of_ok : ∀ w w', x w = .ok () w' → w'.position = w.position + n ∧
    w'.buffer.size = w.buffer.size ∧
      ∀ i, i < w.position ∨ w.position + n ≤ i → w'.buffer[i]? = w.buffer[i]?
  of_error : ∀ w e w', x w = .error e w' →
    e = .capacity .recordByte (w.position + n) w.buffer.size ∧ w' = w

/-- What is written stays inside its window. -/
theorem frame_of_toList {w w' : Writer} {bs : List UInt8}
    (hroom : bs.length ≤ w.remaining)
    (hbuffer : w'.buffer.toList =
      w.buffer.toList.take w.position ++ bs ++ w.buffer.toList.drop (w.position + bs.length)) :
    w'.buffer.size = w.buffer.size ∧
      ∀ i, i < w.position ∨ w.position + bs.length ≤ i → w'.buffer[i]? = w.buffer[i]? := by
  have hle := w.position_le
  unfold Writer.remaining at hroom
  have hfront := length_take_position w
  constructor
  · have hlen := congrArg List.length hbuffer
    simp only [List.length_append, List.length_drop, hfront, Array.length_toList] at hlen
    omega
  · intro i hi
    rw [← Array.getElem?_toList, ← Array.getElem?_toList, hbuffer]
    cases hi with
    | inl hi =>
      rw [List.append_assoc, List.getElem?_append_left (hfront.symm ▸ hi),
        List.getElem?_take_of_lt hi]
    | inr hi =>
      have hlen : (w.buffer.toList.take w.position ++ bs).length = w.position + bs.length := by
        rw [List.length_append, hfront]
      rw [List.getElem?_append_right (hlen.symm ▸ hi), hlen, List.getElem?_drop,
        Nat.add_sub_cancel' hi]

/-- A writing that has its effect where there is room, and is refused elsewhere, is done as a whole
or not at all. -/
theorem WholeOrNothing.of_writes {x : WriteM Unit} {bs : List UInt8} (hx : Writes x bs)
    (hfull : ∀ w : Writer, w.remaining < bs.length →
      x w = .error (.capacity .recordByte (w.position + bs.length) w.buffer.size) w) :
    WholeOrNothing x bs.length := by
  constructor
  · intro w
    constructor
    · rintro ⟨w', hrun⟩
      refine Nat.le_of_not_lt fun hroom => ?_
      rw [hfull w hroom] at hrun
      contradiction
    · intro hroom
      obtain ⟨w', hrun, _⟩ := hx w hroom
      exact ⟨w', hrun⟩
  · intro w w' hrun
    by_cases hroom : bs.length ≤ w.remaining
    · obtain ⟨w₁, hrun₁, hposition, hbuffer⟩ := hx w hroom
      rw [hrun₁] at hrun
      injection hrun with _ hw
      exact hw ▸ ⟨hposition, frame_of_toList hroom hbuffer⟩
    · rw [hfull w (Nat.lt_of_not_le hroom)] at hrun
      contradiction
  · intro w e w' hrun
    by_cases hroom : bs.length ≤ w.remaining
    · obtain ⟨w₁, hrun₁, _⟩ := hx w hroom
      rw [hrun₁] at hrun
      contradiction
    · rw [hfull w (Nat.lt_of_not_le hroom)] at hrun
      injection hrun with he hw
      exact ⟨he.symm, hw.symm⟩

/-- Where the fields have no room, nothing is written. -/
theorem writeFields_of_remaining_lt {n : Nat} (fs : List Field) {w : Writer}
    (hroom : w.remaining < n) :
    writeFields n fs w = .error (.capacity .recordByte (w.position + n) w.buffer.size) w := by
  unfold writeFields
  rw [bind_ok (get_apply w), if_pos hroom, w.position_add_remaining]
  rfl

/-- **Fields are written as a whole** behind a look at the room that all of them need. -/
theorem wholeOrNothing_writeFields {n : Nat} {fs : List Field}
    (h : (fs.flatMap Field.bytes).length = n) : WholeOrNothing (writeFields n fs) n := by
  have hwhole := WholeOrNothing.of_writes (writes_writeFields h) fun w hroom =>
    h.symm ▸ writeFields_of_remaining_lt fs (h ▸ hroom)
  rwa [h] at hwhole

end Record

/-! ## Drafts -/

namespace Draft

open Record

/-- The drafts that terms and readings leave, whether these succeed or fail. -/
inductive InUse : Draft → Prop
  | ofTerm (t : Term Single) : InUse (ofTerm t)
  | refill {d : Draft} (rules : Registry) (r : Reader) : InUse d →
      InUse (finalState (refill rules (r, d))).2

/-- Whether each variable of a draft has its coefficient. -/
def IsPaired (d : Draft) : Prop := d.vars.size ≤ d.coefficients.size

theorem isPaired_reading_bind {α : Type} (x : ReadM α) {f : α → RefillM Unit} {r : Reader}
    {d : Draft} (hd : d.IsPaired) (hf : ∀ a r', (finalState (f a (r', d))).2.IsPaired) :
    (finalState ((reading x >>= f) (r, d))).2.IsPaired := by
  cases hx : x r with
  | ok a r' =>
    rw [bind_ok (reading_ok hx)]
    exact hf a r'
  | error e r' =>
    rw [bind_error (reading_error hx)]
    exact hd

/-- Entries are filled in pairs, and a pair that is broken off lacks its variable. -/
theorem isPaired_fill (n : Nat) (r : Reader) {d : Draft} (hd : d.vars.size = d.coefficients.size) :
    (finalState (fill n (r, d))).2.IsPaired := by
  induction n generalizing r d with
  | zero => exact Nat.le_of_eq hd
  | succ n ih =>
    unfold fill
    refine isPaired_reading_bind _ (Nat.le_of_eq hd) fun c r₁ => ?_
    rw [bind_ok (change_apply ..)]
    have hbroken : (pushCoefficient c d).IsPaired := by
      simp only [IsPaired, pushCoefficient, Array.size_push]
      omega
    refine isPaired_reading_bind _ hbroken fun offset r₂ => ?_
    refine isPaired_reading_bind _ hbroken fun raw r₃ => ?_
    cases Variable.ofSigned? raw with
    | none => exact hbroken
    | some v =>
      dsimp only
      rw [bind_ok (change_apply ..)]
      refine ih r₃ ?_
      simp only [pushVar, pushCoefficient, Array.size_push, hd]

theorem InUse.isPaired {d : Draft} (h : d.InUse) : d.IsPaired := by
  induction h with
  | ofTerm t => simp [IsPaired, Draft.ofTerm]
  | @refill d rules r _ ih =>
    unfold Draft.refill
    refine isPaired_reading_bind _ ih fun h r₁ => ?_
    rw [bind_ok (change_apply ..), bind_ok (change_apply ..), clear_eq]
    exact isPaired_fill h.size r₁ (by simp [withEntries])

/-- The record of a draft in use is as long as the draft says. -/
theorem InUse.length_record {d : Draft} (h : d.InUse) :
    (d.fields.flatMap Field.bytes).length = d.recordSize := by
  have hsize : d.term.entries.toList.length = d.vars.size := by
    have hmin : min d.coefficients.size d.vars.size = d.vars.size := Nat.min_eq_right h.isPaired
    simpa [term] using hmin
  simp only [fields, List.flatMap_append, List.length_append, Term.length_entryBytes, hsize,
    recordSize]
  simp [Field.kind, FieldKind.width, Term.headerSize]

end Draft

/-! ## Records -/

namespace Record

/-- **Records are written whole or not at all.**  Writing a term succeeds exactly if as many bytes
are left as its record has.  Then it moves the cursor behind the record and changes no other byte;
otherwise it tells how large the buffer would have to be, and leaves buffer and cursor as they are.
The same holds of a draft, also when the reading before has failed. -/
theorem wholeOrNothing_write :
    (∀ t : Term Single, WholeOrNothing t.write t.recordSize) ∧
      ∀ d : Draft, d.InUse → WholeOrNothing d.write d.recordSize := by
  constructor
  · intro t
    rw [t.write_eq]
    exact wholeOrNothing_writeFields t.length_record
  · intro d hd
    exact wholeOrNothing_writeFields hd.length_record

/-- A draft that is left by a record whose only variable is negative. -/
def brokenDraft : Draft :=
  (finalState (Draft.refill sampleRules
    (.start #[0, 0, 0, 0, 0, 0, 0, 0, 0, 0, 0, 1, 0, 0, 0, 0, 255, 255, 255, 255],
      .ofTerm bareTerm))).2

/-- The coefficient without its variable is not written, and takes no room. -/
theorem wholeOrNothing_write_broken :
    brokenDraft.InUse ∧ brokenDraft.coefficients.size = 1 ∧
      (∃ w, brokenDraft.write (.start (Array.replicate 13 0xaa)) = .ok () w ∧ w.position = 12 ∧
        w.buffer[12]? = some 0xaa) ∧
      oddTerm.write ⟨Array.replicate 30 0xaa, 3, by decide⟩ =
        .error (.capacity .recordByte 31 30) ⟨Array.replicate 30 0xaa, 3, by decide⟩ := by
  obtain ⟨hterm, hdraft⟩ := wholeOrNothing_write
  have hbroken : brokenDraft.InUse := .refill sampleRules _ (.ofTerm bareTerm)
  obtain ⟨w, hrun⟩ := ((hdraft _ hbroken).succeeds_iff (.start (Array.replicate 13 0xaa))).mpr
    (by decide +kernel)
  obtain ⟨hposition, _, hframe⟩ := (hdraft _ hbroken).of_ok _ w hrun
  refine ⟨hbroken, by decide +kernel, ⟨w, hrun, hposition.trans (by decide +kernel), ?_⟩, ?_⟩
  · rw [hframe 12 (.inr (by decide +kernel))]
    rfl
  · generalize hw : (⟨Array.replicate 30 0xaa, 3, by decide⟩ : Writer) = w
    cases hwrite : oddTerm.write w with
    | ok _ w' =>
      have hroom := ((hterm oddTerm).succeeds_iff w).mp ⟨w', hwrite⟩
      subst hw
      contradiction
    | error e w' =>
      obtain ⟨rfl, rfl⟩ := (hterm oddTerm).of_error w e w' hwrite
      subst hw
      rfl

end Record

end HingeLoss

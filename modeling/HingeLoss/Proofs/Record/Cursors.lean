import HingeLoss.Proofs.Record.Defects
import HingeLoss.Proofs.Record.Room

/-!
# HingeLoss.Proofs.Record.Cursors

Fields that are put one after the other, also where some of them are refused.

1. A field is put exactly where its width is left in the buffer, and a put that is refused leaves
   buffer and cursor as they are (`wholeOrNothing_putField`).  The same holds of reading
   (`takesWhole_getField`), which looks at the room on its own.
2. So the puts that are refused can be left out (`forM_successful`), and the buffer has the bytes of
   the others, one after the other, in front of what it had (`stateAfter_putField`).
3. Reading fields of the same kinds gives them back, whatever follows them (`reads_mapM_getField`).
-/

namespace HingeLoss.Record

/-! ## Single writes -/

/-- Bytes without room are refused. -/
theorem putBytes_of_remaining_lt (bs : List UInt8) {w : Writer} (h : w.remaining < bs.length) :
    putBytes bs w = .error (.capacity .recordByte (w.position + bs.length) w.buffer.size) w := by
  obtain ⟨buffer, position, hle⟩ := w
  have hroom : ¬ bs.length ≤ buffer.size - position := Nat.not_le.mpr h
  simp only [putBytes, hroom, dite_false]

theorem wholeOrNothing_putField (f : Field) : WholeOrNothing (putField f) f.kind.width := by
  rw [← f.length_bytes]
  exact .of_writes (writes_putBytes f.bytes) fun _ => putBytes_of_remaining_lt f.bytes

/-! ## Single reads -/

theorem Reader.position_add_remaining (r : Reader) : r.position + r.remaining = r.bytes.size :=
  Nat.add_sub_cancel' r.position_le

/-- Whether a reading of `n` bytes is done as a whole, exactly where so many are left, and otherwise
does not move. -/
structure TakesWhole {α : Type} (x : ReadM α) (n : Nat) : Prop where
  succeeds_iff : ∀ r, (∃ a r', x r = .ok a r') ↔ n ≤ r.remaining
  of_ok : ∀ r a r', x r = .ok a r' → r'.position = r.position + n ∧ r'.bytes = r.bytes
  of_error : ∀ r e r', x r = .error e r' →
    e = .corruptRecord r.position (.short n r.remaining) ∧ r' = r

theorem firstDefect_fits (r : Reader) (n : Nat) :
    firstDefect [.fits r.bytes r.position n] = if n ≤ r.remaining then none
      else some (.corruptRecord r.position (.short n r.remaining), r.position) := by
  have hfits : (Check.fits r.bytes r.position n).holds = true ↔ n ≤ r.remaining := by
    rw [← Nat.add_le_add_iff_left (n := r.position), r.position_add_remaining]
    exact decide_eq_true_iff
  split
  · next hroom => exact firstDefect_eq_none (by simpa using hfits.mpr hroom)
  · next hroom => exact firstDefect_cons (Bool.eq_false_iff.mpr (mt hfits.mp hroom))

/-- A reading that makes no other check than for its bytes is done as a whole or not at all. -/
theorem TakesWhole.of_makes {α : Type} {x : ReadM α} {n : Nat}
    (hx : ∀ r, Makes x r [.fits r.bytes r.position n] fun _ r' => r'.position = r.position + n) :
    TakesWhole x n := by
  have herror (r : Reader) (e : Fault) (r' : Reader) : x r = .error e r' ↔
      r'.bytes = r.bytes ∧ (if n ≤ r.remaining then none
        else some (.corruptRecord r.position (.short n r.remaining), r.position)) =
          some (e, r'.position) := by
    rw [← firstDefect_fits]
    exact (hx r).eq_error_iff
  constructor
  · intro r
    constructor
    · rintro ⟨a, r', hrun⟩
      by_contra hroom
      have hfails := (herror r _ r).mpr ⟨rfl, if_neg hroom⟩
      rw [hrun] at hfails
      contradiction
    · intro hroom
      cases hrun : x r with
      | ok a r' => exact ⟨a, r', rfl⟩
      | error e r' =>
        have hdefect := ((herror r e r').mp hrun).2
        rw [if_pos hroom] at hdefect
        contradiction
  · intro r a r' hrun
    exact ((hx r).of_eq_ok hrun).symm
  · intro r e r' hrun
    obtain ⟨hbytes, hdefect⟩ := (herror r e r').mp hrun
    split at hdefect
    · contradiction
    · obtain ⟨bytes, position, hle⟩ := r
      obtain ⟨bytes', position', hle'⟩ := r'
      cases hbytes
      cases hdefect
      exact ⟨rfl, rfl⟩

theorem takesWhole_getField (k : FieldKind) : TakesWhole (getField k) k.width :=
  .of_makes fun r => (makes_getNumber k.width r).map fun _ _ h => h.2.2

/-- A field is read by the reading of its kind. -/
theorem getField_eq (k : FieldKind) : getField k = match k with
    | .byte => return .byte (← getByte)
    | .short => return .short (← getShort)
    | .word => return .word (← getWord)
    | .signed => return .signed (← getSigned)
    | .single => return .single (← getSingle) := by
  cases k <;>
    simp only [getField, getByte, getShort, getWord, getSigned, getSingle, bind_assoc, pure_bind,
      Field.ofNat, FieldKind.width]

theorem reads_getField (f : Field) : Reads (getField f.kind) f.bytes f := by
  rw [getField_eq]
  cases f with
  | byte x => exact (reads_getByte x).map
  | short x => exact (reads_getShort x).map
  | word x => exact (reads_getWord x).map
  | signed x => exact (reads_getSigned x).map
  | single x => exact (reads_getSingle x).map

/-! ## Sequences -/

/-- The fields that are put have had room together. -/
theorem length_successful_le (fs : List Field) (w : Writer) :
    ((successful putField fs w).flatMap Field.bytes).length ≤ w.remaining := by
  induction fs generalizing w with
  | nil => exact Nat.zero_le _
  | cons f fs ih =>
    -- a field that is put takes its width of the room, and a field that is refused takes nothing
    cases hput : putField f w with
    | ok _ w' =>
      obtain ⟨hposition, hsize, -⟩ := (wholeOrNothing_putField f).of_ok w w' hput
      have hroom := ((wholeOrNothing_putField f).succeeds_iff w).mp ⟨w', hput⟩
      have hrest := ih w'
      rw [successful_cons_of_ok hput, List.flatMap_cons, List.length_append, f.length_bytes]
      unfold Writer.remaining at hroom hrest ⊢
      omega
    | error e w' =>
      obtain ⟨-, rfl⟩ := (wholeOrNothing_putField f).of_error w e w' hput
      rw [successful_cons_of_error hput]
      exact ih w'

/-- **Puts one after the other** move the cursor by the bytes of the fields that have room, and put
these bytes there. -/
theorem stateAfter_putField (fs : List Field) (w : Writer) :
    let w' := stateAfter putField fs w
    let bs := (successful putField fs w).flatMap Field.bytes
    w'.position = w.position + bs.length ∧ w'.buffer.toList =
      w.buffer.toList.take w.position ++ bs ++ w.buffer.toList.drop (w.position + bs.length) := by
  have hrun := forM_successful (fun f w e w' h => ((wholeOrNothing_putField f).of_error w e w' h).2)
    fs w
  have hwrites := Writes.forM (f := putField) (fun f => writes_putBytes f.bytes)
    (successful putField fs w)
  obtain ⟨w', hrun', hw'⟩ := hwrites w (length_successful_le fs w)
  rw [hrun] at hrun'
  injection hrun' with _ hw
  exact hw ▸ hw'

theorem reads_mapM_getField (fs : List Field) :
    Reads ((fs.map Field.kind).mapM getField) (fs.flatMap Field.bytes) fs := by
  induction fs with
  | nil => exact Reads.pure []
  | cons f fs ih =>
    rw [List.map_cons, List.mapM_cons, List.flatMap_cons]
    exact (reads_getField f).bind ih.map

/-- What a buffer has taken stands in front of what it had. -/
theorem toList_stateAfter_start (buffer : Array UInt8) (fs : List Field) :
    let w := stateAfter putField fs (.start buffer)
    w.buffer.toList = (successful putField fs (.start buffer)).flatMap Field.bytes ++
      buffer.toList.drop w.position := by
  intro w
  obtain ⟨hposition, hbuffer⟩ := stateAfter_putField fs (.start buffer)
  rw [hbuffer, hposition]
  simp [Writer.start]

/-- The fields that a buffer has taken are read back from it. -/
theorem exists_mapM_getField (buffer : Array UInt8) (fs : List Field) :
    let w := stateAfter putField fs (.start buffer)
    let taken := successful putField fs (.start buffer)
    ∃ r, (taken.map Field.kind).mapM getField (.start w.buffer) = .ok taken r ∧
      r.position = w.position := by
  intro w taken
  have hposition := (stateAfter_putField fs (.start buffer)).1
  have hrest : (Reader.start w.buffer).rest =
      taken.flatMap Field.bytes ++ buffer.toList.drop w.position :=
    toList_stateAfter_start buffer fs
  obtain ⟨r, hread, hbytes, hend⟩ := reads_mapM_getField taken _ _ hrest
  rw [← hend] at hrest
  refine ⟨r, hread, (position_eq_add hbytes hrest).trans ?_⟩
  rw [hposition]
  rfl

theorem size_stateAfter_putField (fs : List Field) (w : Writer) :
    (stateAfter putField fs w).buffer.size = w.buffer.size :=
  (frame_of_toList (length_successful_le fs w) (stateAfter_putField fs w).2).1

/-- Gets one after the other stay in the buffer that they start in. -/
theorem bytes_stateAfter_getField (ks : List FieldKind) (r : Reader) :
    (stateAfter getField ks r).bytes = r.bytes := by
  have hkeeps (k : FieldKind) : Preserves (fun r' : Reader => r'.bytes = r.bytes) (getField k) := by
    refine Keeps.of_finalState fun r₁ hr₁ => ?_
    cases hget : getField k r₁ with
    | ok _ r₂ => exact ((takesWhole_getField k).of_ok r₁ _ r₂ hget).2.trans hr₁
    | error e r₂ => exact ((takesWhole_getField k).of_error r₁ e r₂ hget).2 ▸ hr₁
  exact Keeps.stateAfter (fun k _ => hkeeps k) rfl

/-- Behind a field that has had no room, a narrower one is put all the same. -/
theorem putField_of_refused {f g : Field} {w : Writer} (hfull : w.remaining < f.kind.width)
    (hroom : g.kind.width ≤ w.remaining) :
    ∃ w', putField g (finalState (putField f w)) = .ok () w' := by
  cases hput : putField f w with
  | ok _ w' =>
    have hfits := ((wholeOrNothing_putField f).succeeds_iff w).mp ⟨w', hput⟩
    exact absurd hfits (Nat.not_le.mpr hfull)
  | error e w' =>
    obtain ⟨-, rfl⟩ := (wholeOrNothing_putField f).of_error w e w' hput
    exact ((wholeOrNothing_putField g).succeeds_iff w').mpr hroom

/-- **What a buffer has taken is read back from it.**  A put succeeds exactly if its width is left,
and a get likewise; one that is refused leaves buffer and cursor as they are, so that a narrower one
may still succeed.  Whatever is put in whatever order, the bytes of the fields that the buffer has
taken stand in front of what it had; reading the kinds of these fields gives them back, and ends
where the writer stands. -/
theorem read_back_taken (buffer : Array UInt8) (fs : List Field) :
    let w := stateAfter putField fs (.start buffer)
    let taken := successful putField fs (.start buffer)
    (∀ f : Field, WholeOrNothing (putField f) f.kind.width) ∧
      (∀ f g : Field, w.remaining < f.kind.width → g.kind.width ≤ w.remaining →
        ∃ w', putField g (finalState (putField f w)) = .ok () w') ∧
      w.position + w.remaining = buffer.size ∧
      w.buffer.toList = taken.flatMap Field.bytes ++ buffer.toList.drop w.position ∧
      (∃ r, (taken.map Field.kind).mapM getField (.start w.buffer) = .ok taken r ∧
        r.position = w.position) ∧
      (∀ k : FieldKind, TakesWhole (getField k) k.width) ∧
      ∀ (bytes : Array UInt8) (ks : List FieldKind),
        let r := stateAfter getField ks (.start bytes)
        r.position + r.remaining = bytes.size := by
  refine ⟨wholeOrNothing_putField, fun _ _ => putField_of_refused, ?_,
    toList_stateAfter_start buffer fs, exists_mapM_getField buffer fs, takesWhole_getField, ?_⟩
  · rw [Writer.position_add_remaining, size_stateAfter_putField]
    rfl
  · intro bytes ks r
    rw [r.position_add_remaining, bytes_stateAfter_getField]
    rfl

/-- Fields that are put into seven bytes, of which the second and the fourth have no room. -/
def mixedFields : List Field :=
  [.signed (-2), .single ⟨0x7fc00123⟩, .short 0x0102, .word 7]

/-- What is refused leaves no trace: the fields around it are read back, and the last byte is as it
was. -/
theorem read_back_taken_mixed :
    let w := stateAfter putField mixedFields (.start (Array.replicate 7 0xaa))
    (.byte 3 : Field).kind.width ≤ w.remaining ∧ w.remaining < (.word 7 : Field).kind.width ∧
      (∃ w', putField (.byte 3) (finalState (putField (.word 7) w)) = .ok () w') ∧
      w.buffer = #[0xff, 0xff, 0xff, 0xfe, 1, 2, 0xaa] ∧
      ∃ r, [FieldKind.signed, .short].mapM getField (.start #[0xff, 0xff, 0xff, 0xfe, 1, 2, 0xaa]) =
        .ok [.signed (-2), .short 0x0102] r ∧ r.position = 6 := by
  intro w
  obtain ⟨-, hlater, -, -, hread, -⟩ := read_back_taken (Array.replicate 7 0xaa) mixedFields
  have hbuffer : w.buffer = #[0xff, 0xff, 0xff, 0xfe, 1, 2, 0xaa] := by decide +kernel
  have htaken : successful putField mixedFields (.start (Array.replicate 7 0xaa)) =
      [.signed (-2), .short 0x0102] := by decide +kernel
  have hroom : (.byte 3 : Field).kind.width ≤ w.remaining := by decide +kernel
  have hfull : w.remaining < (.word 7 : Field).kind.width := by decide +kernel
  obtain ⟨r, hr, hposition⟩ := hread
  rw [htaken, hbuffer] at hr
  exact ⟨hroom, hfull, hlater (.word 7) (.byte 3) hfull hroom, hbuffer, r, hr,
    hposition.trans (by decide +kernel)⟩

end HingeLoss.Record

import HingeLoss.Proofs.Record.RoundTrip
import HingeLoss.Proofs.Rule.Registration
import HingeLoss.Record.Draft

/-!
# HingeLoss.Proofs.Record.Writing

What writing makes of a buffer, and records in a row.

`Writes x bs` says that a writer `x` that finds room for `bs` puts exactly these bytes behind its
cursor and leaves all others alone.  It is the counterpart of `Reads`: one lemma for a field, one
for a sequence, and `writes_write` for a record.  A list of terms is written as one record after the
other, without anything in between, and it is read back as the same list from any buffer that starts
with these records.
-/

namespace HingeLoss

namespace Record

/-! ## Writings -/

/-- Bytes that are put in place of others stand between those before and those behind them. -/
theorem toList_overwrite {buffer : Array UInt8} {start : Nat} {bs : List UInt8}
    (h : start + bs.length ≤ buffer.size) :
    (overwrite buffer start bs).toList =
      buffer.toList.take start ++ bs ++ buffer.toList.drop (start + bs.length) := by
  induction bs generalizing buffer start with
  | nil => simp [overwrite]
  | cons b bs ih =>
    simp only [List.length_cons] at h
    have hlt : start < buffer.toList.length := by
      rw [Array.length_toList]
      omega
    have hset : (buffer.setIfInBounds start b).toList.take (start + 1) =
        buffer.toList.take start ++ [b] := by
      rw [Array.toList_setIfInBounds, List.take_add_one, List.take_set_of_le (Nat.le_refl start),
        List.getElem?_set_self hlt]
      rfl
    have hdrop : (buffer.setIfInBounds start b).toList.drop (start + 1 + bs.length) =
        buffer.toList.drop (start + 1 + bs.length) := by
      rw [Array.toList_setIfInBounds, List.drop_set_of_lt (by omega)]
    rw [overwrite, ih (by rw [Array.size_setIfInBounds]; omega), hset, hdrop]
    simp [Nat.add_assoc, Nat.add_comm 1]

/-- From a writer that has room for `bs`, `x` puts exactly these bytes behind the cursor. -/
def Writes (x : WriteM Unit) (bs : List UInt8) : Prop :=
  ∀ w : Writer, bs.length ≤ w.remaining →
    ∃ w', x w = .ok () w' ∧ w'.position = w.position + bs.length ∧
      w'.buffer.toList =
        w.buffer.toList.take w.position ++ bs ++ w.buffer.toList.drop (w.position + bs.length)

/-- The bytes before a cursor are as many as its position says. -/
theorem length_take_position (w : Writer) :
    (w.buffer.toList.take w.position).length = w.position := by
  rw [List.length_take, Array.length_toList]
  exact Nat.min_eq_left w.position_le

theorem Writer.position_add_remaining (w : Writer) : w.position + w.remaining = w.buffer.size :=
  Nat.add_sub_cancel' w.position_le

namespace Writes

variable {x y : WriteM Unit} {bs cs : List UInt8}

theorem pure : Writes (pure ()) [] := by
  intro w _
  exact ⟨w, rfl, rfl, by simp⟩

/-- A writing keeps the size of the buffer, so the room shrinks by the bytes that are written. -/
theorem remaining_eq {w w' : Writer} (hposition : w'.position = w.position + bs.length)
    (hbuffer : w'.buffer.toList =
      w.buffer.toList.take w.position ++ bs ++ w.buffer.toList.drop (w.position + bs.length)) :
    w'.remaining = w.remaining - bs.length := by
  have hlen := congrArg List.length hbuffer
  have hle := w.position_le
  unfold Writer.remaining
  simp only [List.length_append, List.length_drop, length_take_position,
    Array.length_toList] at hlen
  omega

theorem bind (hx : Writes x bs) (hy : Writes y cs) : Writes (x >>= fun _ => y) (bs ++ cs) := by
  intro w hroom
  rw [List.length_append] at hroom
  obtain ⟨w₁, hx, hp₁, hb₁⟩ := hx w (by omega)
  have hleft := remaining_eq hp₁ hb₁
  obtain ⟨w₂, hy, hp₂, hb₂⟩ := hy w₁ (by omega)
  have hfront : w₁.buffer.toList.take w₁.position = w.buffer.toList.take w.position ++ bs := by
    rw [hb₁, hp₁]
    exact List.take_left' (by rw [List.length_append, length_take_position])
  have hback : w₁.buffer.toList.drop (w₁.position + cs.length) =
      w.buffer.toList.drop (w.position + (bs ++ cs).length) := by
    have hlen : (w.buffer.toList.take w.position ++ bs).length = w₁.position := by
      rw [List.length_append, length_take_position, hp₁]
    rw [← List.drop_drop, hb₁, List.drop_left' hlen, List.drop_drop, List.length_append,
      Nat.add_assoc]
  have hposition : w₂.position = w.position + (bs ++ cs).length := by
    rw [hp₂, hp₁, List.length_append, Nat.add_assoc]
  have hbuffer : w₂.buffer.toList = w.buffer.toList.take w.position ++ (bs ++ cs) ++
      w.buffer.toList.drop (w.position + (bs ++ cs).length) := by
    rw [hb₂, hfront, hback, List.append_assoc _ bs cs]
  exact ⟨w₂, by rw [bind_ok hx, hy], hposition, hbuffer⟩

/-- A loop writes what its rounds write, one after the other. -/
theorem forM {γ : Type} {f : γ → WriteM Unit} {g : γ → List UInt8} (h : ∀ a, Writes (f a) (g a))
    (l : List γ) : Writes (l.forM f) (l.flatMap g) := by
  induction l with
  | nil => exact pure
  | cons a l ih =>
    rw [List.flatMap_cons]
    exact (h a).bind ih

/-- A writer writes one sequence of bytes at most. -/
theorem unique (hb : Writes x bs) (hc : Writes x cs) : bs = cs := by
  let w : Writer := .start (bs ++ cs).toArray
  have hsize : w.remaining = bs.length + cs.length := by
    simp [w, Writer.remaining, Writer.start]
  obtain ⟨w₁, h₁, hp₁, hb₁⟩ := hb w (by omega)
  obtain ⟨w₂, h₂, hp₂, hb₂⟩ := hc w (by omega)
  have hw : w₁ = w₂ := by
    rw [h₁] at h₂
    injection h₂
  have hlen : bs.length = cs.length := by
    rw [hw] at hp₁
    omega
  have hbuffer := congrArg (List.take bs.length) (hb₁.symm.trans (hw ▸ hb₂))
  simp only [w, Writer.start, List.take_zero, List.nil_append] at hbuffer
  rw [List.take_left, List.take_left' hlen.symm] at hbuffer
  exact hbuffer

end Writes

/-! ## Fields and records -/

theorem writes_putBytes (bs : List UInt8) : Writes (putBytes bs) bs := by
  rintro ⟨buffer, position, hle⟩ hroom
  simp only [Writer.remaining] at hroom
  refine ⟨⟨overwrite buffer position bs, position + bs.length, by rw [size_overwrite]; omega⟩,
    ?_, rfl, ?_⟩
  · simp only [putBytes, hroom, dite_true]
  · exact toList_overwrite (by omega)

/-- Fields are written where there is room for all of them. -/
theorem writes_writeFields {n : Nat} {fs : List Field} (h : (fs.flatMap Field.bytes).length = n) :
    Writes (writeFields n fs) (fs.flatMap Field.bytes) := by
  intro w hroom
  have hfits : ¬ w.remaining < n := by
    rw [← h]
    exact Nat.not_lt.mpr hroom
  have hfields : Writes (fs.forM putField) (fs.flatMap Field.bytes) :=
    Writes.forM (f := putField) (fun f => writes_putBytes f.bytes) fs
  have heq : writeFields n fs w = fs.forM putField w := by
    unfold writeFields
    rw [bind_ok (get_apply w), if_neg hfits]
  rw [heq]
  exact hfields w hroom

/-- A record is written where there is room for it. -/
theorem writes_write (t : Term Single) : Writes t.write t.record := by
  rw [t.write_eq]
  exact writes_writeFields t.length_record

/-! ## Records in a row -/

/-- Writes the records of terms, one after the other. -/
def writeAll (ts : List (Term Single)) : WriteM Unit := ts.forM Term.write

/-- Reads so many records. -/
def readMany (rules : Registry) : Nat → ReadM (List (Term Single))
  | 0 => return []
  | n + 1 => do
    let t ← Term.decode rules
    return t :: (← readMany rules n)

/-- The number of bytes of the records of terms. -/
def recordsSize : List (Term Single) → Nat
  | [] => 0
  | t :: ts => t.recordSize + recordsSize ts

theorem length_records (ts : List (Term Single)) : (records ts).length = recordsSize ts := by
  induction ts with
  | nil => rfl
  | cons t ts ih =>
    rw [records, List.flatMap_cons, List.length_append, Term.length_record, ← records, ih]
    rfl

theorem writes_writeAll (ts : List (Term Single)) : Writes (writeAll ts) (records ts) :=
  Writes.forM writes_write ts

theorem reads_readMany {rules : Registry} {ts : List (Term Single)}
    (h : ∀ t ∈ ts, t.IsRecordable rules) : Reads (readMany rules ts.length) (records ts) ts := by
  induction ts with
  | nil => exact Reads.pure []
  | cons t ts ih =>
    have ht := Term.reads_decode (h t List.mem_cons_self)
    have hts := ih fun u hu => h u (List.mem_cons_of_mem t hu)
    exact ht.bind hts.map

/-- A reading moves the cursor by the bytes that it takes. -/
theorem position_eq_add {r r' : Reader} {bs : List UInt8} (hbytes : r'.bytes = r.bytes)
    (hrest : r.rest = bs ++ r'.rest) : r'.position = r.position + bs.length := by
  have hlen := congrArg List.length hrest
  have hle := r.position_le
  have hle' := r'.position_le
  rw [hbytes] at hle'
  simp only [List.length_append, length_rest, Reader.remaining, hbytes] at hlen
  omega

end Record

/-! ## Terms of linear forms -/

namespace Term

/-- Whether a term has been made of a linear form whose variables are signed words, with a rule that
a registry has under its id. -/
def IsMadeFor (rules : Registry) (t : Term Single) : Prop :=
  ∃ (rule : Rule Single) (potential : Potential) (f : LinearForm Single),
    ofForm rule potential f = .ok t ∧ rules.resolve rule.id = .ok rule ∧
      ∀ v ∈ f.vars, v.toNat ≤ 0x7fffffff

theorem IsMadeFor.isRecordable {rules : Registry} {t : Term Single} (h : t.IsMadeFor rules) :
    t.IsRecordable rules := by
  obtain ⟨rule, potential, f, hform, hresolve, hvars⟩ := h
  obtain ⟨hsize, rfl⟩ := ofForm_eq_ok_iff.mp hform
  constructor
  · exact Registry.owns_iff.mpr (Registry.resolve_eq_ok_iff.mp hresolve)
  · exact hsize
  · intro e he
    have hv := hvars e.var (List.mem_map_of_mem he)
    omega

end Term

namespace Record

/-- **Records in a row are read back.**  The terms are written over the bytes `room`, which are as
many as their records take; whatever bytes follow, the list is read back as it was, and the cursor
is then at the first of the bytes that follow.  On the way, writing and reading have moved past as
many bytes as the records so far take. -/
theorem readMany_writeAll {rules : Registry} {ts : List (Term Single)}
    (hts : ∀ t ∈ ts, t.IsMadeFor rules) {room : List UInt8} (hroom : room.length = recordsSize ts)
    (suffix : List UInt8) :
    ∃ w, writeAll ts (.start (room ++ suffix).toArray) = .ok () w ∧
      (∃ r, readMany rules ts.length (.start w.buffer) = .ok ts r ∧ r.rest = suffix) ∧
      ∀ us vs, ts = us ++ vs →
        (∃ w', writeAll us (.start (room ++ suffix).toArray) = .ok () w' ∧
          w'.position = recordsSize us) ∧
        ∃ r, readMany rules us.length (.start w.buffer) = .ok us r ∧
          r.position = recordsSize us := by
  have hlen := length_records ts
  have hstart : (Writer.start (room ++ suffix).toArray).remaining =
      recordsSize ts + suffix.length := by
    simp [Writer.start, Writer.remaining, hroom]
  obtain ⟨w, hw, _, hbuffer⟩ := writes_writeAll ts (.start (room ++ suffix).toArray) (by omega)
  have hrest : (Reader.start w.buffer).rest = records ts ++ suffix := by
    simp only [Reader.rest, Reader.start, List.drop_zero, hbuffer]
    simp [Writer.start, hlen, ← hroom]
  refine ⟨w, hw, ?_, ?_⟩
  · obtain ⟨r, hr, _, hend⟩ := reads_readMany (fun t ht => (hts t ht).isRecordable) _ _ hrest
    exact ⟨r, hr, hend⟩
  · rintro us vs rfl
    rw [← length_records us]
    rw [← hlen, records_append, List.length_append] at hstart
    constructor
    · obtain ⟨w', hw', hposition, _⟩ :=
        writes_writeAll us (.start (room ++ suffix).toArray) (by omega)
      exact ⟨w', hw', hposition.trans (Nat.zero_add _)⟩
    · have hus : ∀ t ∈ us, t.IsRecordable rules := by
        intro t ht
        exact (hts t (List.mem_append_left vs ht)).isRecordable
      rw [records_append, List.append_assoc] at hrest
      obtain ⟨r, hr, hbytes, hend⟩ := reads_readMany hus _ _ hrest
      rw [← hend] at hrest
      exact ⟨r, hr, (position_eq_add hbytes hrest).trans (Nat.zero_add _)⟩

/-- A form with the greatest variable, a coefficient that is no number and negative zeros. -/
def oddForm : LinearForm Single where
  entries := #[⟨⟨0x7fc00123⟩, ⟨0x7fffffff⟩⟩, ⟨⟨0x80000000⟩, ⟨0⟩⟩]
  constant := ⟨0x80000000⟩

/-- The term of a form with a potential that is not the one of its rule. -/
def oddTerm : Term Single :=
  ⟨⟨0, ⟨1⟩, "limit", .hard, .hinge⟩, .squared, oddForm.constant, oddForm.entries⟩

/-- A term without entries. -/
def bareTerm : Term Single := ⟨⟨0, ⟨0⟩, "prior", .soft 1, .squaredHinge⟩, .linear, 1, #[]⟩

/-- A buffer for the records of the two terms, before bytes that could begin another one. -/
theorem readMany_writeAll_pair :
    (∀ t ∈ [oddTerm, bareTerm], t.IsMadeFor sampleRules) ∧
      (List.replicate 40 (0xaa : UInt8)).length = recordsSize [oddTerm, bareTerm] ∧
      ∃ w, writeAll [oddTerm, bareTerm]
          (.start (List.replicate 40 (0xaa : UInt8) ++ [0, 1, 0]).toArray) = .ok () w ∧
        (∃ r, readMany sampleRules 2 (.start w.buffer) = .ok [oddTerm, bareTerm] r ∧
          r.rest = [0, 1, 0]) ∧
        ∃ r, readMany sampleRules 1 (.start w.buffer) = .ok [oddTerm] r ∧ r.position = 28 := by
  have hmade : ∀ t ∈ [oddTerm, bareTerm], t.IsMadeFor sampleRules := by
    intro t ht
    simp only [List.mem_cons, List.not_mem_nil, or_false] at ht
    rcases ht with rfl | rfl
    · exact ⟨_, .squared, oddForm, rfl, rfl, by decide⟩
    · exact ⟨_, .linear, { constant := 1 }, rfl, rfl, by decide⟩
  have hroom : (List.replicate 40 (0xaa : UInt8)).length = recordsSize [oddTerm, bareTerm] := by
    rw [List.length_replicate]
    rfl
  obtain ⟨w, hw, hall, hpart⟩ := readMany_writeAll hmade hroom [0, 1, 0]
  obtain ⟨_, r, hr, hposition⟩ := hpart [oddTerm] [bareTerm] rfl
  exact ⟨hmade, hroom, w, hw, hall, r, hr, hposition⟩

end Record

end HingeLoss

import HingeLoss.Atoms.Archive
import HingeLoss.Proofs.Program

/-!
# HingeLoss.Proofs.Atoms.Layout

What a file has to look like to be read as an archive, and what is read from it.

1. the layer of words: four bytes are read back as the word they were written for, and signed words
   as their numbers (`wordAt_append`, `toSigned_ofSigned`);
2. `IsArchive` collects what makes a file an archive, and a file is read exactly if it is one
   (`decode_eq_some_iff`);
3. an archive whose offsets fit their words is read back from its bytes (`decode_encode`);
4. no byte outside the file is ever looked at: `decodeIn` takes every byte through a check of its
   position, and it is `decode` (`decodeIn_eq`).
-/

namespace HingeLoss

namespace Archive

open Record

variable {bytes : Array UInt8} {a : Archive}

/-! ## Words -/

@[simp] theorem length_wordBytes (n : Nat) : (wordBytes n).length = 4 := by simp [wordBytes]

theorem ofWordBytes_wordBytes {n : Nat} (h : n < 4294967296) : ofWordBytes (wordBytes n) = n := by
  rw [ofWordBytes, wordBytes, List.reverse_reverse]
  exact ofBigEndian_toBigEndian h

theorem ofSigned_lt (i : Int) : ofSigned i < 4294967296 := UInt32.toNat_lt _

theorem toSigned_ofSigned {i : Int} (h : -2147483648 ≤ i) (h' : i < 2147483648) :
    toSigned (ofSigned i) = i := by
  rw [toSigned, ofSigned, UInt32.ofNat_toNat, Int32.toInt32_toUInt32]
  exact Int32.toInt_ofInt_of_le h h'

theorem le_toSigned (n : Nat) : -2147483648 ≤ toSigned n := Int32.le_toInt _

/-- The bytes of a part of a file. -/
theorem toList_extract_append (xs ys zs : List UInt8) {k n : Nat} (hk : xs.length = k)
    (hn : ys.length = n) : ((xs ++ (ys ++ zs)).toArray.extract k (k + n)).toList = ys := by
  subst hk hn
  rw [Array.toList_extract, List.extract_eq_take_drop, List.drop_left, Nat.add_sub_cancel_left,
    List.take_left]

/-- A word is read back from its place between other bytes. -/
theorem wordAt_append (xs ys : List UInt8) {k n : Nat} (hk : xs.length = k)
    (hn : n < 4294967296) : wordAt (xs ++ (wordBytes n ++ ys)).toArray k = n := by
  rw [wordAt, toList_extract_append xs _ ys hk (length_wordBytes n), ofWordBytes_wordBytes hn]

/-! ## Flags -/

theorem flag?_flagByte (b : Bool) : flag? (flagByte b) = some b := by cases b <;> rfl

theorem flag?_eq_some_iff {b : UInt8} {flag : Bool} : flag? b = some flag ↔ b = flagByte flag := by
  constructor
  · intro h
    unfold flag? at h
    split at h
    · next hb =>
      cases h
      exact hb
    · split at h
      · next hb =>
        cases h
        exact hb
      · contradiction
  · rintro rfl
    exact flag?_flagByte flag

/-- Flags are read exactly from their own bytes. -/
theorem mapM_flag?_eq_some_iff {bs : List UInt8} {flags : List Bool} :
    bs.mapM flag? = some flags ↔ bs = flags.map flagByte := by
  induction bs generalizing flags with
  | nil => cases flags <;> simp
  | cons b bs ih =>
    rw [List.mapM_cons]
    cases flags with
    | nil => cases flag? b <;> simp [Option.bind_eq_some_iff]
    | cons flag flags =>
      simp only [Option.pure_def, Option.bind_eq_bind, Option.bind_eq_some_iff, Option.some.injEq,
        List.cons.injEq, List.map_cons, flag?_eq_some_iff, ih]
      constructor
      · rintro ⟨_, hb, _, hbs, rfl, rfl⟩
        exact ⟨hb, hbs⟩
      · rintro ⟨hb, hbs⟩
        exact ⟨flag, hb, flags, hbs, rfl, rfl⟩

/-! ## Archives among the files -/

/-- The regions of a file, as its last sixteen bytes name them. -/
def layout (bytes : Array UInt8) : Layout := Layout.ofRoot bytes (bytes.size - rootSize)

/-- The value at a position of the value region. -/
def Layout.value (l : Layout) (bytes : Array UInt8) (i : Nat) : Single :=
  ⟨UInt32.ofNat (wordAt bytes (l.valuesAt.toNat + 4 * i))⟩

/-- The bytes of the flag region. -/
def Layout.flagBytes (l : Layout) (bytes : Array UInt8) : List UInt8 :=
  (bytes.extract l.flagsAt.toNat (l.flagsAt.toNat + l.flags)).toList

/-- A file that is an archive. -/
structure IsArchive (bytes : Array UInt8) : Prop where
  /-- The root is a part of the file. -/
  rootSize_le : rootSize ≤ bytes.size
  aligned : (bytes.size - rootSize) % 4 = 0
  /-- The values are aligned, and the regions lie one after the other before the root. -/
  fits : (layout bytes).Fits (bytes.size - rootSize)
  /-- Every flag is zero or one. -/
  flag : ∀ b ∈ (layout bytes).flagBytes bytes, b = 0 ∨ b = 1

/-- The flag region of an archive lies in the file. -/
theorem IsArchive.length_flagBytes (h : IsArchive bytes) :
    ((layout bytes).flagBytes bytes).length = (layout bytes).flags := by
  obtain ⟨hsize, -, ⟨hvalues, -, horder, hend⟩, -⟩ := h
  simp only [Layout.flagBytes, Array.length_toList, Array.size_extract]
  omega

/-- **A file is read exactly if it is an archive**, and then its values and flags are those of the
regions that its root names. -/
theorem decode_eq_some_iff :
    decode bytes = some a ↔ IsArchive bytes ∧
      a.values = (List.range (layout bytes).values).map ((layout bytes).value bytes) ∧
      (layout bytes).flagBytes bytes = a.observed.map flagByte := by
  have hread : decode bytes = some a ↔
      (rootSize ≤ bytes.size ∧ (bytes.size - rootSize) % 4 = 0 ∧
        (layout bytes).Fits (bytes.size - rootSize)) ∧
      (layout bytes).flagBytes bytes = a.observed.map flagByte ∧
      a.values = (List.range (layout bytes).values).map ((layout bytes).value bytes) := by
    rw [← mapM_flag?_eq_some_iff]
    unfold decode
    obtain ⟨values, observed⟩ := a
    simp only [Option.ite_none_right_eq_some, Option.map_eq_some_iff, Archive.mk.injEq,
      exists_eq_right_right]
    exact and_congr_right fun _ => and_congr_right fun _ => eq_comm
  rw [hread]
  constructor
  · rintro ⟨⟨hsize, haligned, hfits⟩, hflags, hvalues⟩
    refine ⟨⟨hsize, haligned, hfits, fun b hb => ?_⟩, hvalues, hflags⟩
    rw [hflags, List.mem_map] at hb
    obtain ⟨flag, _, rfl⟩ := hb
    cases flag
    · exact .inl rfl
    · exact .inr rfl
  · rintro ⟨h, hvalues, hflags⟩
    exact ⟨⟨h.rootSize_le, h.aligned, h.fits⟩, hflags, hvalues⟩

theorem exists_decode_iff : (∃ a, decode bytes = some a) ↔ IsArchive bytes := by
  constructor
  · rintro ⟨a, h⟩
    exact (decode_eq_some_iff.mp h).1
  · intro h
    refine ⟨⟨_, ((layout bytes).flagBytes bytes).map (· = 1)⟩, decode_eq_some_iff.mpr ⟨h, rfl, ?_⟩⟩
    rw [List.map_map, List.map_congr_left (g := id), List.map_id]
    intro b hb
    cases h.flag b hb with
    | inl hb => rw [hb]; rfl
    | inr hb => rw [hb]; rfl

/-- The values and the flags of an archive are as many as its root says. -/
theorem lengths_of_decode (h : decode bytes = some a) :
    a.values.length = (layout bytes).values ∧ a.observed.length = (layout bytes).flags := by
  obtain ⟨harchive, hvalues, hflags⟩ := decode_eq_some_iff.mp h
  have hlength := harchive.length_flagBytes
  rw [hflags, List.length_map] at hlength
  exact ⟨by rw [hvalues, List.length_map, List.length_range], hlength⟩

/-! ## Offsets that fit their words -/

/-- Both offsets of the root can be written: they are distances back over the body. -/
def IsAddressable (a : Archive) : Prop := a.body.length ≤ 2147483648

theorem length_flatMap_wordBytes (values : List Single) :
    (values.flatMap fun v => wordBytes v.bits.toNat).length = 4 * values.length := by
  induction values with
  | nil => rfl
  | cons v values ih =>
    rw [List.flatMap_cons, List.length_append, ih, length_wordBytes, List.length_cons]
    omega

theorem length_body (a : Archive) :
    a.body.length = 4 * a.values.length + a.observed.length + (4 - a.observed.length % 4) % 4 := by
  simp only [body, padding, List.length_append, length_flatMap_wordBytes, List.length_map,
    List.length_replicate]

theorem isAddressable_iff (hsame : a.values.length = a.observed.length) :
    a.IsAddressable ↔ 5 * a.values.length ≤ 2147483648 := by
  have hlength := length_body a
  unfold IsAddressable
  omega

/-- What has been read can be written: the root has named a region of that size before it. -/
theorem isAddressable_of_decode (h : decode bytes = some a)
    (hsame : a.values.length = a.observed.length) : a.IsAddressable := by
  obtain ⟨hvalues, hflags⟩ := lengths_of_decode h
  obtain ⟨hle, -, horder, hend⟩ := (decode_eq_some_iff.mp h).1.fits
  have hstart : (layout bytes).valuesAt = (bytes.size - rootSize : Nat) +
      toSigned (wordAt bytes (bytes.size - rootSize)) := rfl
  have hbound := le_toSigned (wordAt bytes (bytes.size - rootSize))
  have hlength := length_body a
  unfold IsAddressable
  omega

/-! ## The round trip -/

/-- A word among words is read back from its place. -/
theorem wordAt_flatMap {values : List Single} {i : Nat} (h : i < values.length)
    (rest : List UInt8) :
    wordAt (values.flatMap (fun v => wordBytes v.bits.toNat) ++ rest).toArray (4 * i) =
      values[i].bits.toNat := by
  have hsplit : values = values.take i ++ values[i] :: values.drop (i + 1) := by
    rw [← List.drop_eq_getElem_cons h, List.take_append_drop]
  have hbytes : values.flatMap (fun v => wordBytes v.bits.toNat) ++ rest =
      (values.take i).flatMap (fun v => wordBytes v.bits.toNat) ++ (wordBytes values[i].bits.toNat ++
        ((values.drop (i + 1)).flatMap (fun v => wordBytes v.bits.toNat) ++ rest)) := by
    conv =>
      lhs
      rw [hsplit]
    simp only [List.flatMap_append, List.flatMap_cons, List.append_assoc]
  have hlength : ((values.take i).flatMap fun v => wordBytes v.bits.toNat).length = 4 * i := by
    rw [length_flatMap_wordBytes, List.length_take, Nat.min_eq_left (Nat.le_of_lt h)]
  rw [hbytes]
  exact wordAt_append _ _ hlength (UInt32.toNat_lt _)

theorem size_encode_sub (a : Archive) : a.encode.toArray.size - rootSize = a.body.length := by
  simp [encode, root, rootSize]

/-- The root is read word by word, each between the body and the words before it and those after
it. -/
theorem layout_encode (hsame : a.values.length = a.observed.length) (h : a.IsAddressable) :
    layout a.encode.toArray =
      ⟨0, a.values.length, 4 * a.values.length, a.observed.length⟩ := by
  have hbody := length_body a
  unfold IsAddressable at h
  have hvaluesAt : wordAt a.encode.toArray a.body.length = ofSigned (-a.body.length) := by
    simp only [encode, root, List.append_assoc]
    exact wordAt_append _ _ rfl (ofSigned_lt _)
  have hvalues : wordAt a.encode.toArray (a.body.length + 4) = a.values.length := by
    simp only [encode, root, List.append_assoc]
    rw [← List.append_assoc a.body]
    exact wordAt_append _ _ (by simp) (by omega)
  have hflagsAt : wordAt a.encode.toArray (a.body.length + 8) =
      ofSigned (4 * a.values.length - (a.body.length + 8)) := by
    simp only [encode, root, List.append_assoc]
    rw [← List.append_assoc a.body, ← List.append_assoc (a.body ++ _)]
    exact wordAt_append _ _ (by simp) (ofSigned_lt _)
  have hflags : wordAt a.encode.toArray (a.body.length + 12) = a.observed.length := by
    simp only [encode, root, List.append_assoc]
    rw [← List.append_assoc a.body, ← List.append_assoc (a.body ++ _),
      ← List.append_assoc (a.body ++ _ ++ _), ← List.append_nil (wordBytes a.observed.length)]
    exact wordAt_append _ _ (by simp) (by omega)
  simp only [layout, size_encode_sub, Layout.ofRoot, hvaluesAt, hvalues, hflagsAt, hflags]
  rw [toSigned_ofSigned (by omega) (by omega), toSigned_ofSigned (by omega) (by omega)]
  congr 1 <;> omega

/-- **Round trip**: an archive with as many flags as values is read back from its bytes. -/
theorem decode_encode (hsame : a.values.length = a.observed.length) (h : a.IsAddressable) :
    decode a.encode.toArray = some a := by
  have hbody := length_body a
  have hsize := size_encode_sub a
  have hroot := layout_encode hsame h
  have hflagBytes : (layout a.encode.toArray).flagBytes a.encode.toArray =
      a.observed.map flagByte := by
    rw [hroot]
    simp only [Layout.flagBytes, encode, body, List.append_assoc]
    exact toList_extract_append _ _ _ (length_flatMap_wordBytes _) (List.length_map _)
  refine decode_eq_some_iff.mpr ⟨⟨?_, ?_, ?_, ?_⟩, ?_, hflagBytes⟩
  · simp [encode, root, rootSize]
  · rw [hsize]
    omega
  · rw [hsize, hroot]
    refine ⟨?_, ?_, ?_, ?_⟩ <;> simp only <;> omega
  · intro b hb
    rw [hflagBytes, List.mem_map] at hb
    obtain ⟨flag, _, rfl⟩ := hb
    cases flag
    · exact .inl rfl
    · exact .inr rfl
  · rw [hroot]
    refine List.ext_getElem (by simp) fun i h₁ h₂ => ?_
    have hword := wordAt_flatMap h₁ (a.observed.map flagByte ++ (padding a.observed.length ++
      a.root a.body.length))
    simp only [List.getElem_map, List.getElem_range, Layout.value, Int.toNat_zero, Nat.zero_add]
    simp only [encode, body, List.append_assoc] at hword ⊢
    rw [hword, UInt32.ofNat_toNat]

/-! ## Reading with every position checked -/

/-- A byte of a file.  A position outside the file is an error. -/
def byteIn (bytes : Array UInt8) (i : Nat) : Except Nat UInt8 :=
  if h : i < bytes.size then .ok bytes[i] else .error i

def bytesIn (bytes : Array UInt8) (start count : Nat) : Except Nat (List UInt8) :=
  (List.range' start count).mapM (byteIn bytes)

def wordIn (bytes : Array UInt8) (position : Nat) : Except Nat Nat :=
  return ofWordBytes (← bytesIn bytes position 4)

/-- The regions that the root at a position names. -/
def layoutIn (bytes : Array UInt8) (position : Nat) : Except Nat Layout :=
  return {
    valuesAt := position + toSigned (← wordIn bytes position)
    values := ← wordIn bytes (position + 4)
    flagsAt := position + 8 + toSigned (← wordIn bytes (position + 8))
    flags := ← wordIn bytes (position + 12) }

/-- `decode` on a file whose bytes can only be had through `byteIn`. -/
def decodeIn (bytes : Array UInt8) : Except Nat (Option Archive) := do
  let root := bytes.size - rootSize
  if bytes.size < rootSize then return none
  let l ← layoutIn bytes root
  if root % 4 = 0 ∧ l.Fits root then
    let values ← (List.range l.values).mapM fun i =>
      return (⟨UInt32.ofNat (← wordIn bytes (l.valuesAt.toNat + 4 * i))⟩ : Single)
    let flags ← bytesIn bytes l.flagsAt.toNat l.flags
    return (flags.mapM flag?).map (⟨values, ·⟩)
  else return none

/-- A loop whose rounds all succeed collects what they return. -/
theorem mapM_ok {ε α β : Type} {f : α → Except ε β} {g : α → β} {l : List α}
    (h : ∀ x ∈ l, f x = .ok (g x)) : l.mapM f = .ok (l.map g) := by
  induction l with
  | nil => rfl
  | cons x l ih =>
    rw [List.mapM_cons, h x List.mem_cons_self, ih fun y hy => h y (List.mem_cons_of_mem x hy)]
    rfl

theorem bytesIn_eq {start count : Nat} (h : start + count ≤ bytes.size) :
    bytesIn bytes start count = .ok (bytes.extract start (start + count)).toList := by
  have hbyte (i : Nat) (hi : i ∈ List.range' start count) :
      byteIn bytes i = .ok (bytes[i]?.getD 0) := by
    rw [List.mem_range'_1] at hi
    rw [byteIn, dif_pos (by omega), Array.getElem?_eq_getElem (by omega), Option.getD_some]
  rw [bytesIn, mapM_ok hbyte]
  refine congrArg Except.ok (List.ext_getElem (by simp; omega) fun i h₁ h₂ => ?_)
  have hi : i < count := by simpa using h₁
  simp [Array.getElem?_eq_getElem (show start + i < bytes.size by omega)]

theorem wordIn_eq {position : Nat} (h : position + 4 ≤ bytes.size) :
    wordIn bytes position = .ok (wordAt bytes position) := by
  rw [wordIn, bytesIn_eq h]
  rfl

theorem layoutIn_eq {position : Nat} (h : position + rootSize ≤ bytes.size) :
    layoutIn bytes position = .ok (Layout.ofRoot bytes position) := by
  simp only [rootSize] at h
  rw [layoutIn, wordIn_eq (by omega), wordIn_eq (by omega), wordIn_eq (by omega),
    wordIn_eq (by omega)]
  rfl

/-- **No byte outside the file is looked at**: a reader that would fail there reads every file as
`decode` does. -/
theorem decodeIn_eq (bytes : Array UInt8) : decodeIn bytes = .ok (decode bytes) := by
  unfold decodeIn decode
  by_cases hsize : bytes.size < rootSize
  · rw [if_pos hsize, if_neg fun h => Nat.not_le_of_lt hsize h.1]
    rfl
  · have hle : rootSize ≤ bytes.size := Nat.le_of_not_lt hsize
    rw [if_neg hsize, layoutIn_eq (by omega), except_bind_ok]
    simp only [hle, true_and]
    split
    · next h =>
      obtain ⟨-, hstart, -, horder, hend⟩ := h
      have hvalues : ∀ i ∈ List.range (layout bytes).values,
          (return (⟨UInt32.ofNat (← wordIn bytes ((layout bytes).valuesAt.toNat + 4 * i))⟩ : Single) :
            Except Nat Single) = .ok ((layout bytes).value bytes i) := by
        intro i hi
        rw [List.mem_range] at hi
        simp only [layout] at hi ⊢
        rw [wordIn_eq (by omega)]
        rfl
      rw [bytesIn_eq (by omega)]
      exact congrArg (· >>= _) (mapM_ok hvalues)
    · rfl

end Archive

end HingeLoss

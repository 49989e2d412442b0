import HingeLoss.Proofs.Record.Writing
import HingeLoss.Proofs.Rule.Registration

/-!
# HingeLoss.Proofs.Record.Canonical

Only records are read as terms.

`Took r r' bs` says that a reader has come from `r` to `r'` by taking `bs`.  The lemmas of this
module go from a reading that has succeeded to the bytes that it took, and they are layered like the
round trip: fields first, then the header and the entries.  They end in `took_decode`, the converse
of `reads_decode`: what a term has been read from is the record of that term.  So bytes are read as
a term exactly if writing the term produces them.
-/

namespace HingeLoss

namespace Record

/-! ## Big-endian numbers -/

theorem byteRange_pos (w : Nat) : 0 < byteRange w := by
  induction w with
  | zero => decide
  | succ w ih =>
    rw [byteRange]
    omega

/-- The first bytes of a list count in multiples of the range of the others. -/
theorem foldl_bytes (bs : List UInt8) (acc : Nat) :
    bs.foldl (fun n b => 256 * n + b.toNat) acc = byteRange bs.length * acc + ofBigEndian bs := by
  induction bs generalizing acc with
  | nil => simp [ofBigEndian, byteRange]
  | cons b bs ih =>
    have hzero := ih (256 * 0 + b.toNat)
    rw [ofBigEndian, List.foldl_cons, List.foldl_cons, ih, hzero, List.length_cons, byteRange,
      Nat.mul_assoc, Nat.mul_left_comm 256, Nat.mul_zero, Nat.zero_add, Nat.mul_add, Nat.add_assoc]

theorem ofBigEndian_cons (b : UInt8) (bs : List UInt8) :
    ofBigEndian (b :: bs) = byteRange bs.length * b.toNat + ofBigEndian bs := by
  rw [ofBigEndian, List.foldl_cons, foldl_bytes, Nat.mul_zero, Nat.zero_add]

theorem ofBigEndian_lt (bs : List UInt8) : ofBigEndian bs < byteRange bs.length := by
  induction bs with
  | nil => decide
  | cons b bs ih =>
    have hb := b.toNat_lt
    have hle : byteRange bs.length * (b.toNat + 1) ≤ byteRange bs.length * 256 :=
      Nat.mul_le_mul_left _ (by omega)
    rw [ofBigEndian_cons, List.length_cons, byteRange, Nat.mul_comm 256]
    rw [Nat.mul_add, Nat.mul_one] at hle
    omega

/-- Multiples of the range do not show in the low bytes. -/
theorem toBigEndian_mul_add (w m n : Nat) :
    toBigEndian w (byteRange w * m + n) = toBigEndian w n := by
  induction w generalizing m with
  | zero => rfl
  | succ w ih =>
    have hrange : byteRange (w + 1) * m = byteRange w * (256 * m) := by
      rw [byteRange, ← Nat.mul_assoc, Nat.mul_comm 256]
    have hhead : UInt8.ofNat ((byteRange w * (256 * m) + n) / byteRange w) =
        UInt8.ofNat (n / byteRange w) := by
      rw [Nat.mul_add_div (byteRange_pos w)]
      apply UInt8.toNat_inj.mp
      rw [UInt8.toNat_ofNat', UInt8.toNat_ofNat']
      omega
    rw [toBigEndian, toBigEndian, hrange, hhead, ih]

/-- Writing the number of some bytes gives these bytes. -/
theorem toBigEndian_ofBigEndian (bs : List UInt8) :
    toBigEndian bs.length (ofBigEndian bs) = bs := by
  induction bs with
  | nil => rfl
  | cons b bs ih =>
    have hhead : ofBigEndian (b :: bs) / byteRange bs.length = b.toNat := by
      rw [ofBigEndian_cons, Nat.mul_add_div (byteRange_pos _), Nat.div_eq_of_lt (ofBigEndian_lt bs),
        Nat.add_zero]
    rw [List.length_cons, toBigEndian, hhead, UInt8.ofNat_toNat, ofBigEndian_cons,
      toBigEndian_mul_add, ih]

/-! ## What has been taken -/

/-- A reader comes from `r` to `r'` by taking `bs`. -/
structure Took (r r' : Reader) (bs : List UInt8) : Prop where
  bytes_eq : r'.bytes = r.bytes
  rest_eq : r.rest = bs ++ r'.rest

namespace Took

variable {r r₁ r' : Reader} {bs cs : List UInt8}

theorem trans (h : Took r r₁ bs) (h' : Took r₁ r' cs) : Took r r' (bs ++ cs) where
  bytes_eq := h'.bytes_eq.trans h.bytes_eq
  rest_eq := by rw [h.rest_eq, h'.rest_eq, List.append_assoc]

theorem position_eq (h : Took r r' bs) : r'.position = r.position + bs.length :=
  position_eq_add h.bytes_eq h.rest_eq

/-- The bytes that are taken are those between the two positions. -/
theorem iff_extract : Took r r' bs ↔ r'.bytes = r.bytes ∧ r.position ≤ r'.position ∧
    (r.bytes.extract r.position r'.position).toList = bs := by
  have hextract : (r.bytes.extract r.position r'.position).toList =
      r.rest.take (r'.position - r.position) := by
    rw [Array.toList_extract, List.extract_eq_take_drop]
    rfl
  rw [hextract]
  constructor
  · intro h
    have hposition := h.position_eq
    refine ⟨h.bytes_eq, by omega, ?_⟩
    rw [h.rest_eq]
    exact List.take_left' (by omega)
  · rintro ⟨hbytes, hle, hbs⟩
    have hdrop : r'.rest = r.rest.drop (r'.position - r.position) := by
      rw [Reader.rest, Reader.rest, hbytes, List.drop_drop, Nat.add_sub_cancel' hle]
    exact ⟨hbytes, by rw [hdrop, ← hbs, List.take_append_drop]⟩

end Took

/-! ## Fields -/

theorem took_getBytes {n : Nat} {r r' : Reader} {bs : List UInt8} (h : getBytes n r = .ok bs r') :
    Took r r' bs ∧ bs.length = n := by
  obtain ⟨bytes, position, hle⟩ := r
  simp only [getBytes] at h
  split at h
  · next hfits =>
    injection h with hbs hr'
    have hlen : bs.length = n := by
      rw [← hbs, Array.length_toList, Array.size_extract]
      omega
    subst hr'
    refine ⟨Took.iff_extract.mpr ⟨rfl, ?_, hbs⟩, hlen⟩
    exact Nat.le_add_right position n
  · contradiction

theorem took_getNumber {w n : Nat} {r r' : Reader} (h : getNumber w r = .ok n r') :
    Took r r' (toBigEndian w n) ∧ n < byteRange w := by
  obtain ⟨bs, r₁, hbytes, hpure⟩ := bind_eq_ok h
  obtain ⟨htook, rfl⟩ := took_getBytes hbytes
  cases hpure
  rw [toBigEndian_ofBigEndian]
  exact ⟨htook, ofBigEndian_lt bs⟩

/-- A value that is read as a number, and stands for it, has taken its bytes. -/
theorem took_number {α : Type} {w : Nat} {f : Nat → α} (toNat : α → Nat) {r r' : Reader} {a : α}
    (h : (do return f (← getNumber w) : ReadM α) r = .ok a r')
    (hf : ∀ n < byteRange w, toNat (f n) = n) : Took r r' (toBigEndian w (toNat a)) := by
  obtain ⟨n, r₁, hnumber, hpure⟩ := bind_eq_ok h
  obtain ⟨htook, hlt⟩ := took_getNumber hnumber
  cases hpure
  rw [hf n hlt]
  exact htook

variable {r r' : Reader}

theorem took_getByte {b : UInt8} (h : getByte r = .ok b r') : Took r r' (Field.byte b).bytes :=
  took_number UInt8.toNat h fun _ hn => UInt8.toNat_ofNat_of_lt' hn

theorem took_getShort {x : UInt16} (h : getShort r = .ok x r') : Took r r' (Field.short x).bytes :=
  took_number UInt16.toNat h fun _ hn => UInt16.toNat_ofNat_of_lt' hn

theorem took_getWord {x : UInt32} (h : getWord r = .ok x r') : Took r r' (Field.word x).bytes :=
  took_number UInt32.toNat h fun _ hn => UInt32.toNat_ofNat_of_lt' hn

theorem took_getSigned {x : Int32} (h : getSigned r = .ok x r') :
    Took r r' (Field.signed x).bytes := by
  obtain ⟨word, r₁, hword, hpure⟩ := bind_eq_ok h
  cases hpure
  have htook := took_getWord hword
  simpa [Field.bytes, Field.kind, Field.toNat, FieldKind.width] using htook

theorem took_getSingle {x : Single} (h : getSingle r = .ok x r') :
    Took r r' (Field.single x).bytes := by
  obtain ⟨word, r₁, hword, hpure⟩ := bind_eq_ok h
  cases hpure
  exact took_getWord hword

/-! ## Headers and entries -/

/-- A flag is one of two bytes. -/
theorem took_getFlag {b : Bool} (h : getFlag r = .ok b r') :
    Took r r' (Field.byte (Term.flagByte b)).bytes := by
  obtain ⟨offset, r₁, hposition, h⟩ := bind_eq_ok h
  cases hposition
  obtain ⟨byte, r₂, hbyte, h⟩ := bind_eq_ok h
  have htook := took_getByte hbyte
  split at h
  · cases h
    exact htook
  · cases h
    exact htook
  · contradiction

/-- What a header has been read from is its bytes.  Its rule is one of the registry, its size is not
too great, and the bytes of its entries are there. -/
theorem took_getHeader {rules : Registry} (hrules : rules.IsNumbered) {h : Header}
    (hread : getHeader rules r = .ok h r') :
    Took r r' (headerBytes h) ∧ h.rule ∈ rules.rules ∧ h.size ≤ Term.maxSize := by
  unfold getHeader at hread
  obtain ⟨start, r₀, hposition, hread⟩ := bind_eq_ok hread
  cases hposition
  obtain ⟨squared, r₁, hsquared, hread⟩ := bind_eq_ok hread
  obtain ⟨hinge, r₂, hhinge, hread⟩ := bind_eq_ok hread
  obtain ⟨word, r₃, hword, hread⟩ := bind_eq_ok hread
  cases hresolve : rules.resolve ⟨word⟩ with
  | error e =>
    simp only [hresolve] at hread
    contradiction
  | ok rule =>
    simp only [hresolve] at hread
    obtain ⟨_, r₄, hrule, hread⟩ := bind_eq_ok hread
    cases hrule
    obtain ⟨constant, r₅, hconstant, hread⟩ := bind_eq_ok hread
    obtain ⟨short, r₆, hshort, hread⟩ := bind_eq_ok hread
    split at hread
    · contradiction
    · next hsize =>
      obtain ⟨_, r₇, hget, hread⟩ := bind_eq_ok hread
      cases hget
      split at hread
      · contradiction
      · cases hread
        obtain ⟨hmem, hid⟩ := hrules.get?_eq_some_iff.mp (Registry.resolve_eq_ok_iff.mp hresolve)
        have hword := took_getWord hword
        have htook := (took_getFlag hsquared).trans ((took_getFlag hhinge).trans
          (hword.trans ((took_getSingle hconstant).trans (took_getShort hshort))))
        have hbytes : headerBytes ⟨.ofFlags squared hinge, rule, constant, short.toNat⟩ =
            (Field.byte (Term.flagByte squared)).bytes ++
              ((Field.byte (Term.flagByte hinge)).bytes ++ ((Field.word word).bytes ++
                ((Field.single constant).bytes ++ (Field.short short).bytes))) := by
          simp only [headerBytes, Potential.isSquared_ofFlags, Potential.isHinge_ofFlags, hid,
            UInt16.ofNat_toNat]
        rw [hbytes]
        exact ⟨htook, hmem, Nat.le_of_not_lt hsize⟩

/-- A signed word that stands for a variable is the one that is written for it, and variables that
are read are below `2 ^ 31`. -/
theorem ofSigned?_eq_some {raw : Int32} {v : Variable} (h : Variable.ofSigned? raw = some v) :
    v.toSigned = raw ∧ v.toNat < 0x80000000 := by
  unfold Variable.ofSigned? at h
  split at h
  · contradiction
  · next hpos =>
    cases h
    constructor
    · exact Int32.toInt32_toUInt32 raw
    · rw [Int32.lt_iff_toInt_lt, Int32.toInt_zero, ← Int32.toInt_toBitVec,
        BitVec.toInt_eq_toNat_cond] at hpos
      have hlt := raw.toBitVec.isLt
      change raw.toBitVec.toNat < 0x80000000
      split at hpos <;> omega

/-- What entries have been read from is their bytes. -/
theorem took_getEntries {n : Nat} {acc es : Array (Entry Single)}
    (h : getEntries n acc r = .ok es r') :
    ∃ new : List (Entry Single), es = acc ++ new.toArray ∧ new.length = n ∧
      Took r r' ((new.flatMap Term.entryFields).flatMap Field.bytes) ∧
      ∀ e ∈ new, e.var.toNat < 0x80000000 := by
  induction n generalizing acc r with
  | zero =>
    cases h
    exact ⟨[], by simp, rfl, ⟨rfl, rfl⟩, by simp⟩
  | succ n ih =>
    unfold getEntries at h
    obtain ⟨coefficient, r₁, hcoefficient, h⟩ := bind_eq_ok h
    obtain ⟨offset, r₂, hposition, h⟩ := bind_eq_ok h
    cases hposition
    obtain ⟨raw, r₃, hraw, h⟩ := bind_eq_ok h
    cases hv : Variable.ofSigned? raw with
    | none =>
      simp only [hv] at h
      contradiction
    | some v =>
      simp only [hv] at h
      obtain ⟨hsigned, hlt⟩ := ofSigned?_eq_some hv
      obtain ⟨new, hes, hlen, htook, hvars⟩ := ih h
      have hentry := (took_getSingle hcoefficient).trans ((took_getSigned hraw).trans htook)
      rw [← hsigned] at hentry
      refine ⟨⟨coefficient, v⟩ :: new, by rw [hes]; simp, by rw [List.length_cons, hlen], ?_, ?_⟩
      · simpa [Term.entryFields] using hentry
      · intro e he
        rw [List.mem_cons] at he
        cases he with
        | inl he => rw [he]; exact hlt
        | inr he => exact hvars e he

/-! ## Records -/

/-- **Only records are read**: what a term has been read from is its record, and a record can hold
the term. -/
theorem took_decode {rules : Registry} (hrules : rules.IsNumbered) {t : Term Single}
    (h : Term.decode rules r = .ok t r') : Took r r' t.record ∧ t.IsRecordable rules := by
  obtain ⟨header, r₁, hheader, h⟩ := bind_eq_ok h
  obtain ⟨entries, r₂, hentries, h⟩ := bind_eq_ok h
  cases h
  obtain ⟨htook, hmem, hsize⟩ := took_getHeader hrules hheader
  obtain ⟨new, hnew, hlen, htook', hvars⟩ := took_getEntries hentries
  have hes : entries.toList = new := by simp [hnew]
  have hsame : (⟨header.rule, header.potential, header.constant, entries⟩ : Term Single).header =
      header := by
    simp only [Term.header, Term.size, ← Array.length_toList, hes, hlen]
  constructor
  · rw [Term.record_eq, hsame, hes]
    exact htook.trans htook'
  · constructor
    · exact Registry.owns_iff.mpr (hrules.get?_eq_some_iff.mpr ⟨hmem, rfl⟩)
    · simpa only [Term.size, ← Array.length_toList, hes, hlen] using hsize
    · simpa only [hes] using hvars

/-- A reader that takes the same bytes comes to the same place. -/
theorem Took.unique {r₁ r₂ : Reader} {bs : List UInt8} (h₁ : Took r r₁ bs) (h₂ : Took r r₂ bs) :
    r₁ = r₂ := by
  have hbytes := h₁.bytes_eq.trans h₂.bytes_eq.symm
  have hposition := h₁.position_eq.trans h₂.position_eq.symm
  cases r₁
  cases r₂
  cases hbytes
  cases hposition
  rfl

/-- A term is read exactly where its record stands, if a record can hold it. -/
theorem decode_eq_ok_iff_took {rules : Registry} (hrules : rules.IsNumbered) {t : Term Single} :
    Term.decode rules r = .ok t r' ↔ Took r r' t.record ∧ t.IsRecordable rules := by
  constructor
  · exact took_decode hrules
  · rintro ⟨htook, hrecordable⟩
    obtain ⟨r₁, hread, hbytes, hrest⟩ := Term.reads_decode hrecordable r r'.rest htook.rest_eq
    have htook₁ : Took r r₁ t.record := ⟨hbytes, by rw [hrest]; exact htook.rest_eq⟩
    rw [hread, htook₁.unique htook]

/-- Writing a term produces its record and nothing else. -/
theorem writes_write_iff {t : Term Single} {bs : List UInt8} :
    Writes t.write bs ↔ bs = t.record := by
  constructor
  · intro h
    exact h.unique (writes_write t)
  · rintro rfl
    exact writes_write t

/-- **Records are canonical.**  With a registry that registration has made, a term is read up to
some place exactly if writing it produces the bytes up to there, its rule has been registered, it
has no more entries than a term may have, and its variables are signed words.  So no two sequences
of bytes are read as the same term. -/
theorem decode_eq_ok_iff {rules : Registry} (hrules : rules.IsBuilt) :
    (∀ (r r' : Reader) (t : Term Single), Term.decode rules r = .ok t r' ↔
      r'.bytes = r.bytes ∧ r.position ≤ r'.position ∧
        Writes t.write (r.bytes.extract r.position r'.position).toList ∧
        t.rule ∈ rules.rules ∧ t.size ≤ Term.maxSize ∧ ∀ v ∈ t.vars, v.toNat ≤ 0x7fffffff) ∧
      ∀ (r₁ r₁' r₂ r₂' : Reader) (t : Term Single),
        Term.decode rules r₁ = .ok t r₁' → Term.decode rules r₂ = .ok t r₂' →
          r₁.bytes.extract r₁.position r₁'.position =
            r₂.bytes.extract r₂.position r₂'.position := by
  have hnumbered := hrules.isNumbered
  constructor
  · intro r r' t
    have hrecordable : t.IsRecordable rules ↔
        t.rule ∈ rules.rules ∧ t.size ≤ Term.maxSize ∧ ∀ v ∈ t.vars, v.toNat ≤ 0x7fffffff := by
      have hvars : (∀ e ∈ t.entries.toList, e.var.toNat < 0x80000000) ↔
          ∀ v ∈ t.vars, v.toNat ≤ 0x7fffffff := by
        simp only [Term.vars, List.forall_mem_map]
        exact forall₂_congr fun e _ => by omega
      have howned : rules.owns t.rule = true ↔ t.rule ∈ rules.rules := by
        rw [Registry.owns_iff, hnumbered.get?_eq_some_iff, and_iff_left rfl]
      constructor
      · intro h
        exact ⟨howned.mp h.owned, h.size_le, hvars.mp h.var_lt⟩
      · rintro ⟨hmem, hsize, hlt⟩
        exact ⟨howned.mpr hmem, hsize, hvars.mpr hlt⟩
    rw [decode_eq_ok_iff_took hnumbered, Took.iff_extract, hrecordable, writes_write_iff]
    simp only [and_assoc]
  · intro r₁ r₁' r₂ r₂' t h₁ h₂
    have hbytes₁ := (Took.iff_extract.mp (took_decode hnumbered h₁).1).2.2
    have hbytes₂ := (Took.iff_extract.mp (took_decode hnumbered h₂).1).2.2
    exact Array.toList_inj.mp (hbytes₁.trans hbytes₂.symm)

/-- A record of two entries between other bytes is read from its place. -/
theorem decode_eq_ok_between :
    sampleRules.IsBuilt ∧ oddTerm.size = 2 ∧
      Term.decode sampleRules ⟨#[1, 1] ++ oddTerm.record.toArray ++ #[0], 2, by decide⟩ =
        .ok oddTerm ⟨#[1, 1] ++ oddTerm.record.toArray ++ #[0], 30, by decide⟩ := by
  have hbytes : ((#[1, 1] ++ oddTerm.record.toArray ++ #[0]).extract 2 30).toList =
      oddTerm.record := by
    decide
  have hwrites : Writes oddTerm.write
      ((#[1, 1] ++ oddTerm.record.toArray ++ #[0]).extract 2 30).toList := by
    rw [hbytes]
    exact writes_write oddTerm
  have hvars : ∀ v ∈ oddTerm.vars, v.toNat ≤ 0x7fffffff := by decide
  exact ⟨sampleRules_isBuilt, rfl, ((decode_eq_ok_iff sampleRules_isBuilt).1 _ _ _).mpr
    ⟨rfl, by decide, hwrites, by simp [sampleRules, oddTerm], by decide, hvars⟩⟩

end Record

end HingeLoss

import HingeLoss.Proofs.Program
import HingeLoss.Record.Term

/-!
# HingeLoss.Proofs.Record.RoundTrip

Records are read back as the terms they were written for, whatever bytes follow them.

`Reads x bs a` says that a reader `x` that finds `bs` before it takes exactly these bytes and
returns `a`.  The statement carries the bytes that follow, so readings compose: there is one lemma
for each kind of field, one for the header, and one for the entries, and `reads_decode` puts them
together.  The header looks at the number of bytes behind it, which is why its lemma asks for enough
of them.
-/

namespace HingeLoss

namespace Record

/-! ## Readings -/

/-- From a reader that has `bs` before it, `x` takes exactly these bytes and returns `a`. -/
def Reads {α : Type} (x : ReadM α) (bs : List UInt8) (a : α) : Prop :=
  ∀ (r : Reader) (tail : List UInt8), r.rest = bs ++ tail →
    ∃ r', x r = .ok a r' ∧ r'.bytes = r.bytes ∧ r'.rest = tail

/-- The bytes after a cursor are as many as remain. -/
@[simp] theorem length_rest (r : Reader) : r.rest.length = r.remaining := by
  simp [Reader.rest, Reader.remaining]

namespace Reads

variable {α β : Type} {x : ReadM α} {bs cs : List UInt8} {a : α} {b : β}

theorem pure (a : α) : Reads (pure a) [] a :=
  fun r _ h => ⟨r, rfl, rfl, h⟩

theorem bind {f : α → ReadM β} (hx : Reads x bs a) (hf : Reads (f a) cs b) :
    Reads (x >>= f) (bs ++ cs) b := by
  intro r tail h
  rw [List.append_assoc] at h
  obtain ⟨r₁, hx, hb₁, h₁⟩ := hx r _ h
  obtain ⟨r₂, hf, hb₂, h₂⟩ := hf r₁ tail h₁
  exact ⟨r₂, by rw [bind_ok hx, hf], hb₂.trans hb₁, h₂⟩

/-- What only returns something after reading takes the same bytes. -/
theorem bind_pure {f : α → ReadM β} (hx : Reads x bs a) (hf : f a = Pure.pure b) :
    Reads (x >>= f) bs b := by
  have h : Reads (x >>= f) (bs ++ []) b := hx.bind (hf ▸ pure b)
  rwa [List.append_nil] at h

/-- A function of what is read takes the same bytes. -/
theorem map {f : α → β} (hx : Reads x bs a) : Reads (do return f (← x)) bs (f a) :=
  hx.bind_pure rfl

/-- What looks at the position only reads what the rest of it reads. -/
theorem position {f : Nat → ReadM β} (hf : ∀ p, Reads (f p) bs b) :
    Reads (Record.position >>= f) bs b := fun r tail h => hf r.position r tail h

end Reads

/-! ## Fields -/

theorem reads_getBytes (bs : List UInt8) : Reads (getBytes bs.length) bs bs := by
  rintro ⟨bytes, position, hle⟩ tail h
  simp only [Reader.rest] at h
  have hlen : bs.length + tail.length = bytes.size - position := by
    have := congrArg List.length h
    simp at this
    omega
  have hfits : bs.length ≤ bytes.size - position := by omega
  refine ⟨⟨bytes, position + bs.length, by omega⟩, ?_, rfl, ?_⟩
  · have htake : (bytes.extract position (position + bs.length)).toList = bs := by
      rw [Array.toList_extract, List.extract_eq_take_drop, h, Nat.add_sub_cancel_left,
        List.take_left]
    simp only [getBytes, hfits, htake, dite_true]
  · simp only [Reader.rest]
    rw [← List.drop_drop, h, List.drop_left]

theorem reads_getNumber {w n : Nat} (h : n < byteRange w) :
    Reads (getNumber w) (toBigEndian w n) n := by
  have hbytes := (reads_getBytes (toBigEndian w n)).map (f := ofBigEndian)
  rw [length_toBigEndian, ofBigEndian_toBigEndian h] at hbytes
  exact hbytes

theorem reads_getByte (b : UInt8) : Reads getByte (Field.byte b).bytes b := by
  have h := (reads_getNumber (w := 1) (n := b.toNat) b.toNat_lt).map (f := UInt8.ofNat)
  rw [UInt8.ofNat_toNat] at h
  exact h

theorem reads_getShort (x : UInt16) : Reads getShort (Field.short x).bytes x := by
  have h := (reads_getNumber (w := 2) (n := x.toNat) x.toNat_lt).map (f := UInt16.ofNat)
  rw [UInt16.ofNat_toNat] at h
  exact h

theorem reads_getWord (x : UInt32) : Reads getWord (Field.word x).bytes x := by
  have h := (reads_getNumber (w := 4) (n := x.toNat) x.toNat_lt).map (f := UInt32.ofNat)
  rw [UInt32.ofNat_toNat] at h
  exact h

theorem reads_getSigned (x : Int32) : Reads getSigned (Field.signed x).bytes x := by
  have h := (reads_getWord x.toUInt32).map (f := UInt32.toInt32)
  rw [Int32.toInt32_toUInt32] at h
  exact h

theorem reads_getSingle (x : Single) : Reads getSingle (Field.single x).bytes x :=
  (reads_getWord x.bits).map (f := Single.mk)

/-! ## Headers and entries -/

theorem reads_getFlag (b : Bool) : Reads getFlag (Field.byte (Term.flagByte b)).bytes b := by
  refine Reads.position fun p => ?_
  cases b with
  | false => exact (reads_getByte 0).bind_pure rfl
  | true => exact (reads_getByte 1).bind_pure rfl

def headerBytes (h : Header) : List UInt8 :=
  (Field.byte (Term.flagByte h.potential.isSquared)).bytes ++
    ((Field.byte (Term.flagByte h.potential.isHinge)).bytes ++
      ((Field.word h.rule.id.number).bytes ++
        ((Field.single h.constant).bytes ++ (Field.short (.ofNat h.size)).bytes)))

/-- A header is read back if its rule is one of the registry, its size is not too great, and the
bytes of the entries follow it. -/
theorem getHeader_eq_ok {rules : Registry} {h : Header} {r : Reader} {tail : List UInt8}
    (hrule : rules.owns h.rule = true) (hsize : h.size ≤ Term.maxSize)
    (htail : h.size * Term.entrySize ≤ tail.length) (hr : r.rest = headerBytes h ++ tail) :
    ∃ r', getHeader rules r = .ok h r' ∧ r'.bytes = r.bytes ∧ r'.rest = tail := by
  obtain ⟨potential, rule, constant, size⟩ := h
  simp only [headerBytes, List.append_assoc] at hr hrule hsize htail
  obtain ⟨r₁, h₁, hb₁, hr₁⟩ := reads_getFlag potential.isSquared r _ hr
  obtain ⟨r₂, h₂, hb₂, hr₂⟩ := reads_getFlag potential.isHinge r₁ _ hr₁
  obtain ⟨r₃, h₃, hb₃, hr₃⟩ := reads_getWord rule.id.number r₂ _ hr₂
  obtain ⟨r₄, h₄, hb₄, hr₄⟩ := reads_getSingle constant r₃ _ hr₃
  obtain ⟨r₅, h₅, hb₅, hr₅⟩ := reads_getShort (.ofNat size) r₄ _ hr₄
  have hresolve : rules.resolve rule.id = .ok rule := by
    simp only [Registry.owns, decide_eq_true_eq] at hrule
    simp only [Registry.resolve, hrule]
  have hnat : (UInt16.ofNat size).toNat = size := by
    rw [UInt16.toNat_ofNat']
    refine Nat.mod_eq_of_lt ?_
    simp only [Term.maxSize] at hsize
    omega
  have hleft : ¬ r₅.remaining < size * Term.entrySize := by
    rw [← length_rest, hr₅]
    omega
  refine ⟨r₅, ?_, by rw [hb₅, hb₄, hb₃, hb₂, hb₁], hr₅⟩
  unfold getHeader
  rw [bind_ok (show position r = .ok r.position r from rfl), bind_ok h₁, bind_ok h₂, bind_ok h₃]
  simp only [hresolve]
  rw [bind_ok (pure_apply rule r₃), bind_ok h₄, bind_ok h₅, hnat, if_neg (by omega),
    bind_ok (get_apply r₅), if_neg hleft, Potential.ofFlags_isSquared_isHinge]
  rfl

/-- A variable below `2 ^ 31` is read back from its signed word. -/
theorem ofSigned?_toSigned {v : Variable} (h : v.toNat < 0x80000000) :
    Variable.ofSigned? v.toSigned = some v := by
  have hn : v.index.toNat < 0x80000000 := h
  have hpos : ¬ v.index.toInt32 < 0 := by
    have htoInt : v.index.toInt32.toInt = v.index.toNat :=
      BitVec.toInt_eq_toNat_of_lt (by simpa using show 2 * v.index.toNat < 2 ^ 32 by omega)
    rw [Int32.lt_iff_toInt_lt, htoInt, Int32.toInt_zero]
    omega
  simp only [Variable.ofSigned?, Variable.toSigned, if_neg hpos, UInt32.toUInt32_toInt32]

/-- Entries are read back behind those that are there. -/
theorem reads_getEntries {es : List (Entry Single)} (h : ∀ e ∈ es, e.var.toNat < 0x80000000)
    (acc : Array (Entry Single)) :
    Reads (getEntries es.length acc) ((es.flatMap Term.entryFields).flatMap Field.bytes)
      (acc ++ es.toArray) := by
  induction es generalizing acc with
  | nil => simpa [getEntries] using Reads.pure acc
  | cons e es ih =>
    have hv := ofSigned?_toSigned (h e List.mem_cons_self)
    have hrest := ih (fun e' he' => h e' (List.mem_cons_of_mem _ he')) (acc.push e)
    have hbytes : ((e :: es).flatMap Term.entryFields).flatMap Field.bytes =
        (Field.single e.coefficient).bytes ++ ((Field.signed e.var.toSigned).bytes ++
          (es.flatMap Term.entryFields).flatMap Field.bytes) := by
      simp [Term.entryFields]
    rw [hbytes]
    refine (reads_getSingle e.coefficient).bind (Reads.position fun p => ?_)
    refine (reads_getSigned e.var.toSigned).bind ?_
    simp only [hv]
    simpa using hrest

end Record

/-! ## Records -/

namespace Term

open Record

/-- Whether a record can hold a term for a registry: the rule is one of the registry, the size fits
its field, and all variables are signed words. -/
structure IsRecordable (rules : Registry) (t : Term Single) : Prop where
  /-- The rule is the one that the registry has under its id. -/
  owned : rules.owns t.rule = true
  size_le : t.size ≤ maxSize
  /-- The variables are not negative as signed words. -/
  var_lt : ∀ e ∈ t.entries.toList, e.var.toNat < 0x80000000

def header (t : Term Single) : Header := ⟨t.potential, t.rule, t.constant, t.size⟩

/-- A record is its header and its entries. -/
theorem record_eq (t : Term Single) :
    t.record =
      headerBytes t.header ++ (t.entries.toList.flatMap entryFields).flatMap Field.bytes := by
  simp only [record, fields, headerBytes, header, List.flatMap_append,
    List.flatMap_cons, List.flatMap_nil, List.append_nil, List.append_assoc]

/-- **Round trip**: the record of a term is read back as the term, whatever follows it. -/
theorem reads_decode {rules : Registry} {t : Term Single} (h : t.IsRecordable rules) :
    Reads (decode rules) t.record t := by
  intro r tail hr
  rw [record_eq, List.append_assoc] at hr
  have hlen := length_entryBytes t.entries.toList
  obtain ⟨r₁, h₁, hb₁, hr₁⟩ := getHeader_eq_ok (h := t.header) h.owned h.size_le
    (by simp only [List.length_append, hlen, header, size, Array.length_toList]; omega) hr
  obtain ⟨r₂, h₂, hb₂, hr₂⟩ := reads_getEntries h.var_lt
    (Array.emptyWithCapacity t.size) r₁ tail hr₁
  refine ⟨r₂, ?_, hb₂.trans hb₁, hr₂⟩
  unfold decode
  rw [bind_ok h₁]
  refine (bind_ok (f := fun entries => pure _) h₂).trans ?_
  simp [header]

end Term

/-- The records of terms, one after the other. -/
def records (ts : List (Term Single)) : List UInt8 := ts.flatMap Term.record

@[simp] theorem records_append (ts us : List (Term Single)) :
    records (ts ++ us) = records ts ++ records us := List.flatMap_append

theorem records_flatten (chunks : List (List (Term Single))) :
    records chunks.flatten = (chunks.map records).flatten := by
  induction chunks with
  | nil => rfl
  | cons ts chunks ih =>
    rw [List.flatten_cons, records_append, ih, List.map_cons, List.flatten_cons]

end HingeLoss

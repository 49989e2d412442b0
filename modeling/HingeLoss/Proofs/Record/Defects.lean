import HingeLoss.Proofs.Record.Canonical
import HingeLoss.Proofs.Record.Reuse

/-!
# HingeLoss.Proofs.Record.Defects

Why bytes are not read as a record.

A record is checked in the order of its bytes, and then entry by entry.  `headerChecks` and
`entryChecks` list the checks, each with the fault that is reported where it does not hold and with
the place where the cursor then stands; they are stated on the bytes alone.

1. `Makes x r cs Q` says that a reading `x` makes the checks `cs` in their order: it fails with the
   first one that does not hold, and otherwise it comes to what has `Q`.  Readings in a row make the
   checks of the one and then those of the other, so there is one lemma for each kind of field, one
   for the header, and one for the entries.
2. The last check of the header is that all entries are there.  So the entries make no check of their
   own for missing bytes, and no room is made for entries before their bytes are known to be there.
3. Both together say what is reported of a record that is not read (`decode_eq_error_iff`).
-/

namespace HingeLoss

namespace Record

/-! ## Checks -/

/-- Something that has to hold of a record. -/
structure Check where
  holds : Bool
  /-- What is reported where it does not hold. -/
  fault : Fault
  /-- Where the cursor then stands. -/
  stop : Nat

/-- What is reported of the first check that does not hold, and where the cursor then stands. -/
def firstDefect (cs : List Check) : Option (Fault × Nat) :=
  (cs.find? (!·.holds)).map fun c => (c.fault, c.stop)

/-- The number that the bytes from an offset on stand for. -/
def numberAt (bytes : Array UInt8) (offset width : Nat) : Nat :=
  ofBigEndian (bytes.extract offset (offset + width)).toList

namespace Check

variable (bytes : Array UInt8) (start offset : Nat)

/-- A field is there. -/
def fits (width : Nat) : Check :=
  ⟨offset + width ≤ bytes.size, .corruptRecord offset (.short width (bytes.size - offset)), offset⟩

/-- A byte is zero or one. -/
def isFlag : Check :=
  let byte := UInt8.ofNat (numberAt bytes offset 1)
  ⟨byte = 0 ∨ byte = 1, .corruptRecord offset (.flag byte), offset + 1⟩

/-- A word is the id of a rule. -/
def isKnown (rules : Registry) : Check :=
  let id := RuleId.ofNat (numberAt bytes offset 4)
  ⟨(rules.get? id).isSome, .unknownRule id, offset + 4⟩

/-- The number of entries is not too great. -/
def isSmall : Check :=
  let size := numberAt bytes (start + 10) 2
  ⟨size ≤ Term.maxSize, .corruptRecord start (.oversized size), start + Term.headerSize⟩

/-- The bytes of the entries are there. -/
def isBacked : Check :=
  let size := numberAt bytes (start + 10) 2
  let left := bytes.size - (start + Term.headerSize)
  ⟨size * Term.entrySize ≤ left, .corruptRecord start (.missingEntries size left),
    start + Term.headerSize⟩

/-- A signed word stands for a variable. -/
def isVariable : Check :=
  let raw := (UInt32.ofNat (numberAt bytes offset 4)).toInt32
  ⟨¬ raw < 0, .corruptRecord offset (.negativeVariable raw), offset + 4⟩

end Check

/-- What has to hold of the header of a record, in order. -/
def headerChecks (rules : Registry) (bytes : Array UInt8) (start : Nat) : List Check :=
  [.fits bytes start 1, .isFlag bytes start,
   .fits bytes (start + 1) 1, .isFlag bytes (start + 1),
   .fits bytes (start + 2) 4, .isKnown bytes (start + 2) rules,
   .fits bytes (start + 6) 4,
   .fits bytes (start + 10) 2,
   .isSmall bytes start, .isBacked bytes start]

/-- What has to hold of so many entries, in order. -/
def variableChecks (bytes : Array UInt8) (start size : Nat) : List Check :=
  (List.range size).map fun i => .isVariable bytes (start + i * Term.entrySize + 4)

/-- What has to hold of the entries of a record whose header is in order. -/
def entryChecks (bytes : Array UInt8) (start : Nat) : List Check :=
  variableChecks bytes (start + Term.headerSize) (numberAt bytes (start + 10) 2)

theorem firstDefect_eq_none {cs : List Check} (h : ∀ c ∈ cs, c.holds = true) :
    firstDefect cs = none := by
  have hnone : cs.find? (!·.holds) = none := by
    rw [List.find?_eq_none]
    intro c hc
    simp [h c hc]
  rw [firstDefect, hnone]
  rfl

theorem firstDefect_cons {c : Check} {cs : List Check} (h : c.holds = false) :
    firstDefect (c :: cs) = some (c.fault, c.stop) := by
  simp only [firstDefect, List.find?_cons, h, Bool.not_false, Option.map_some]

theorem firstDefect_append (cs ds : List Check) :
    firstDefect (cs ++ ds) = (firstDefect cs).or (firstDefect ds) := by
  simp only [firstDefect, List.find?_append, Option.map_or]

/-! ## Making checks -/

/-- From a reader, a reading fails with the first of the checks that does not hold, and otherwise
comes to what has `Q`. -/
def Makes {α : Type} (x : ReadM α) (r : Reader) (cs : List Check) (Q : α → Reader → Prop) : Prop :=
  match x r with
  | .ok a r' => r'.bytes = r.bytes ∧ (∀ c ∈ cs, c.holds = true) ∧ Q a r'
  | .error e r' => r'.bytes = r.bytes ∧ firstDefect cs = some (e, r'.position)

namespace Makes

variable {α β : Type} {x : ReadM α} {r : Reader} {cs ds : List Check} {Q : α → Reader → Prop}
  {P : β → Reader → Prop}

theorem pure {a : α} (hcs : ∀ c ∈ cs, c.holds = true) (hQ : Q a r) : Makes (pure a) r cs Q :=
  ⟨rfl, hcs, hQ⟩

theorem throw {e : Fault} (h : firstDefect cs = some (e, r.position)) : Makes (throw e) r cs Q :=
  ⟨rfl, h⟩

theorem bind {f : α → ReadM β} (hx : Makes x r cs Q)
    (hf : ∀ a r', r'.bytes = r.bytes → Q a r' → Makes (f a) r' ds P) :
    Makes (x >>= f) r (cs ++ ds) P := by
  unfold Makes at hx ⊢
  cases hrun : x r with
  | error e r₁ =>
    rw [hrun] at hx
    rw [bind_error hrun, firstDefect_append, hx.2]
    exact ⟨hx.1, rfl⟩
  | ok a r₁ =>
    rw [hrun] at hx
    obtain ⟨hbytes, hcs, hQ⟩ := hx
    have hrest := hf a r₁ hbytes hQ
    unfold Makes at hrest
    rw [bind_ok hrun, firstDefect_append, firstDefect_eq_none hcs]
    cases hrun' : f a r₁ with
    | error e r₂ =>
      rw [hrun'] at hrest
      exact ⟨hrest.1.trans hbytes, hrest.2⟩
    | ok b r₂ =>
      rw [hrun'] at hrest
      refine ⟨hrest.1.trans hbytes, fun c hc => ?_, hrest.2.2⟩
      cases List.mem_append.mp hc with
      | inl hc => exact hcs c hc
      | inr hc => exact hrest.2.1 c hc

theorem mono {Q' : α → Reader → Prop} (hx : Makes x r cs Q) (hQ : ∀ a r', Q a r' → Q' a r') :
    Makes x r cs Q' := by
  unfold Makes at hx ⊢
  cases hrun : x r with
  | error e r₁ =>
    rw [hrun] at hx
    exact hx
  | ok a r₁ =>
    rw [hrun] at hx
    exact ⟨hx.1, hx.2.1, hQ a r₁ hx.2.2⟩

/-- What is made of a result makes the same checks. -/
theorem map {f : α → β} (hx : Makes x r cs Q) (hP : ∀ a r', Q a r' → P (f a) r') :
    Makes (do return f (← x)) r cs P := by
  rw [← List.append_nil cs]
  exact hx.bind fun a r' _ hQ => pure (by simp) (hP a r' hQ)

/-- A look at the position makes no check. -/
theorem position {f : Nat → ReadM β} (hf : Makes (f r.position) r cs P) :
    Makes (Record.position >>= f) r cs P := hf

/-- A check that holds can be put before the others. -/
theorem cons {c : Check} (hc : c.holds = true) (hx : Makes x r ds Q) : Makes x r (c :: ds) Q := by
  have hcheck : Makes (Pure.pure ()) r [c] fun _ r' => r' = r :=
    pure (by simp [hc]) rfl
  exact hcheck.bind fun _ r' _ hr' => hr' ▸ hx

/-- A reading that stops where something is the case checks that it is not. -/
theorem guarded {p : Prop} [Decidable p] {c : Check} {e : Fault} {f : α → ReadM β} {y : ReadM β}
    (hholds : c.holds = true ↔ ¬ p) (hfault : c.fault = e) (hstop : c.stop = r.position)
    (hy : ¬ p → Makes y r ds P) :
    Makes (if p then MonadExcept.throw e >>= f else y) r (c :: ds) P := by
  by_cases hp : p
  · have hfails : ¬ c.holds = true := fun hc => hholds.mp hc hp
    rw [if_pos hp]
    refine ⟨rfl, ?_⟩
    rw [firstDefect_cons (Bool.eq_false_iff.mpr hfails), hfault, hstop]
  · rw [if_neg hp]
    exact (hy hp).cons (hholds.mpr hp)

/-- Checks that hold need not be made. -/
theorem of_holds (hx : Makes x r cs Q) (hcs : ∀ c ∈ cs, c.holds = true) : Makes x r [] Q := by
  unfold Makes at hx ⊢
  cases hrun : x r with
  | error e r₁ =>
    rw [hrun, firstDefect_eq_none hcs] at hx
    nomatch hx.2
  | ok a r₁ =>
    rw [hrun] at hx
    exact ⟨hx.1, by simp, hx.2.2⟩

theorem eq_error_iff (hx : Makes x r cs Q) {e : Fault} {r' : Reader} :
    x r = .error e r' ↔ r'.bytes = r.bytes ∧ firstDefect cs = some (e, r'.position) := by
  unfold Makes at hx
  cases hrun : x r with
  | error e₁ r₁ =>
    rw [hrun] at hx
    rw [hx.2]
    constructor
    · intro h
      injection h with he hr
      exact ⟨hr ▸ hx.1, by rw [he, hr]⟩
    · rintro ⟨hbytes, h⟩
      injection h with h
      injection h with he hposition
      have hr : r₁ = r' := by
        have hsame := hx.1.trans hbytes.symm
        cases r₁
        cases r'
        cases hsame
        cases hposition
        rfl
      rw [he, hr]
  | ok a r₁ =>
    rw [hrun] at hx
    rw [firstDefect_eq_none hx.2.1]
    simp

theorem of_eq_ok (hx : Makes x r cs Q) {a : α} {r' : Reader} (h : x r = .ok a r') :
    r'.bytes = r.bytes ∧ Q a r' := by
  unfold Makes at hx
  rw [h] at hx
  exact ⟨hx.1, hx.2.2⟩

end Makes

/-! ## Fields -/

theorem makes_getNumber (w : Nat) (r : Reader) :
    Makes (getNumber w) r [.fits r.bytes r.position w] fun n r' =>
      n = numberAt r.bytes r.position w ∧ n < byteRange w ∧ r'.position = r.position + w := by
  obtain ⟨bytes, position, hle⟩ := r
  by_cases hfits : w ≤ bytes.size - position
  · have hbytes : getBytes w ⟨bytes, position, hle⟩ =
        .ok (bytes.extract position (position + w)).toList ⟨bytes, position + w, by omega⟩ := by
      simp only [getBytes, dif_pos hfits]
    have hnumber := bind_ok (f := fun bs => pure (ofBigEndian bs)) hbytes
    unfold Makes
    rw [getNumber, hnumber]
    have hholds : position + w ≤ bytes.size := by omega
    exact ⟨rfl, by simp [Check.fits, hholds], rfl, (took_getNumber hnumber).2, rfl⟩
  · have hbytes : getBytes w ⟨bytes, position, hle⟩ =
        .error (.corruptRecord position (.short w (bytes.size - position)))
          ⟨bytes, position, hle⟩ := by
      simp only [getBytes, dif_neg hfits]
    unfold Makes
    rw [getNumber, bind_error hbytes]
    have hmissing : ¬ position + w ≤ bytes.size := by omega
    exact ⟨rfl, by simp [firstDefect, Check.fits, hmissing]⟩

theorem makes_getByte (r : Reader) :
    Makes getByte r [.fits r.bytes r.position 1] fun b r' =>
      b = UInt8.ofNat (numberAt r.bytes r.position 1) ∧ r'.position = r.position + 1 :=
  (makes_getNumber 1 r).map fun _ _ ⟨hn, _, hposition⟩ => ⟨by rw [hn], hposition⟩

theorem makes_getShort (r : Reader) :
    Makes getShort r [.fits r.bytes r.position 2] fun x r' =>
      x.toNat = numberAt r.bytes r.position 2 ∧ r'.position = r.position + 2 :=
  (makes_getNumber 2 r).map fun _ _ ⟨hn, hlt, hposition⟩ =>
    ⟨(UInt16.toNat_ofNat_of_lt' hlt).trans hn, hposition⟩

theorem makes_getWord (r : Reader) :
    Makes getWord r [.fits r.bytes r.position 4] fun x r' =>
      x = UInt32.ofNat (numberAt r.bytes r.position 4) ∧ r'.position = r.position + 4 :=
  (makes_getNumber 4 r).map fun _ _ ⟨hn, _, hposition⟩ => ⟨by rw [hn], hposition⟩

theorem makes_getSigned (r : Reader) :
    Makes getSigned r [.fits r.bytes r.position 4] fun x r' =>
      x = (UInt32.ofNat (numberAt r.bytes r.position 4)).toInt32 ∧
        r'.position = r.position + 4 :=
  (makes_getWord r).map fun _ _ ⟨hx, hposition⟩ => ⟨by rw [hx], hposition⟩

theorem makes_getSingle (r : Reader) :
    Makes getSingle r [.fits r.bytes r.position 4] fun _ r' => r'.position = r.position + 4 :=
  (makes_getWord r).map fun _ _ h => h.2

theorem makes_getFlag (r : Reader) :
    Makes getFlag r [.fits r.bytes r.position 1, .isFlag r.bytes r.position] fun _ r' =>
      r'.position = r.position + 1 := by
  refine Makes.position ((makes_getByte r).bind fun b r₁ hbytes ⟨hb, hposition⟩ => ?_)
  split
  · next => exact Makes.pure (by simp [Check.isFlag, ← hb]) hposition
  · next => exact Makes.pure (by simp [Check.isFlag, ← hb]) hposition
  · next hzero hone =>
    have hdefect : ¬ b = 0 ∧ ¬ b = 1 := ⟨hzero, hone⟩
    exact Makes.throw (by simp [firstDefect, Check.isFlag, ← hb, hdefect, hposition])

/-! ## Headers, entries and records -/

/-- The number of entries is checked against the greatest one, and then against the bytes left. -/
theorem makes_sizeChecks {α : Type} (a : α) {r : Reader} {start size : Nat}
    (hsize : size = numberAt r.bytes (start + 10) 2) (hstop : r.position = start + Term.headerSize) :
    Makes (do
      if Term.maxSize < size then throw (.corruptRecord start (.oversized size))
      let left := (← get).remaining
      if left < size * Term.entrySize then throw (.corruptRecord start (.missingEntries size left))
      return a) r [.isSmall r.bytes start, .isBacked r.bytes start] fun b r' =>
        b = a ∧ size ≤ Term.maxSize ∧ size * Term.entrySize ≤ r'.remaining ∧ r' = r := by
  have hleft : r.remaining = r.bytes.size - (start + Term.headerSize) := by
    rw [Reader.remaining, hstop]
  refine Makes.guarded ?_ ?_ hstop.symm fun hsmall => ?_
  · simp [Check.isSmall, hsize]
  · rw [hsize]
    rfl
  change Makes (if r.remaining < size * Term.entrySize then _ else _) r _ _
  refine Makes.guarded ?_ ?_ hstop.symm fun hbacked => Makes.pure (by simp) ⟨rfl, ?_⟩
  · simp [Check.isBacked, hsize, hleft]
  · rw [hsize, hleft]
    rfl
  exact ⟨Nat.le_of_not_lt hsmall, Nat.le_of_not_lt hbacked, rfl⟩

theorem makes_getHeader (rules : Registry) (r : Reader) :
    Makes (getHeader rules) r (headerChecks rules r.bytes r.position) fun h r' =>
      h.size = numberAt r.bytes (r.position + 10) 2 ∧ h.size ≤ Term.maxSize ∧
        h.size * Term.entrySize ≤ r'.remaining ∧ r'.position = r.position + Term.headerSize := by
  -- The cursor stands at sums of widths, which are the offsets of the checks by computation.
  unfold getHeader
  refine Makes.position ((makes_getFlag r).bind fun squared r₁ hb₁ hp₁ => ?_)
  have hflag := makes_getFlag r₁
  rw [hb₁, hp₁] at hflag
  refine hflag.bind fun hinge r₂ hb₂ hp₂ => ?_
  have hword := makes_getWord r₂
  rw [hb₂, hb₁, hp₂] at hword
  refine hword.bind fun word r₃ hb₃ hread => ?_
  obtain ⟨hid, hp₃⟩ := hread
  have hbytes₃ : r₃.bytes = r.bytes := by rw [hb₃, hb₂, hb₁]
  have hknown : (Check.isKnown r.bytes (r.position + 2) rules).holds =
      (rules.get? ⟨word⟩).isSome := by
    rw [hid]
    rfl
  cases hget : rules.get? ⟨word⟩ with
  | none =>
    simp only [Registry.resolve, hget]
    have hdefect : firstDefect [.isKnown r.bytes (r.position + 2) rules] =
        some (.unknownRule ⟨word⟩, r₃.position) := by
      rw [firstDefect_cons (by simp [hknown, hget]), hid, hp₃]
      rfl
    exact (Makes.throw hdefect).bind fun _ _ _ h => (h : False).elim
  | some rule =>
    simp only [Registry.resolve, hget]
    have hrule : Makes (pure rule) r₃ [.isKnown r.bytes (r.position + 2) rules]
        fun _ r' => r' = r₃ :=
      Makes.pure (by simp [hknown, hget]) rfl
    refine hrule.bind fun rule r₄ _ hr₄ => ?_
    subst hr₄
    have hconstant := makes_getSingle r₄
    rw [hbytes₃, hp₃] at hconstant
    refine hconstant.bind fun constant r₅ hb₅ hp₅ => ?_
    have hshort := makes_getShort r₅
    rw [hb₅, hbytes₃, hp₅] at hshort
    refine hshort.bind fun short r₆ hb₆ hread => ?_
    have hbytes₆ : r₆.bytes = r.bytes := by rw [hb₆, hb₅, hbytes₃]
    rw [← hbytes₆] at hread ⊢
    refine Makes.mono (makes_sizeChecks _ hread.1 hread.2) fun h r₇ hr₇ => ?_
    obtain ⟨rfl, hsmall, hbacked, rfl⟩ := hr₇
    exact ⟨hread.1, hsmall, hbacked, hread.2⟩

/-- The variable of the first entry is checked first. -/
theorem variableChecks_succ (bytes : Array UInt8) (start n : Nat) :
    variableChecks bytes start (n + 1) =
      .isVariable bytes (start + 4) :: variableChecks bytes (start + Term.entrySize) n := by
  have hrest : ∀ i, start + (i + 1) * Term.entrySize + 4 =
      start + Term.entrySize + i * Term.entrySize + 4 := by
    intro i
    rw [Nat.succ_mul]
    omega
  simp [variableChecks, List.range_succ_eq_map, Function.comp_def, hrest]

/-- Of entries whose bytes are there, only the variables are checked. -/
theorem makes_getEntries {n : Nat} {acc : Array (Entry Single)} {r : Reader}
    (hbacked : n * Term.entrySize ≤ r.remaining) :
    Makes (getEntries n acc) r (variableChecks r.bytes r.position n) fun _ _ => True := by
  induction n generalizing acc r with
  | zero => exact Makes.pure (by simp [variableChecks]) trivial
  | succ n ih =>
    have hroom : r.position + 8 + n * Term.entrySize ≤ r.bytes.size := by
      have hle := r.position_le
      rw [Nat.succ_mul, Reader.remaining] at hbacked
      simp only [Term.entrySize] at hbacked ⊢
      omega
    rw [variableChecks_succ]
    unfold getEntries
    have hcoefficient := (makes_getSingle r).of_holds
      (by simp only [List.forall_mem_singleton, Check.fits, decide_eq_true_eq]; omega)
    refine hcoefficient.bind fun coefficient r₁ hb₁ hp₁ => Makes.position ?_
    have hraw := (makes_getSigned r₁).of_holds
      (by simp only [List.forall_mem_singleton, Check.fits, decide_eq_true_eq, hb₁, hp₁]; omega)
    refine hraw.bind fun raw r₂ hb₂ hread => ?_
    obtain ⟨hraw, hp₂⟩ := hread
    rw [hb₁, hp₁] at hraw
    rw [hp₁] at hp₂
    have hvariable : (Check.isVariable r.bytes (r.position + 4)).holds = decide (¬ raw < 0) := by
      rw [hraw]
      rfl
    by_cases hneg : raw < 0
    · have hv : Variable.ofSigned? raw = none := if_pos hneg
      have hdefect : firstDefect (.isVariable r.bytes (r.position + 4) ::
          variableChecks r.bytes (r.position + Term.entrySize) n) =
            some (.corruptRecord (r.position + 4) (.negativeVariable raw), r₂.position) := by
        rw [firstDefect_cons (by simp [hvariable, hneg]), hp₂, hraw]
        rfl
      rw [hv, hp₁]
      exact Makes.throw hdefect
    · have hv : Variable.ofSigned? raw = some ⟨raw.toUInt32⟩ := if_neg hneg
      have hposition : r₂.position = r.position + Term.entrySize := hp₂
      have hleft : n * Term.entrySize ≤ r₂.remaining := by
        rw [Reader.remaining, hb₂, hb₁, hp₂]
        omega
      have hrest := @ih (acc.push ⟨coefficient, ⟨raw.toUInt32⟩⟩) r₂ hleft
      rw [hb₂, hb₁, hposition] at hrest
      rw [hv]
      exact hrest.cons (by simp [hvariable, hneg])

theorem makes_decode (rules : Registry) (r : Reader) :
    Makes (Term.decode rules) r (headerChecks rules r.bytes r.position ++
      entryChecks r.bytes r.position) fun _ _ => True := by
  refine (makes_getHeader rules r).bind fun h r₁ hb ⟨hsize, _, hbacked, hp⟩ => ?_
  have hchecks : entryChecks r.bytes r.position = variableChecks r₁.bytes r₁.position h.size := by
    rw [entryChecks, hb, hp, hsize]
  rw [hchecks]
  exact (makes_getEntries hbacked).map fun _ _ _ => trivial

/-- What is reported is reported of one of the checks. -/
theorem mem_of_firstDefect {cs : List Check} {e : Fault} {stop : Nat}
    (h : firstDefect cs = some (e, stop)) :
    ∃ c ∈ cs, c.holds = false ∧ c.fault = e ∧ c.stop = stop := by
  obtain ⟨c, hfind, hc⟩ := Option.map_eq_some_iff.mp h
  cases hc
  have hfails := List.find?_some hfind
  exact ⟨c, List.mem_of_find?_eq_some hfind, by simpa using hfails, rfl, rfl⟩

/-- Nothing is reported from before the record. -/
theorem le_stop {rules : Registry} {bytes : Array UInt8} {start : Nat} {c : Check}
    (h : c ∈ headerChecks rules bytes start ++ entryChecks bytes start) : start ≤ c.stop := by
  rw [List.mem_append] at h
  cases h with
  | inl h =>
    simp only [headerChecks, List.mem_cons, List.not_mem_nil, or_false] at h
    rcases h with h | h | h | h | h | h | h | h | h | h <;> rw [h] <;>
      simp only [Check.fits, Check.isFlag, Check.isKnown, Check.isSmall, Check.isBacked,
        Term.headerSize] <;> omega
  | inr h =>
    obtain ⟨i, _, rfl⟩ := List.mem_map.mp h
    simp only [Check.isVariable]
    omega

/-- **The first defect is the one that is reported.**

1. A record is not read exactly if some check of its bytes does not hold.  What is reported is what
   the first such check says, the cursor is left where that check says, and this place is not before
   the record and not behind the bytes.
2. What is wrong with the header, its size among it, is found before any entry is read, and before a
   draft is touched.
3. After the header, entries are read whose bytes are all there.  This fails only at a variable that
   is a negative word. -/
theorem decode_eq_error_iff (rules : Registry) (r : Reader) :
    (∀ e r', Term.decode rules r = .error e r' ↔
      r'.bytes = r.bytes ∧ firstDefect (headerChecks rules r.bytes r.position ++
        entryChecks r.bytes r.position) = some (e, r'.position)) ∧
    (∀ e r', Term.decode rules r = .error e r' →
      r.position ≤ r'.position ∧ r'.position ≤ r.bytes.size) ∧
    (∀ e r', (getHeader rules r = .error e r' ↔
        r'.bytes = r.bytes ∧
          firstDefect (headerChecks rules r.bytes r.position) = some (e, r'.position)) ∧
      (getHeader rules r = .error e r' → Term.decode rules r = .error e r' ∧
        ∀ d, Draft.refill rules (r, d) = .error e (r', d))) ∧
    ∀ h r₁, getHeader rules r = .ok h r₁ →
      h.size ≤ 32767 ∧ r₁.position = r.position + 12 ∧ h.size * 8 ≤ r₁.remaining ∧
        ∀ acc e r', getEntries h.size acc r₁ = .error e r' →
          ∃ i < h.size, ∃ raw < 0,
            raw = (UInt32.ofNat (numberAt r.bytes (r.position + 16 + i * 8) 4)).toInt32 ∧
            e = .corruptRecord (r.position + 16 + i * 8) (.negativeVariable raw) ∧
            r'.position = r.position + 20 + i * 8 := by
  refine ⟨fun e r' => (makes_decode rules r).eq_error_iff, fun e r' h => ?_, fun e r' =>
    ⟨(makes_getHeader rules r).eq_error_iff, fun h => ⟨bind_error h, fun d => ?_⟩⟩,
    fun h r₁ hheader => ?_⟩
  · obtain ⟨hbytes, hdefect⟩ := (makes_decode rules r).eq_error_iff.mp h
    obtain ⟨c, hc, _, _, hstop⟩ := mem_of_firstDefect hdefect
    exact ⟨hstop ▸ le_stop hc, hbytes ▸ r'.position_le⟩
  · exact bind_error (Draft.reading_error h)
  · obtain ⟨hbytes, _, hsmall, hbacked, hposition⟩ := (makes_getHeader rules r).of_eq_ok hheader
    refine ⟨hsmall, hposition, hbacked, fun acc e r' hentries => ?_⟩
    obtain ⟨_, hdefect⟩ := (makes_getEntries hbacked).eq_error_iff.mp hentries
    obtain ⟨c, hc, hfails, hfault, hstop⟩ := mem_of_firstDefect hdefect
    obtain ⟨i, hi, rfl⟩ := List.mem_map.mp hc
    have hoffset : r₁.position + i * Term.entrySize + 4 = r.position + 16 + i * 8 := by
      simp only [hposition, Term.headerSize, Term.entrySize]
      omega
    rw [hbytes, hoffset] at hfails hfault hstop
    have hnegative : (UInt32.ofNat (numberAt r.bytes (r.position + 16 + i * 8) 4)).toInt32 < 0 := by
      simpa only [Check.isVariable, decide_eq_false_iff_not, Decidable.not_not] using hfails
    refine ⟨i, List.mem_range.mp hi, _, hnegative, rfl, hfault.symm, ?_⟩
    rw [← hstop]
    simp only [Check.isVariable]
    omega

/-- A second flag that is none comes before a rule that is not known and bytes that are missing. -/
example : Term.decode sampleRules ⟨#[0, 2, 0, 0, 0, 9], 0, by decide⟩ =
    .error (.corruptRecord 1 (.flag 2)) ⟨#[0, 2, 0, 0, 0, 9], 2, by decide⟩ := by
  rfl

end Record

end HingeLoss

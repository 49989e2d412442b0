import HingeLoss.Proofs.Record.Writing
import HingeLoss.Record.Draft

/-!
# HingeLoss.Proofs.Record.Reuse

What a draft held before does not show.

A draft is read into from whatever earlier readings have left in it, which may be a part of a record
that could not be read.  Reading into it and reading a new term look at the same bytes in the same
order, so they fail alike and leave the cursor at the same place, and a reading that succeeds leaves
just the term in the draft.  Along records in a row this carries over from one to the next
(`refill_iff_decode`).
-/

namespace HingeLoss

open Record

namespace Draft

variable {r r' : Reader} {d : Draft} {e : Fault}

/-! ## Reading beside a draft -/

theorem reading_ok {α : Type} {x : ReadM α} {a : α} (h : x r = .ok a r') :
    reading x (r, d) = .ok a (r', d) := by
  simp only [reading, h]

theorem reading_error {α : Type} {x : ReadM α} (h : x r = .error e r') :
    reading x (r, d) = .error e (r', d) := by
  simp only [reading, h]

@[simp] theorem change_apply (f : Draft → Draft) (r : Reader) (d : Draft) :
    change f (r, d) = .ok ⟨⟩ (r, f d) := rfl

/-! ## Entries -/

/-- The draft with other entries. -/
def withEntries (d : Draft) (es : Array (Entry Single)) : Draft :=
  { d with coefficients := es.map (·.coefficient), vars := es.map (·.var) }

theorem withEntries_push (d : Draft) (es : Array (Entry Single)) (e : Entry Single) :
    pushVar e.var (pushCoefficient e.coefficient (d.withEntries es)) = d.withEntries (es.push e) := by
  simp [withEntries, pushVar, pushCoefficient]

/-- The two arrays are filled with the coefficients and the variables of the entries. -/
theorem fill_cases (n : Nat) (r : Reader) (d : Draft) (es : Array (Entry Single)) :
    (∃ es' r', getEntries n es r = .ok es' r' ∧
      fill n (r, d.withEntries es) = .ok () (r', d.withEntries es')) ∨
    ∃ e r' d', getEntries n es r = .error e r' ∧
      fill n (r, d.withEntries es) = .error e (r', d') := by
  induction n generalizing r es with
  | zero => exact .inl ⟨es, r, rfl, rfl⟩
  | succ n ih =>
    unfold getEntries fill
    cases hcoefficient : getSingle r with
    | error e r₁ =>
      exact .inr ⟨e, r₁, _, bind_error hcoefficient, bind_error (reading_error hcoefficient)⟩
    | ok coefficient r₁ =>
      rw [bind_ok hcoefficient, bind_ok (reading_ok hcoefficient), bind_ok (change_apply ..)]
      have hposition : position r₁ = .ok r₁.position r₁ := rfl
      rw [bind_ok hposition, bind_ok (reading_ok hposition)]
      cases hraw : getSigned r₁ with
      | error e r₂ => exact .inr ⟨e, r₂, _, bind_error hraw, bind_error (reading_error hraw)⟩
      | ok raw r₂ =>
        rw [bind_ok hraw, bind_ok (reading_ok hraw)]
        cases Variable.ofSigned? raw with
        | none => exact .inr ⟨_, r₂, _, rfl, rfl⟩
        | some v =>
          dsimp only
          rw [bind_ok (change_apply ..), withEntries_push d es ⟨coefficient, v⟩]
          exact ih r₂ _

/-! ## Records -/

theorem clear_eq (d : Draft) : d.clear = d.withEntries #[] := by
  simp [clear, withEntries]

/-- Reading into a draft does what reading a new term does, and leaves the term in the draft. -/
theorem refill_cases (rules : Registry) (r : Reader) (d : Draft) :
    (∃ t r', Term.decode rules r = .ok t r' ∧ refill rules (r, d) = .ok () (r', .ofTerm t)) ∨
    ∃ e r' d', Term.decode rules r = .error e r' ∧ refill rules (r, d) = .error e (r', d') := by
  unfold Term.decode refill
  cases hheader : getHeader rules r with
  | error e r₁ => exact .inr ⟨e, r₁, d, bind_error hheader, bind_error (reading_error hheader)⟩
  | ok h r₁ =>
    rw [bind_ok hheader, bind_ok (reading_ok hheader), bind_ok (change_apply ..),
      bind_ok (change_apply ..), clear_eq]
    obtain ⟨es, r₂, hentries, hfill⟩ | ⟨e, r₂, d', hentries, hfill⟩ :=
      fill_cases h.size r₁ (d.setHeader h) #[]
    · exact .inl ⟨_, r₂, bind_ok hentries, hfill⟩
    · exact .inr ⟨e, r₂, d', bind_error hentries, hfill⟩

/-! ## Records in a row -/

/-- What so many readings of new terms show, each from where the one before has stopped, and where
they stop. -/
def decodings (rules : Registry) : Nat → Reader → List (Except Fault (Term Single) × Nat)
  | 0, _ => []
  | n + 1, r => match Term.decode rules r with
    | .ok t r' => (.ok t, r'.position) :: decodings rules n r'
    | .error e r' => (.error e, r'.position) :: decodings rules n r'

/-- What so many readings into one draft show.  One that fails leaves the draft to the next. -/
def refills (rules : Registry) : Nat → Reader × Draft → List (Except Fault (Term Single) × Nat)
  | 0, _ => []
  | n + 1, s => match refill rules s with
    | .ok () s' => (.ok s'.2.term, s'.1.position) :: refills rules n s'
    | .error e s' => (.error e, s'.1.position) :: refills rules n s'

theorem refills_eq (rules : Registry) (n : Nat) (r : Reader) (d : Draft) :
    refills rules n (r, d) = decodings rules n r := by
  induction n generalizing r d with
  | zero => rfl
  | succ n ih =>
    obtain ⟨t, r', hdecode, hrefill⟩ | ⟨e, r', d', hdecode, hrefill⟩ := refill_cases rules r d
    · simp only [refills, decodings, hdecode, hrefill, term_ofTerm, ih]
    · simp only [refills, decodings, hdecode, hrefill, ih]

/-- **Reading into a draft is reading a new term**, whatever the draft holds.  Both succeed or fail
together, and stop at the same place; a draft that has been read into holds the term and nothing
else, and a failure is the same one.  So records in a row are read into one draft as the terms that
they are read as on their own, also behind readings that fail. -/
theorem refill_iff_decode (rules : Registry) (r : Reader) (d : Draft) :
    (∀ r' d', refill rules (r, d) = .ok () (r', d') ↔
      ∃ t, Term.decode rules r = .ok t r' ∧ d' = .ofTerm t ∧ d'.term = t) ∧
    (∀ e r', (∃ d', refill rules (r, d) = .error e (r', d')) ↔
      Term.decode rules r = .error e r') ∧
    ∀ n, refills rules n (r, d) = decodings rules n r := by
  refine ⟨fun r' d' => ?_, fun e r' => ?_, fun n => refills_eq rules n r d⟩
  · obtain ⟨t, r₁, hdecode, hrefill⟩ | ⟨e, r₁, d₁, hdecode, hrefill⟩ := refill_cases rules r d
    · rw [hdecode, hrefill]
      constructor
      · intro h
        injection h with _ h
        injection h with hr hd
        exact ⟨t, by rw [hr], hd.symm, by rw [← hd, term_ofTerm]⟩
      · rintro ⟨u, h, rfl, _⟩
        injection h with ht hr
        rw [ht, hr]
    · rw [hdecode, hrefill]
      simp
  · obtain ⟨t, r₁, hdecode, hrefill⟩ | ⟨f, r₁, d₁, hdecode, hrefill⟩ := refill_cases rules r d
    · rw [hdecode, hrefill]
      simp
    · rw [hdecode, hrefill]
      constructor
      · rintro ⟨d', h⟩
        injection h with he h
        injection h with hr _
        rw [he, hr]
      · intro h
        injection h with he hr
        exact ⟨d₁, by rw [he, hr]⟩

/-- A coefficient whose variable cannot be read is not left to the next term. -/
example :
    let bytes := #[0, 0, 0, 0, 0, 0, 0, 0, 0, 0, 0, 1, 0, 0, 0, 0, 255, 255, 255, 255]
    let r : Reader := ⟨bytes ++ bareTerm.record.toArray, 0, by decide⟩
    (refills sampleRules 2 (r, .ofTerm bareTerm)).map (fun x => (x.1.toOption, x.2)) =
      [(none, 20), (some bareTerm, 32)] := by
  decide +kernel

end Draft

end HingeLoss

import Mathlib.Algebra.Order.Field.Power
import Mathlib.Algebra.Order.Field.Rat
import Mathlib.Tactic.FieldSimp
import Mathlib.Tactic.NormNum
import Mathlib.Tactic.Positivity
import Mathlib.Tactic.Ring
import HingeLoss.Proofs.Options.Words

/-!
# HingeLoss.Proofs.Decimal.Written

Decimals as they are written: a sign, digits, a point and more digits, and an exponent, of which all
but one digit may be left out.

1. `WrittenDecimal` has the parts of the writing, and `value` is the exact number that it is the
   writing of;
2. a written decimal is read as its digits and its exponent (`ofChars?_body`), whatever its form;
3. blanks around it are passed over, and the value of an option is what the decimal is rounded to
   (`number_eq_ok`).
-/

namespace HingeLoss

/-- The mark in front of a number. -/
inductive SignMark where
  | none
  | plus
  | minus
deriving DecidableEq, Repr

def SignMark.chars : SignMark → List Char
  | none => []
  | plus => ['+']
  | minus => ['-']

def SignMark.factor : SignMark → Int
  | minus => -1
  | _ => 1

/-- The number that digits are the writing of. -/
def digitsNumber (ds : List (Fin 10)) : Nat := ds.foldl (fun n d => 10 * n + d.val) 0

def digitChars (ds : List (Fin 10)) : List Char := ds.map fun d => Nat.digitChar d.val

/-- The exponent behind the digits of a decimal. -/
structure WrittenExponent where
  /-- Whether its mark is the upper case letter. -/
  upper : Bool
  sign : SignMark
  digits : List (Fin 10)
  digits_ne_nil : digits ≠ []

namespace WrittenExponent

def chars (e : WrittenExponent) : List Char :=
  (if e.upper then 'E' else 'e') :: (e.sign.chars ++ digitChars e.digits)

def value (e : WrittenExponent) : Int := e.sign.factor * digitsNumber e.digits

end WrittenExponent

structure WrittenDecimal where
  sign : SignMark
  /-- The digits before the point. -/
  whole : List (Fin 10)
  /-- The digits behind the point, if it is written. -/
  part : Option (List (Fin 10))
  exponent : Option WrittenExponent
  digits_ne_nil : whole ++ part.getD [] ≠ []

namespace WrittenDecimal

/-- The digits on both sides of the point. -/
def digits (w : WrittenDecimal) : List (Fin 10) := w.whole ++ w.part.getD []

/-- The point and the digits behind it. -/
def pointChars (w : WrittenDecimal) : List Char := w.part.elim [] fun ds => '.' :: digitChars ds

def exponentChars (w : WrittenDecimal) : List Char := w.exponent.elim [] WrittenExponent.chars

/-- The writing without the sign. -/
def body (w : WrittenDecimal) : List Char :=
  digitChars w.whole ++ (w.pointChars ++ w.exponentChars)

def chars (w : WrittenDecimal) : List Char := w.sign.chars ++ w.body

def exponentValue (w : WrittenDecimal) : Int := w.exponent.elim 0 WrittenExponent.value

/-- The exact number that a decimal is the writing of. -/
def value (w : WrittenDecimal) : ℚ :=
  w.sign.factor *
    (digitsNumber w.whole + digitsNumber (w.part.getD []) / 10 ^ (w.part.getD []).length) *
    10 ^ w.exponentValue

/-- The text is the decimal with blanks around it. -/
def StandsIn (w : WrittenDecimal) (text : String) : Prop :=
  ∃ before after : List Char, (∀ c ∈ before, Text.isBlank c = true) ∧
    (∀ c ∈ after, Text.isBlank c = true) ∧ text.toList = before ++ (w.chars ++ after)

end WrittenDecimal

/-! ## Digits -/

variable {ds : List (Fin 10)} {cs rest : List Char}

theorem isDigit_digitChar : ∀ d : Fin 10, (Nat.digitChar d.val).isDigit = true := by decide

theorem toNat_digitChar : ∀ d : Fin 10, (Nat.digitChar d.val).toNat - '0'.toNat = d.val := by decide

theorem isNone_digitValue? : ∀ d : Fin 10, (digitValue? (Nat.digitChar d.val)).isNone = false := by
  decide

theorem digitsValue_digitChars (ds : List (Fin 10)) :
    digitsValue (digitChars ds) = digitsNumber ds := by
  simp only [digitsValue, digitChars, List.foldl_map, toNat_digitChar, digitsNumber]

theorem digitsNumber_append (ds es : List (Fin 10)) :
    digitsNumber (ds ++ es) = digitsNumber ds * 10 ^ es.length + digitsNumber es := by
  induction es using List.reverseRecOn with
  | nil => simp [digitsNumber]
  | append_singleton es d ih =>
    have hsnoc (l : List (Fin 10)) : digitsNumber (l ++ [d]) = 10 * digitsNumber l + d.val := by
      simp [digitsNumber]
    rw [← List.append_assoc, hsnoc, ih, hsnoc, List.length_append, List.length_singleton,
      Nat.pow_succ]
    ring

/-- Digits are read up to the first character that is none. -/
theorem takeWhile_digitChars (h : rest.takeWhile Char.isDigit = []) :
    (digitChars ds ++ rest).takeWhile Char.isDigit = digitChars ds := by
  rw [List.takeWhile_append_of_pos, h, List.append_nil]
  simp [digitChars]

theorem dropWhile_digitChars (h : rest.dropWhile Char.isDigit = rest) :
    (digitChars ds ++ rest).dropWhile Char.isDigit = rest := by
  rw [List.dropWhile_append_of_pos, h]
  simp [digitChars]

/-! ## Reading -/

namespace WrittenDecimal

variable (w : WrittenDecimal)

theorem takeWhile_exponentChars : w.exponentChars.takeWhile Char.isDigit = [] ∧
    w.exponentChars.dropWhile Char.isDigit = w.exponentChars := by
  obtain ⟨sign, whole, part, exponent, h⟩ := w
  cases exponent with
  | none => exact ⟨rfl, rfl⟩
  | some e => cases hupper : e.upper <;> simp [exponentChars, WrittenExponent.chars, hupper]

end WrittenDecimal

theorem digitChar_ne (d : Fin 10) {c : Char} (h : c.isDigit = false) : Nat.digitChar d.val ≠ c := by
  rintro rfl
  rw [isDigit_digitChar] at h
  contradiction

/-- An exponent is read with its sign. -/
theorem exponent?_signed (s : SignMark) {mark c : Char} (hmark : mark = 'e' ∨ mark = 'E')
    (hplus : c ≠ '+') (hminus : c ≠ '-')
    (hdigits : (c :: rest).any (fun c => (digitValue? c).isNone) = false) :
    Decimal.exponent? (mark :: (s.chars ++ c :: rest)) =
      some (s.factor * digitsValue (c :: rest)) := by
  cases s with
  | none =>
    show Decimal.exponent? (mark :: c :: rest) = _
    rw [Decimal.exponent?, if_pos hmark]
    · simp [hdigits, SignMark.factor]
    · exact fun ds h => hplus (List.cons.inj h).1
    · exact fun ds h => hminus (List.cons.inj h).1
  | plus =>
    show Decimal.exponent? (mark :: '+' :: c :: rest) = _
    rw [Decimal.exponent?, if_pos hmark]
    simp [hdigits, SignMark.factor]
  | minus =>
    show Decimal.exponent? (mark :: '-' :: c :: rest) = _
    rw [Decimal.exponent?, if_pos hmark]
    simp [hdigits, SignMark.factor]

namespace WrittenDecimal

variable (w : WrittenDecimal)

theorem exponentChars_ne : w.exponentChars ≠ '.' :: cs := by
  obtain ⟨sign, whole, part, exponent, h⟩ := w
  cases exponent with
  | none => simp [exponentChars]
  | some e => cases hupper : e.upper <;> simp [exponentChars, WrittenExponent.chars, hupper]

theorem exponent?_exponentChars : Decimal.exponent? w.exponentChars = some w.exponentValue := by
  obtain ⟨sign, whole, part, exponent, h⟩ := w
  cases exponent with
  | none => rfl
  | some e =>
    obtain ⟨upper, sign, ds, hds⟩ := e
    obtain ⟨d, ds, rfl⟩ := List.exists_cons_of_ne_nil hds
    have hmark : (if upper then 'E' else 'e') = 'e' ∨ (if upper then 'E' else 'e') = 'E' := by
      cases upper <;> simp
    have hdigits : (digitChars (d :: ds)).any (fun c => (digitValue? c).isNone) = false := by
      simp [digitChars, isNone_digitValue?]
    show _ = some (sign.factor * (digitsNumber (d :: ds) : Int))
    rw [← digitsValue_digitChars]
    exact exponent?_signed sign hmark (digitChar_ne d rfl) (digitChar_ne d rfl) hdigits

/-- The digits and the exponent that a decimal is read as. -/
theorem ofChars?_body : Decimal.ofChars? w.body =
    some ⟨digitsNumber w.digits, w.exponentValue - (w.part.getD []).length⟩ := by
  obtain ⟨htake, hdrop⟩ := w.takeWhile_exponentChars
  have hstop : (w.pointChars ++ w.exponentChars).takeWhile Char.isDigit = [] ∧
      (w.pointChars ++ w.exponentChars).dropWhile Char.isDigit =
        w.pointChars ++ w.exponentChars := by
    cases hpart : w.part with
    | none => simpa [pointChars, hpart] using And.intro htake hdrop
    | some ds => simp [pointChars, hpart]
  have hempty : ¬((digitChars w.whole).isEmpty = true ∧
      (digitChars (w.part.getD [])).isEmpty = true) := by
    simpa [digitChars] using w.digits_ne_nil
  rw [Decimal.ofChars?, body, takeWhile_digitChars hstop.1, dropWhile_digitChars hstop.2]
  split
  next part tail heq =>
  obtain ⟨rfl, rfl⟩ : part = digitChars (w.part.getD []) ∧ tail = w.exponentChars := by
    cases hpart : w.part with
    | none =>
      rw [pointChars, hpart, Option.elim_none, List.nil_append] at heq
      split at heq
      · next more hpoint => exact absurd hpoint w.exponentChars_ne
      · obtain ⟨rfl, rfl⟩ := Prod.mk.inj heq
        exact ⟨rfl, rfl⟩
    | some ds =>
      rw [pointChars, hpart, Option.elim_some, List.cons_append] at heq
      obtain ⟨rfl, rfl⟩ := Prod.mk.inj heq
      exact ⟨takeWhile_digitChars htake, dropWhile_digitChars hdrop⟩
  rw [if_neg hempty, w.exponent?_exponentChars, Option.map_some, digits, ← digitsValue_digitChars]
  simp [digitChars]

/-- A decimal without its sign begins with a digit or a point, so it is no sign and no word. -/
theorem exists_body_eq_cons : ∃ c cs, w.body = c :: cs ∧ c ≠ '+' ∧ c ≠ '-' ∧
    c.toLower ≠ 'i' ∧ c.toLower ≠ 'n' := by
  have hdigit : ∀ d : Fin 10, (Nat.digitChar d.val).toLower ≠ 'i' ∧
      (Nat.digitChar d.val).toLower ≠ 'n' := by decide
  cases hwhole : w.whole with
  | cons d ds =>
    exact ⟨_, _, by rw [body, hwhole]; rfl, digitChar_ne d rfl, digitChar_ne d rfl, hdigit d⟩
  | nil =>
    obtain ⟨ds, hpart⟩ : ∃ ds, w.part = some ds := by
      rw [← Option.isSome_iff_exists, Option.isSome_iff_ne_none]
      intro hnone
      exact w.digits_ne_nil (by rw [hwhole, hnone]; rfl)
    exact ⟨_, _, by rw [body, hwhole, pointChars, hpart]; rfl, by decide, by decide, by decide,
      by decide⟩

/-- A decimal is read as the number that its digits and its exponent are rounded to. -/
theorem ofText_chars : Single.ofText (String.ofList w.chars) =
    .ok (Single.ofDecimal (w.sign = .minus) (digitsNumber w.digits)
      (w.exponentValue - (w.part.getD []).length)) := by
  obtain ⟨c, cs, hbody, hplus, hminus, hi, hn⟩ := w.exists_body_eq_cons
  rw [Single.ofText, String.toList_ofList]
  split
  next negative body heq =>
  obtain ⟨rfl, rfl⟩ : negative = decide (w.sign = .minus) ∧ body = w.body := by
    rw [chars, hbody] at heq
    cases hsign : w.sign with
    | none =>
      rw [hsign] at heq
      split at heq
      · next h => exact absurd (List.cons.inj h).1 hminus
      · next h => exact absurd (List.cons.inj h).1 hplus
      · obtain ⟨rfl, rfl⟩ := Prod.mk.inj heq
        exact ⟨rfl, hbody.symm⟩
    | plus =>
      rw [hsign] at heq
      obtain ⟨rfl, rfl⟩ := Prod.mk.inj heq
      exact ⟨rfl, hbody.symm⟩
    | minus =>
      rw [hsign] at heq
      obtain ⟨rfl, rfl⟩ := Prod.mk.inj heq
      exact ⟨rfl, hbody.symm⟩
  have hword {word : String} {x : Char} {xs : List Char} (hx : c.toLower ≠ x)
      (hlist : word.toList = x :: xs) : String.ofList (w.body.map Char.toLower) ≠ word := by
    rintro rfl
    rw [String.toList_ofList, hbody, List.map_cons] at hlist
    exact hx (List.cons.inj hlist).1
  have hnonempty : ¬w.chars.isEmpty = true := by simp [chars, hbody]
  have hinfinite : ¬(String.ofList (w.body.map Char.toLower) = "inf" ∨
      String.ofList (w.body.map Char.toLower) = "infinity") := by
    rw [not_or]
    exact ⟨hword hi rfl, hword hi rfl⟩
  have hnan : ¬String.ofList (w.body.map Char.toLower) = "nan" := hword hn rfl
  dsimp only
  rw [if_neg hnonempty, if_neg hinfinite, if_neg hnan, w.ofChars?_body]

end WrittenDecimal

/-! ## Blanks -/

theorem isBlank_digitChars (ds : List (Fin 10)) :
    ∀ c ∈ digitChars ds, Text.isBlank c = false := by
  have hdigit : ∀ d : Fin 10, Text.isBlank (Nat.digitChar d.val) = false := by decide
  simp only [digitChars, List.mem_map]
  rintro _ ⟨d, -, rfl⟩
  exact hdigit d

theorem isBlank_sign (s : SignMark) : ∀ c ∈ s.chars, Text.isBlank c = false := by
  cases s <;> simp [SignMark.chars] <;> rfl

namespace WrittenDecimal

variable (w : WrittenDecimal)

/-- No character of a decimal is blank. -/
theorem isBlank_chars : ∀ c ∈ w.chars, Text.isBlank c = false := by
  intro c hc
  rw [chars, body, List.mem_append, List.mem_append, List.mem_append] at hc
  obtain hc | hc | hc | hc := hc
  · exact isBlank_sign _ c hc
  · exact isBlank_digitChars _ c hc
  · cases hpart : w.part with
    | none => simp [pointChars, hpart] at hc
    | some ds =>
      rw [pointChars, hpart, Option.elim_some, List.mem_cons] at hc
      obtain rfl | hc := hc
      · decide
      · exact isBlank_digitChars _ c hc
  · cases hexponent : w.exponent with
    | none => simp [exponentChars, hexponent] at hc
    | some e =>
      rw [exponentChars, hexponent, Option.elim_some, WrittenExponent.chars, List.mem_cons,
        List.mem_append] at hc
      obtain rfl | hc | hc := hc
      · cases e.upper <;> decide
      · exact isBlank_sign _ c hc
      · exact isBlank_digitChars _ c hc

/-- The number of a decimal, from all of its digits. -/
theorem value_eq : w.value = w.sign.factor *
    (digitsNumber w.digits * 10 ^ (w.exponentValue - (w.part.getD []).length)) := by
  have hten : (10 : ℚ) ≠ 0 := by norm_num
  have hpower : (10 : ℚ) ^ (w.part.getD []).length ≠ 0 := by positivity
  rw [value, digits, digitsNumber_append, zpow_sub₀ hten, zpow_natCast]
  push_cast
  field_simp

/-- A number above zero is written without a minus sign. -/
theorem value_eq_of_pos (h : 0 < w.value) : w.sign ≠ .minus ∧
    w.value = digitsNumber w.digits * 10 ^ (w.exponentValue - (w.part.getD []).length) := by
  have hvalue := w.value_eq
  have hsign : w.sign ≠ .minus := by
    intro hminus
    rw [hvalue, hminus, SignMark.factor] at h
    refine absurd h (not_lt.mpr ?_)
    push_cast
    rw [neg_one_mul, neg_nonpos]
    positivity
  have hfactor : w.sign.factor = 1 := by
    cases h : w.sign with
    | none => rfl
    | plus => rfl
    | minus => exact absurd h hsign
  rw [hfactor, Int.cast_one, one_mul] at hvalue
  exact ⟨hsign, hvalue⟩

end WrittenDecimal

/-- **The value of an option is what the decimal written for it is rounded to.** -/
theorem Options.number_eq_ok {text : String} {w : WrittenDecimal} (h : w.StandsIn text) :
    Options.number text = .ok (Single.ofDecimal (w.sign = .minus) (digitsNumber w.digits)
      (w.exponentValue - (w.part.getD []).length)) := by
  obtain ⟨before, after, hbefore, hafter, htext⟩ := h
  have hne : w.chars ≠ [] := by
    obtain ⟨c, cs, hbody, -⟩ := w.exists_body_eq_cons
    simp [WrittenDecimal.chars, hbody]
  rw [Options.number, trim_of_blanks hbefore hafter w.isBlank_chars hne htext, w.ofText_chars]
  rfl

end HingeLoss

import HingeLoss.Decimal.Shortest

/-!
# HingeLoss.Decimal.Numeral

Numbers and counts read from text.

A number is an optional sign and then `inf`, `infinity` or `nan` in any case, or digits with an
optional point and an optional exponent, with at least one digit beside the point.  It is rounded
once, from its exact decimal value.

A count is an optional plus sign and then digits.  It is read from the left, and the first defect
met decides: a character that is no digit, or a value past the greatest count.
-/

namespace HingeLoss

/-- Why a text is no number. -/
inductive NumeralDefect where
  | empty
  /-- The text has another form. -/
  | malformed
deriving DecidableEq, Repr

/-- Why a text is no count. -/
inductive CountDefect where
  | empty
  /-- A character is no digit, or there is none. -/
  | notDigit
  /-- The count is past the greatest one. -/
  | tooLarge
deriving DecidableEq, Repr

def NumeralDefect.message : NumeralDefect → String
  | .empty => "cannot parse float from empty string"
  | .malformed => "invalid float literal"

def CountDefect.message : CountDefect → String
  | .empty => "cannot parse integer from empty string"
  | .notDigit => "invalid digit found in string"
  | .tooLarge => "number too large to fit in target type"

def digitValue? (c : Char) : Option Nat :=
  if '0' ≤ c ∧ c ≤ '9' then some (c.toNat - '0'.toNat) else none

def digitsValue (cs : List Char) : Nat :=
  cs.foldl (fun n c => 10 * n + (c.toNat - '0'.toNat)) 0

/-! ## Numbers -/

namespace Decimal

/-- Reads the exponent after the digits: nothing, or a mark, an optional sign and digits. -/
def exponent? : List Char → Option Int
  | [] => some 0
  | c :: rest =>
    if c = 'e' ∨ c = 'E' then
      let (negative, ds) := match rest with
        | '+' :: ds => (false, ds)
        | '-' :: ds => (true, ds)
        | ds => (false, ds)
      if ds.isEmpty ∨ ds.any (fun c => (digitValue? c).isNone) then none
      else some (if negative then -(digitsValue ds : Int) else digitsValue ds)
    else none

/-- Reads an unsigned decimal. -/
def ofChars? (cs : List Char) : Option Decimal :=
  let whole := cs.takeWhile Char.isDigit
  let rest := cs.dropWhile Char.isDigit
  let (part, tail) := match rest with
    | '.' :: more => (more.takeWhile Char.isDigit, more.dropWhile Char.isDigit)
    | more => ([], more)
  if whole.isEmpty ∧ part.isEmpty then none
  else (exponent? tail).map fun e => ⟨digitsValue (whole ++ part), e - part.length⟩

end Decimal

def Single.ofText (s : String) : Except NumeralDefect Single :=
  let cs := s.toList
  let (negative, body) := match cs with
    | '-' :: rest => (true, rest)
    | '+' :: rest => (false, rest)
    | rest => (false, rest)
  let signed (a : Single) : Single := if negative then -a else a
  let word := String.ofList (body.map Char.toLower)
  if cs.isEmpty then .error .empty
  else if word = "inf" ∨ word = "infinity" then .ok (signed .infinity)
  else if word = "nan" then .ok (signed ⟨0x7fc00000⟩)
  else match Decimal.ofChars? body with
    | some d => .ok (Single.ofDecimal negative d.digits d.exponent)
    | none => .error .malformed

/-! ## Counts -/

/-- Reads the digits of a count after those that made up `n`. -/
def countOfDigits (n : Nat) : List Char → Except CountDefect Nat
  | [] => .ok n
  | c :: rest => match digitValue? c with
    | none => .error .notDigit
    | some d =>
      if Double.maxCount < 10 * n + d then .error .tooLarge else countOfDigits (10 * n + d) rest

def countOfText (s : String) : Except CountDefect Nat :=
  match s.toList with
  | [] => .error .empty
  | ['+'] => .error .notDigit
  | '+' :: rest => countOfDigits 0 rest
  | cs => countOfDigits 0 cs

end HingeLoss

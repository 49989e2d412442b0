import HingeLoss.Fault

/-!
# HingeLoss.Options.Reading

The values of options, read from text without the blanks around it.

1. the blanks are the 25 code points that have the property White_Space;
2. numbers and counts are numerals;
3. a boolean is `true`, `1`, `yes`, `false`, `0` or `no` in any case;
4. the names of a choice are read in any case.

Case is folded for the letters of ASCII only.  A fault shows the text of a count, a seed or a choice
as it was given, that of a number without its blanks, and that of a boolean folded as well.
-/

namespace HingeLoss

/-- How the step of a variable is scaled. -/
inductive Extension where
  /-- By the learning rate alone. -/
  | none
  /-- By the root of the sum of the squared partials so far. -/
  | adaGrad
  /-- By decaying means of the partials and of their squares. -/
  | adam
deriving DecidableEq, Inhabited, Repr

/-- How the learning rate changes from pass to pass. -/
inductive Schedule where
  | constant
  /-- It is divided by a power of the number of the pass. -/
  | stepDecay
deriving DecidableEq, Inhabited, Repr

def Extension.text : Extension → String
  | none => "NONE"
  | adaGrad => "ADAGRAD"
  | adam => "ADAM"

def Schedule.text : Schedule → String
  | constant => "CONSTANT"
  | stepDecay => "STEPDECAY"

/-! ## Blanks -/

namespace Text

/-- Closed ranges of code points, ascending and apart. -/
def blankRanges : List (Nat × Nat) :=
  [(0x09, 0x0d), (0x20, 0x20), (0x85, 0x85), (0xa0, 0xa0), (0x1680, 0x1680), (0x2000, 0x200a),
   (0x2028, 0x2029), (0x202f, 0x202f), (0x205f, 0x205f), (0x3000, 0x3000)]

def isBlank (c : Char) : Bool :=
  blankRanges.any fun r => r.1 ≤ c.toNat && c.toNat ≤ r.2

/-- The text without the blanks at its two ends. -/
def trim (s : String) : String :=
  String.ofList ((s.toList.dropWhile isBlank).reverse.dropWhile isBlank).reverse

end Text

/-! ## Values -/

namespace Options

def number (s : String) : Except OptionFault Single :=
  let t := Text.trim s
  (Single.ofText t).mapError (.notANumber t)

def count (s : String) : Except OptionFault Nat :=
  (countOfText (Text.trim s)).mapError (.notACount s)

def seed (s : String) : Except OptionFault Nat :=
  (countOfText (Text.trim s)).mapError (.notAnInteger s)

def boolean (s : String) : Except OptionFault Bool :=
  let t := (Text.trim s).toLower
  if t = "true" ∨ t = "1" ∨ t = "yes" then .ok true
  else if t = "false" ∨ t = "0" ∨ t = "no" then .ok false
  else .error (.notABoolean t)

/-- Reads the name of an extension. -/
def extension (s : String) : Except OptionFault Extension :=
  let t := (Text.trim s).toUpper
  if t = Extension.none.text then .ok .none
  else if t = Extension.adaGrad.text then .ok .adaGrad
  else if t = Extension.adam.text then .ok .adam
  else .error (.unsupportedExtension s)

/-- Reads the name of a schedule. -/
def schedule (s : String) : Except OptionFault Schedule :=
  let t := (Text.trim s).toUpper
  if t = Schedule.constant.text then .ok .constant
  else if t = Schedule.stepDecay.text then .ok .stepDecay
  else .error (.illegalSchedule s)

end Options

end HingeLoss

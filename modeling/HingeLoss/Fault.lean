import HingeLoss.Decimal.Numeral
import HingeLoss.Decimal.Shortest
import HingeLoss.Index
import HingeLoss.Options.Key

/-!
# HingeLoss.Fault

What can go wrong, by cause.  A fault names its cause and the values that show it; its wording is
made in one place, `Fault.message`.
-/

namespace HingeLoss

/-- What a numeric option or a weight has to satisfy. -/
inductive Requirement where
  | positive
  | openUnit
  | halfOpenUnit
  | nonNegative
deriving DecidableEq, Repr

/-- Why the value of an option is refused. -/
inductive OptionFault where
  | notANumber (text : String) (defect : NumeralDefect)
  | notACount (text : String) (defect : CountDefect)
  | notAnInteger (text : String) (defect : CountDefect)
  /-- The text is neither yes nor no. -/
  | notABoolean (text : String)
  | unsupportedExtension (text : String)
  | illegalSchedule (text : String)
  | outOfRange (requirement : Requirement) (value : Single)
  | zeroCount
deriving DecidableEq, Repr

/-- What has a fixed capacity. -/
inductive Resource where
  | variableIndex
  | recordByte
  | termSize
  | term
  | termIndex
deriving DecidableEq, Repr

inductive RecordDefect where
  /-- Fewer bytes are left than the field has. -/
  | short (needed left : Nat)
  /-- A flag is neither zero nor one. -/
  | flag (byte : UInt8)
  | oversized (size : Nat)
  | missingEntries (size left : Nat)
  | negativeVariable (raw : Int32)
  | unknownVariable (v : Variable) (count : Nat)
  /-- Bytes follow the last record of a page. -/
  | trailing (count : Nat)
deriving DecidableEq, Repr

/-- What could not be done with a file. -/
inductive FileFault where
  | createPageDirectory (path : String)
  | createPage (path : String)
  | writePage (path : String)
  | openPage (path : String)
  | mapPage (path : String)
  | removePage (path : String)
  | createVariableDirectory
  | createTemporary
  | writeVariables
  | flushVariables
  | renameVariables
  | mapVariables (path : String)
  | invalidArchive
  | lengthMismatch (path : String) (values flags : Nat)
deriving DecidableEq, Repr

/-- A failure of the library. -/
inductive Fault where
  /-- An option of the optimizer has a bad value. -/
  | descentOption (key : DescentKey) (why : OptionFault)
  /-- An option of the paged store has a bad value. -/
  | pagingOption (key : PagingKey) (why : OptionFault)
  | invalidWeight (rule : String) (weight : Single)
  | capacity (what : Resource) (index limit : Nat)
  /-- A term record could not be read. -/
  | corruptRecord (offset : Nat) (defect : RecordDefect)
  | unknownRule (id : RuleId)
  | file (what : FileFault)
  | storeClosed
  /-- The value of an atom is outside `[0, 1]` or not finite. -/
  | invalidValue (index : Nat) (value : Single)
  /-- The run was cancelled at the start of a pass. -/
  | cancelled (iteration : Nat)
  /-- A term mentions a variable that its assignment has no value for. -/
  | outOfBounds (index size : Nat)
  /-- Room is asked for that cannot be addressed. -/
  | noRoom (count limit : Nat)
deriving DecidableEq, Repr

/-! ## The wording -/

def Requirement.text : Requirement → String
  | .positive => "must be positive"
  | .openUnit => "must be in (0, 1)"
  | .halfOpenUnit => "must be in (0, 1]"
  | .nonNegative => "must be non-negative"

/-- The wording of a bad option value. -/
def OptionFault.message : OptionFault → String
  | .notANumber text defect => s!"'{text}' is not a number: {defect.message}"
  | .notACount text defect => s!"'{text}' is not a count: {defect.message}"
  | .notAnInteger text defect => s!"'{text}' is not an integer: {defect.message}"
  | .notABoolean text => s!"'{text}' is not a boolean"
  | .unsupportedExtension text => s!"unsupported SGD extension '{text}'"
  | .illegalSchedule text => s!"illegal learning schedule '{text}'"
  | .outOfRange requirement value => s!"{requirement.text}, got {value}"
  | .zeroCount => Requirement.positive.text

def Resource.text : Resource → String
  | .variableIndex => "variable index"
  | .recordByte => "record byte"
  | .termSize => "term size"
  | .term => "term"
  | .termIndex => "term index"

/-- The wording of a defect.  The entries of a term have eight bytes each. -/
def RecordDefect.message : RecordDefect → String
  | .short needed left => s!"need {needed} bytes, {left} left"
  | .flag byte => s!"flag byte {byte}"
  | .oversized size => s!"term size {size} too large"
  | .missingEntries size left => s!"term size {size} needs {size * 8} bytes, {left} left"
  | .negativeVariable raw => s!"negative variable index {raw}"
  | .unknownVariable v count => s!"variable index {v} past {count} variables"
  | .trailing count => s!"{count} trailing bytes after the last record"

/-- The wording of a file fault, without the reason that the system gives. -/
def FileFault.message : FileFault → String
  | .createPageDirectory path => s!"failed to create page directory {path}"
  | .createPage path => s!"failed to create page {path}"
  | .writePage path => s!"failed to write page {path}"
  | .openPage path => s!"failed to open page {path}"
  | .mapPage path => s!"failed to mmap page {path}"
  | .removePage path => s!"failed to remove page {path}"
  | .createVariableDirectory => "failed to create variable directory"
  | .createTemporary => "failed to create temp variable file"
  | .writeVariables => "failed to write variable file"
  | .flushVariables => "failed to sync variable file"
  | .renameVariables => "failed to rename variable file"
  | .mapVariables path => s!"failed to mmap {path}"
  | .invalidArchive => "failed to validate variable archive"
  | .lengthMismatch path values flags =>
    s!"variable archive {path}: {values} values but {flags} flags"

def Fault.message : Fault → String
  | .descentOption key why => s!"invalid configuration for '{key.text}': {why.message}"
  | .pagingOption key why => s!"invalid configuration for '{key.text}': {why.message}"
  | .invalidWeight rule weight =>
    s!"invalid configuration for 'rule '{rule}'': " ++
      s!"weight must be finite and non-negative, got {weight}"
  | .capacity what index limit => s!"{what.text} {index} exceeds capacity {limit}"
  | .corruptRecord offset defect => s!"corrupt term record at byte {offset}: {defect.message}"
  | .unknownRule id => s!"unknown rule: {id}"
  | .file what => what.message
  | .storeClosed => "term store used after close"
  | .invalidValue index value => s!"variable {index} has invalid value {value}"
  | .cancelled iteration => s!"optimization cancelled at iteration {iteration}"
  | .outOfBounds index size => s!"variable index {index} outside {size} values"
  | .noRoom count limit => s!"no room for {count}, at most {limit} can be addressed"

end HingeLoss

import ElmSuite.Files.Error
import ElmSuite.Problem
import ElmSuite.Text.Utf8

/-!
# Faults

All that can end a computation early: the problems that are reported to the
user, and the faults that are not, since no report is foreseen for them.
-/

namespace ElmSuite

/-- Why a computation ended early. -/
inductive Fault where
  /-- A problem with a report of its own. -/
  | problem (p : Problem)
  /-- The file system refused. -/
  | file (e : FileError)
  /-- Symbolic links lead back to themselves. -/
  | linkLoop (path : String)
  /-- The home directory of a user is not known. -/
  | unknownHome
  /-- A path or a variable holds the character `U+0000`. -/
  | embeddedNul
  /-- A name cannot be the last one of a path. -/
  | invalidName (name : String)
  /-- A path has no last name. -/
  | noName (path : Path)
  /-- An integer has more digits than are read. -/
  | tooManyDigits (digits : Nat)
  /-- An integer has more digits than are shown. -/
  | longInteger
  /-- A text with a surrogate that stands alone is to be encoded. -/
  | unencodable (flaw : CodePoints.Flaw)
  /-- A report format is not known. -/
  | unknownReport (name : String)
  /-- There are no tests to generate a program for. -/
  | noTests
  /-- There are modules without tests to generate a program for. -/
  | modulesWithoutTests (names : List String)
  /-- A file was not scanned. -/
  | notScanned (file : Path)
  /-- Bytes that should hold a text do not. -/
  | garbledText (flaw : Utf8.Flaw)
  /-- A variable cannot be set under this name. -/
  | invalidVariable
  deriving DecidableEq

namespace Fault

/-- The report on a fault, where there is one. -/
def message? : Fault → Option String
  | problem p => some p.message
  | file e => some e.message
  | linkLoop path => some ("Symlink loop from " ++ Text.quoted path)
  | unknownHome => some "Could not determine home directory."
  | embeddedNul => some "embedded null byte"
  | invalidName name => some ("Invalid name " ++ Text.quoted name)
  | noName path => some ("PosixPath(" ++ Text.quoted (toString path) ++ ") has an empty name")
  | tooManyDigits digits =>
    some ("Exceeds the limit (4300 digits) for integer string conversion: value has " ++
      toString digits ++ " digits; use sys.set_int_max_str_digits() to increase the limit")
  | longInteger =>
    some ("Exceeds the limit (4300 digits) for integer string conversion; " ++
      "use sys.set_int_max_str_digits() to increase the limit")
  | unencodable flaw => some flaw.message
  | unknownReport name => some (Text.quoted name ++ " is not a valid ReportFormat")
  | noTests => some "Cannot generate a test program without any tests"
  | modulesWithoutTests names =>
    some ("Modules without tests: " ++ String.intercalate ", " names)
  | notScanned _ => none
  | garbledText flaw => some flaw.message
  | invalidVariable => some "illegal environment variable name"

end Fault

end ElmSuite

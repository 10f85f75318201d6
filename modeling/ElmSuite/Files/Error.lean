import ElmSuite.Text.Quoted

/-!
# File errors

Why a file system refuses to do something with a path. Each reason has a number
and words of its own, and the report ends with the path at which the lookup
stopped, between quotes.
-/

namespace ElmSuite

/-- The reasons for which a file system refuses. -/
inductive FileErrorReason where
  | noEntry
  | badFormat
  | permissionDenied
  | alreadyExists
  | notDirectory
  | isDirectory
  | nameTooLong
  | tooManyLinks
  deriving DecidableEq, Repr

/-- A refusal, with the path it is about. -/
structure FileError where
  reason : FileErrorReason
  path : String
  deriving DecidableEq, Repr

namespace FileErrorReason

/-- The number of a reason. -/
def number : FileErrorReason → Nat
  | noEntry => 2
  | badFormat => 8
  | permissionDenied => 13
  | alreadyExists => 17
  | notDirectory => 20
  | isDirectory => 21
  | nameTooLong => 36
  | tooManyLinks => 40

/-- The words for a reason. -/
def words : FileErrorReason → String
  | noEntry => "No such file or directory"
  | badFormat => "Exec format error"
  | permissionDenied => "Permission denied"
  | alreadyExists => "File exists"
  | notDirectory => "Not a directory"
  | isDirectory => "Is a directory"
  | nameTooLong => "File name too long"
  | tooManyLinks => "Too many levels of symbolic links"

/-- Whether the reason says that the path leads nowhere, as against that it could not be looked
up. -/
def isAbsence : FileErrorReason → Bool
  | noEntry | notDirectory | tooManyLinks => true
  | _ => false

end FileErrorReason

/-- The report on a refusal. -/
def FileError.message (e : FileError) : String :=
  "[Errno " ++ toString e.reason.number ++ "] " ++ e.reason.words ++ ": " ++ Text.quoted e.path

end ElmSuite

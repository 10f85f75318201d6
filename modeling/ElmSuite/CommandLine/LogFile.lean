import ElmSuite.Files.Change
import ElmSuite.Files.Resolve
import ElmSuite.Run.Tool

/-!
# The log file

A run may keep its log in a file. The records are added at the end of the file
as they are made, a line each, so that what is written to the same file
meanwhile stands where it was written.
-/

namespace ElmSuite

/-- The line of a record. -/
def LogRecord.line (r : LogRecord) : String := "[" ++ r.level.name ++ "] " ++ r.message ++ "\n"

/-- The lines of records. -/
def logText (records : List LogRecord) : String := String.join (records.map LogRecord.line)

/-- A file that is open for the log. -/
structure LogFile where
  path : Path
  /-- The least level of the records it gets. -/
  level : LogLevel

namespace LogFile

/-- The absolute path of a log file: read from the working directory, with `..` undone in the text. -/
def fullPath (fs : FileSystem) (p : Path) : Option Path :=
  (fs.start? p.isAbsolute).map fun start =>
    ⟨if p.isAbsolute then p.anchor else .root, FileSystem.withoutUps (start ++ p.names)⟩

/-- Opens a log file, which is made with the directories above it if need be. -/
def opened (fs : FileSystem) (p : Path) (level : LogLevel) : Except Fault (FileSystem × LogFile) :=
  let made : Except Fault (FileSystem × LogFile) := do
    let fs ← fs.makeDirectories p.parent
    match fullPath fs p with
    | none => throw (.problem (.logFile p))
    | some path => return (← fs.appendText path "", ⟨path, level⟩)
  match made with
  | .error (.file _) => .error (.problem (.logFile p))
  | r => r

/-- The files after a record was made. -/
def add (file : LogFile) (fs : FileSystem) (r : LogRecord) : FileSystem :=
  if file.level.rank ≤ r.level.rank then (fs.appendText file.path r.line).toOption.getD fs else fs

/-- The files after an event. -/
def follow (file : LogFile) (fs : FileSystem) : RunEvent → FileSystem
  | .note r => file.add fs r
  | .wrote path text => (fs.writeTextWithParents path text).toOption.getD fs
  | _ => fs

/-- The files after a history, the log file being one of them. -/
def keep (file : LogFile) (fs : FileSystem) (history : List RunEvent) : FileSystem :=
  history.foldl file.follow fs

end LogFile

end ElmSuite

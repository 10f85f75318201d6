import ElmSuite.Fault
import ElmSuite.Files.Tree

/-!
# Looking up paths

A path is looked up name by name from the root or from the working directory.
A symbolic link on the way is followed, at most forty of them in one lookup, and
`..` leads to the directory that holds the one reached, wherever links led.
-/

namespace ElmSuite

/-- A file tree with the working directory of the process that uses it. -/
structure FileSystem where
  root : Node
  /-- The names that lead to the working directory, unless it was removed. -/
  workingDirectory : Option (List String)

namespace FileSystem

/-- The most links that are followed in one lookup. -/
def maxLinks : Nat := 40

/-- The most bytes a name may have. -/
def maxNameBytes : Nat := 255

/-- The most bytes a path may have. -/
def maxPathBytes : Nat := 4095

/-- Where a lookup ends. -/
inductive Arrival where
  /-- At a node. -/
  | found (names : List String)
  /-- In a directory that has no entry of the last name. -/
  | vacant (names : List String)
  deriving DecidableEq, Repr

/-- How far a lookup gets without following a link. -/
inductive Stride where
  | arrived (arrival : Arrival)
  /-- At a link in the directory `place`, with names left to look up. -/
  | atLink (place : List String) (target : String) (rest : List String)
  deriving DecidableEq, Repr

/-- The names in a text as it is written. A slash at the end asks for a directory, which the name `.`
at the end does too. -/
def writtenNames (text : String) : List String :=
  let names := (splitString '/' text).filter (· ≠ "")
  if text.toList.getLast? = some '/' then names ++ ["."] else names

/-- Looks names up from the directory that `place` leads to until there is a link to follow. A link
under the last name is followed only if `follow` is set. -/
def stride (root : Node) (follow : Bool) (place : List String) :
    List String → Except FileErrorReason Stride
  | [] => .ok (.arrived (.found place))
  | name :: rest =>
    match root.at? place with
    | none => .error .noEntry
    | some (.file ..) => .error .notDirectory
    | some (.link _) => .error .notDirectory
    | some (.dir entries) =>
      if name = "." then stride root follow place rest
      else if name = ".." then stride root follow place.dropLast rest
      else if maxNameBytes < name.utf8ByteSize then .error .nameTooLong
      else match entries.lookup name with
        | none => if rest = [] then .ok (.arrived (.vacant (place ++ [name]))) else .error .noEntry
        | some (.link target) =>
          if rest = [] ∧ !follow then .ok (.arrived (.found (place ++ [name])))
          else .ok (.atLink place target rest)
        | some _ => stride root follow (place ++ [name]) rest

/-- Looks names up, following at most `links` links. -/
def walk (root : Node) (follow : Bool) (links : Nat) (place names : List String) :
    Except FileErrorReason Arrival :=
  match stride root follow place names with
  | .error e => .error e
  | .ok (.arrived arrival) => .ok arrival
  | .ok (.atLink dir target rest) =>
    match links with
    | 0 => .error .tooManyLinks
    | links + 1 =>
      let start := if (Path.ofString target).isAbsolute then [] else dir
      walk root follow links start (writtenNames target ++ rest)

variable (fs : FileSystem)

/-- The names from which a lookup starts. -/
def start? (absolute : Bool) : Option (List String) :=
  if absolute then some [] else fs.workingDirectory

/-- Looks up names from the root or from the working directory. They are written in a text of
`length` bytes. -/
def lookUp (length : Nat) (absolute : Bool) (names : List String) (follow : Bool) :
    Except FileErrorReason Arrival :=
  if maxPathBytes < length then .error .nameTooLong
  else match fs.start? absolute with
    | none => .error .noEntry
    | some place => walk fs.root follow maxLinks place names

/-- Looks a path up. -/
def find (p : Path) (follow : Bool) : Except FileErrorReason Arrival :=
  fs.lookUp (toString p).utf8ByteSize p.isAbsolute p.names follow

/-- The node at which a lookup ends, with the names that lead to it. -/
def arrivedAt : Except FileErrorReason Arrival → Except FileErrorReason (List String × Node)
  | .error e => .error e
  | .ok (.vacant _) => .error .noEntry
  | .ok (.found names) =>
    match fs.root.at? names with
    | some node => .ok (names, node)
    | none => .error .noEntry

/-- The node that a path leads to, with the names that lead to it. -/
def status (p : Path) (follow : Bool) : Except FileErrorReason (List String × Node) :=
  fs.arrivedAt (fs.find p follow)

/-- The node that a text leads to, which is looked up as it is written: the name `.` and a slash at
the end ask for directories, and an empty text leads nowhere. -/
def writtenNode (text : String) : Except FileErrorReason Node :=
  if text = "" then .error .noEntry
  else (fs.arrivedAt (fs.lookUp text.utf8ByteSize (Path.ofString text).isAbsolute
    (writtenNames text) true)).map (·.2)

/-- Whether a path holds the character that no path can hold. -/
def hasNul (p : Path) : Bool := p.names.any fun n => n.toList.contains '\x00'

/-- Whether a path leads to a node of a kind. Not so when it leads nowhere; any other obstacle is an
error. -/
def leadsTo (kind : Node → Bool) (p : Path) : Except FileError Bool :=
  if hasNul p then .ok false
  else match fs.status p true with
    | .ok (_, node) => .ok (kind node)
    | .error e => if e.isAbsence then .ok false else .error ⟨e, toString p⟩

/-- Whether a path leads to a file. -/
def isFile (p : Path) : Except FileError Bool := fs.leadsTo Node.isFile p

/-- Whether a path leads to a directory. -/
def isDir (p : Path) : Except FileError Bool := fs.leadsTo Node.isDir p

/-- The node that a path leads to, if the lookup succeeds. -/
def node? (p : Path) : Option Node :=
  if hasNul p then none
  else match fs.status p true with
    | .ok (_, node) => some node
    | .error _ => none

/-- Whether there is a node at a path, be it a link that leads nowhere. -/
def hasEntry (p : Path) : Bool := !hasNul p && (fs.status p false).toBool

/-- The entries of the directory at a path, if there is one. -/
def entriesAt (p : Path) : List (String × Node) := ((fs.node? p).map Node.entries).getD []

/-- The bytes of the file at a path. -/
def read (p : Path) : Except Fault (List UInt8) :=
  if hasNul p then .error .embeddedNul
  else match fs.status p true with
    | .ok (_, .file content _) => .ok content
    | .ok _ => .error (.file ⟨.isDirectory, toString p⟩)
    | .error e => .error (.file ⟨e, toString p⟩)

end FileSystem

end ElmSuite

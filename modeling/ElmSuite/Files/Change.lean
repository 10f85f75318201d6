import ElmSuite.Files.Lookup

/-!
# Changing a file tree

Directories are made and files are written where a path leads. An obstacle is
reported with the path that was asked for.
-/

namespace ElmSuite.FileSystem

/-- Refuses a path that holds the character that no path can hold. -/
def checkPath (p : Path) : Except Fault Unit :=
  if hasNul p then .error .embeddedNul else .ok ()

/-- A file tree with a node put at a place. -/
def place (fs : FileSystem) (names : List String) (node : Node) : FileSystem :=
  { fs with root := fs.root.put names node }

/-- Makes a directory, whose parent has to exist and which must not exist itself. -/
def makeDirectory (fs : FileSystem) (p : Path) : Except FileError FileSystem :=
  match fs.find p false with
  | .error e => .error ⟨e, toString p⟩
  | .ok (.found _) => .error ⟨.alreadyExists, toString p⟩
  | .ok (.vacant names) => .ok (fs.place names .empty)

/-- Makes a directory with all directories above it that are missing. It may exist already. The
ancestors are tried from the nearest up to `height` of them. -/
def makeDirectoriesUpTo (height : Nat) (fs : FileSystem) (p : Path) :
    Except FileError FileSystem :=
  let settle (fs : FileSystem) (e : FileError) : Except FileError FileSystem :=
    match fs.isDir p with
    | .error e => .error e
    | .ok true => .ok fs
    | .ok false => .error e
  match fs.makeDirectory p with
  | .ok made => .ok made
  | .error e =>
    if e.reason = .noEntry then
      match height with
      | 0 => .error e
      | height + 1 =>
        if p.parent = p then .error e
        else match makeDirectoriesUpTo height fs p.parent with
          | .error e => .error e
          | .ok above =>
            match above.makeDirectory p with
            | .ok made => .ok made
            | .error e => if e.reason = .noEntry then .error e else settle above e
    else settle fs e

/-- Makes a directory with all directories above it that are missing. -/
def makeDirectories (fs : FileSystem) (p : Path) : Except Fault FileSystem := do
  checkPath p
  (makeDirectoriesUpTo p.names.length fs p).mapError .file

/-- Makes or replaces the file at a path. -/
def write (fs : FileSystem) (p : Path) (content : List UInt8) : Except Fault FileSystem := do
  checkPath p
  match fs.find p true with
  | .error e => .error (.file ⟨e, toString p⟩)
  | .ok (.vacant names) => .ok (fs.place names (.file content false))
  | .ok (.found names) =>
    match fs.root.at? names with
    | some (.file _ executable) => .ok (fs.place names (.file content executable))
    | _ => .error (.file ⟨.isDirectory, toString p⟩)

/-- Makes or replaces the file at a path that holds a text. -/
def writeText (fs : FileSystem) (p : Path) (text : String) : Except Fault FileSystem :=
  fs.write p text.toUTF8.toList

/-- Makes or replaces the file at a path, in a directory that is made if need be. -/
def writeTextWithParents (fs : FileSystem) (p : Path) (text : String) : Except Fault FileSystem := do
  (← fs.makeDirectories p.parent).writeText p text

/-- Adds a text at the end of the file at a path, which is made if need be. -/
def appendText (fs : FileSystem) (p : Path) (text : String) : Except Fault FileSystem :=
  let before := match fs.node? p with
    | some (.file content _) => content
    | _ => []
  fs.write p (before ++ text.toUTF8.toList)

/-- Makes the directory at a path the working directory. -/
def enter (fs : FileSystem) (p : Path) : Except Fault FileSystem := do
  checkPath p
  match fs.status p true with
  | .error e => .error (.file ⟨e, toString p⟩)
  | .ok (names, node) =>
    if node.isDir then .ok { fs with workingDirectory := some names }
    else .error (.file ⟨.notDirectory, toString p⟩)

/-- The working directory, unless it was removed. -/
def currentDirectory (fs : FileSystem) : Except Problem Path :=
  match fs.workingDirectory with
  | some names =>
    if (fs.root.at? names).isSome then .ok ⟨.root, names⟩ else .error .invalidWorkingDirectory
  | none => .error .invalidWorkingDirectory

end ElmSuite.FileSystem

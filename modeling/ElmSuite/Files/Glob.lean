import ElmSuite.Files.Lookup
import ElmSuite.Files.NamePattern

/-!
# Path patterns

A path whose names may be patterns stands for the paths in a file tree that fit
it. The name `**` stands for the place where it is looked up and for all that lies
below; only directories lead on to the names behind it. A name that begins with a
dot fits only a pattern that begins with one, and `**` passes over such names.
-/

namespace ElmSuite.FileSystem

variable (fs : FileSystem)

/-- Whether a name is hidden. -/
def isHidden (name : String) : Bool := name.toList.head? = some '.'

/-- The names in the directory at a path, those of directories only where `dirsOnly` is set. -/
def namesIn (dir : Path) (dirsOnly : Bool) : List String :=
  (fs.entriesAt dir).filterMap fun (name, _) =>
    if !dirsOnly || (fs.isDir (dir.child name)).toOption.getD false then some name else none

/-- The paths below a directory that pass through no hidden name, down to a depth. -/
def visibleBelow : Nat → Path → Bool → List Path
  | 0, _, _ => []
  | depth + 1, dir, dirsOnly =>
    ((fs.namesIn dir dirsOnly).filter (!isHidden ·)).flatMap fun name =>
      dir.child name :: visibleBelow depth (dir.child name) dirsOnly

/-- The paths that one name of a pattern leads to from a directory. A path cannot be deeper than it
may be long, which bounds the descent. -/
def expandName (name : String) (dirsOnly : Bool) (dir : Path) : Except Fault (List Path) :=
  if name = "**" then
    if hasNul dir then .error .embeddedNul
    else .ok (dir :: fs.visibleBelow maxPathBytes dir dirsOnly)
  else if NamePattern.isPattern name then
    if hasNul dir then .error .embeddedNul
    else .ok (((fs.namesIn dir dirsOnly).filter fun n =>
      (isHidden name || !isHidden n) && NamePattern.admits name n).map dir.child)
  else .ok (if fs.hasEntry (dir.child name) then [dir.child name] else [])

/-- The paths that the names of a pattern lead to from directories. -/
def expandNames : List String → List Path → Except Fault (List Path)
  | [], found => .ok found
  | name :: rest, dirs => do
    let next ← dirs.mapM (fs.expandName name !rest.isEmpty)
    expandNames rest next.flatten

/-- The paths that fit a pattern. -/
def expand (pattern : Path) : Except Fault (List Path) :=
  let literal := pattern.names.takeWhile (!NamePattern.isPattern ·)
  let rest := pattern.names.drop literal.length
  if rest = [] then .ok (if fs.hasEntry pattern then [pattern] else [])
  else fs.expandNames rest [⟨pattern.anchor, literal⟩]

end ElmSuite.FileSystem

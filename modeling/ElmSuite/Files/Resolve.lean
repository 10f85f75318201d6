import ElmSuite.Files.Lookup

/-!
# Canonical paths

The canonical path of a node is absolute and passes through no symbolic link.
It is found by going through a path name by name, putting the target in the
place of each link met; a link met while its own target is being resolved is
part of a loop.
-/

namespace ElmSuite.FileSystem

variable (fs : FileSystem)

/-- The directory above a place that was reached without links. Above a relative place that has no
name left there is the place `..`. -/
def above (place : Path) : Path :=
  match place.names.getLast? with
  | none => if place.isAbsolute then place else place.child ".."
  | some last => if last = ".." then place.child ".." else place.parent

/-- The node at a path, a link at its end not being followed. -/
def entryAt (p : Path) : Except Fault Node :=
  if hasNul p then .error .embeddedNul
  else match fs.status p false with
    | .ok (_, node) => .ok node
    | .error e => .error (.file ⟨e, toString p⟩)

/-- What comes of a link that is met while its own target is being resolved. The link is looked up as
a whole, which may fail for another reason than that it leads back to itself. -/
def loopFault (link : Path) : Fault :=
  match fs.status link true with
  | .error e => if e = .tooManyLinks then .linkLoop (toString link) else .file ⟨e, toString link⟩
  | .ok _ => .linkLoop (toString link)

/-- Goes through names from a place reached without links. Targets of links are resolved by
`resolveTarget`. -/
def resolveNames (resolveTarget : Path → Path → List String → Except Fault Path)
    (opened : List Path) (place : Path) : List String → Except Fault Path
  | [] => .ok place
  | name :: rest =>
    if name = ".." then resolveNames resolveTarget opened (above place) rest
    else
      let next := place.child name
      match fs.entryAt next with
      | .error e => .error e
      | .ok (.link target) =>
        if next ∈ opened then .error (fs.loopFault next)
        else
          let goal := Path.ofString target
          let start : Path := if goal.isAbsolute then ⟨.root, []⟩ else place
          match resolveTarget next start goal.names with
          | .error e => .error e
          | .ok reached => resolveNames resolveTarget opened reached rest
      | .ok _ => resolveNames resolveTarget opened next rest

/-- Goes through names, resolving links inside links `depth` deep. `opened` holds the links whose
targets are being resolved. -/
def resolveWithin : Nat → List Path → Path → List String → Except Fault Path
  | 0, opened, place, names =>
    resolveNames fs (fun link _ _ => .error (.linkLoop (toString link))) opened place names
  | depth + 1, opened, place, names =>
    resolveNames fs (fun link start rest => resolveWithin depth (link :: opened) start rest)
      opened place names

/-- How deep links can lie inside links. A link can be met by many spellings, since names can lead up
above the root, but no more often than there is room for `..` in a path. -/
def resolveDepth : Nat := maxPathBytes * (fs.root.linkCount + 1)

/-- A path without names that lead up, the text alone being looked at. -/
def withoutUps (names : List String) : List String :=
  names.foldl (fun kept n => if n = ".." then kept.dropLast else kept ++ [n]) []

/-- The absolute path of a place that was reached from the working directory. -/
def fromWorkingDirectory (reached : Path) : Path :=
  if reached.isAbsolute then reached
  else ⟨.root, withoutUps (fs.workingDirectory.getD [] ++ reached.names)⟩

/-- Where a resolution starts. -/
def resolveStart (p : Path) : Path := ⟨if p.isAbsolute then .root else .here, []⟩

/-- The canonical path of what a path leads to, which has to exist. -/
def resolve (p : Path) : Except Fault Path :=
  match fs.resolveWithin fs.resolveDepth [] (resolveStart p) p.names with
  | .error e => .error e
  | .ok reached => .ok (fs.fromWorkingDirectory reached)

/-- A path with the names behind it that are not gone through. -/
def leave (p : Path) (names : List String) : Path := ⟨p.anchor, p.names ++ names⟩

/-- Goes through names like `resolveNames`, but what cannot be looked up is taken for no link, and
nothing more is looked up from where a link is met inside itself: then the result is on the left. -/
def approachNames (approachTarget : Path → Path → List String → Path ⊕ Path)
    (opened : List Path) (place : Path) : List String → Path ⊕ Path
  | [] => .inr place
  | name :: rest =>
    if name = ".." then approachNames approachTarget opened (above place) rest
    else
      let next := place.child name
      match fs.entryAt next with
      | .ok (.link target) =>
        if next ∈ opened then .inl (leave next rest)
        else
          let goal := Path.ofString target
          let start : Path := if goal.isAbsolute then ⟨.root, []⟩ else place
          match approachTarget next start goal.names with
          | .inl reached => .inl (leave reached rest)
          | .inr reached => approachNames approachTarget opened reached rest
      | _ => approachNames approachTarget opened next rest

/-- Goes through names like `resolveWithin`, whatever cannot be looked up on the way. -/
def approachWithin : Nat → List Path → Path → List String → Path ⊕ Path
  | 0, opened, place, names =>
    approachNames fs (fun link _ rest => .inl (leave link rest)) opened place names
  | depth + 1, opened, place, names =>
    approachNames fs (fun link start rest => approachWithin depth (link :: opened) start rest)
      opened place names

/-- The absolute path that comes of following the links that can be looked up. -/
def approached (p : Path) : Path :=
  let reached := (fs.approachWithin fs.resolveDepth [] (resolveStart p) p.names).elim id id
  if reached.isAbsolute then ⟨.root, withoutUps reached.names⟩ else fs.fromWorkingDirectory reached

/-- The canonical path of what a path leads to, or what comes nearest to it if that cannot be told. -/
def resolved (p : Path) : Path :=
  match fs.resolve p with
  | .ok q => q
  | .error _ => fs.approached p

end ElmSuite.FileSystem

import ElmSuite.Proofs.Files.Straight

/-!
# File systems that grow

Making directories and writing a file add nodes to a file system and change no file but
the one written. So directories stay directories, canonical paths stay canonical, and
other files are read as before.
-/

namespace ElmSuite.FileSystem

open Node

variable {fs after : FileSystem}

/-- A file system in which only nodes were added, and no file but the one at a place was changed. -/
structure Growth (place : List String) (fs after : FileSystem) : Prop where
  tree : Grows place fs.root after.root
  workingDirectory : after.workingDirectory = fs.workingDirectory

theorem Growth.trans {place : List String} {middle : FileSystem} (h : Growth place fs middle)
    (h' : Growth place middle after) : Growth place fs after :=
  ⟨h.tree.trans h'.tree, h'.workingDirectory.trans h.workingDirectory⟩

section Growth

variable {place : List String}

theorem Growth.find (h : Growth place fs after) {p : Path} {follow : Bool} {names : List String}
    (hfind : fs.find p follow = .ok (.found names)) : after.find p follow = .ok (.found names) :=
  h.tree.find h.workingDirectory hfind

theorem Growth.isDir (h : Growth place fs after) {p : Path} (hdir : fs.isDir p = .ok true) :
    after.isDir p = .ok true := by
  obtain ⟨hnul, names, es, hfind, hat⟩ := isDir_eq_ok_true hdir
  obtain ⟨es', hat'⟩ := h.tree.exists_dir hat
  exact isDir_of_find hnul (h.find hfind) hat'

/-- What is seen at a path is seen there afterwards. -/
theorem Growth.exists_entryAt (h : Growth place fs after) {p : Path} {node : Node}
    (hentry : fs.entryAt p = .ok node) :
    ∃ node', after.entryAt p = .ok node' ∧ node'.outline = node.outline := by
  obtain ⟨hnul, names, hfind, hat⟩ := entryAt_eq_ok hentry
  have hseen : fs.root.outlineAt names = some node.outline := by rw [outlineAt, hat]; rfl
  obtain ⟨node', hat', houtline⟩ := Option.map_eq_some_iff.mp (h.tree.kept _ _ hseen)
  exact ⟨node', entryAt_of_find hnul (h.find hfind) hat', houtline⟩

theorem Growth.entryAt (h : Growth place fs after) {p : Path} {node : Node}
    (hentry : fs.entryAt p = .ok node) (hlink : ∀ target, node ≠ .link target) :
    ∃ node', after.entryAt p = .ok node' ∧ ∀ target, node' ≠ .link target := by
  obtain ⟨node', hentry', houtline⟩ := h.exists_entryAt hentry
  refine ⟨node', hentry', ?_⟩
  rintro target rfl
  cases node with
  | link target' => exact hlink target' rfl
  | file content executable => cases houtline
  | dir es => cases houtline

theorem Growth.entryAt_of_link (h : Growth place fs after) {p : Path} {target : String}
    (hentry : fs.entryAt p = .ok (.link target)) : after.entryAt p = .ok (.link target) := by
  obtain ⟨node', hentry', houtline⟩ := h.exists_entryAt hentry
  cases node' with
  | link target' => rw [hentry', show target' = target from Node.link.inj houtline]
  | file | dir => cases houtline

theorem Direct.of_growth {p : Path} (hp : Direct fs p) (h : Growth place fs after) :
    Direct after p := by
  induction hp with
  | root => exact .root
  | child _ hname hup hentry hlink ih =>
    obtain ⟨node', hentry', hlink'⟩ := h.entryAt hentry hlink
    exact .child ih hname hup hentry' hlink'

/-- A file at a straight path other than that of the place is read as before. -/
theorem Growth.read (h : Growth place fs after) {names : List String} {content : List UInt8}
    (hstraight : Straight fs.root names) (hne : names ≠ place)
    (hread : fs.read ⟨.root, names⟩ = .ok content) : after.read ⟨.root, names⟩ = .ok content := by
  obtain ⟨hnul, found, executable, hfind, hat⟩ := read_eq_ok hread
  obtain rfl : found = names := by
    rcases find_of_straight hstraight hfind with heq | heq
    · exact Arrival.found.inj heq
    · cases heq
  exact read_of_find hnul (h.find hfind) (h.tree.files _ _ _ hne hat)

end Growth

/-! ## Making directories -/

theorem growth_of_makeDirectory {p : Path} (h : fs.makeDirectory p = .ok after)
    (place : List String) : Growth place fs after := by
  rw [makeDirectory] at h
  match hfind : fs.find p false with
  | .error e => simp [hfind] at h
  | .ok (.found names) => simp [hfind] at h
  | .ok (.vacant names) =>
    simp only [hfind, Except.ok.injEq] at h
    subst h
    exact ⟨grows_of_vacant .empty rfl nofun hfind place, rfl⟩

/-- Looking whether there is a directory changes nothing. -/
theorem growth_of_settle {p : Path} {e : FileError}
    (h : (match fs.isDir p with
      | .error e => .error e
      | .ok true => .ok fs
      | .ok false => .error e : Except FileError FileSystem) = .ok after)
    (place : List String) : Growth place fs after := by
  split at h
  · cases h
  · exact Except.ok.inj h ▸ ⟨.refl place _, rfl⟩
  · cases h

theorem growth_of_makeDirectoriesUpTo {height : Nat} {p : Path}
    (h : makeDirectoriesUpTo height fs p = .ok after) (place : List String) :
    Growth place fs after := by
  induction height generalizing fs p after with
  | zero =>
    rw [makeDirectoriesUpTo] at h
    split at h
    · next made hmade => exact growth_of_makeDirectory (Except.ok.inj h ▸ hmade) place
    · split at h
      · cases h
      · exact growth_of_settle h place
  | succ height ih =>
    rw [makeDirectoriesUpTo] at h
    split at h
    · next made hmade => exact growth_of_makeDirectory (Except.ok.inj h ▸ hmade) place
    · split at h
      · dsimp only at h
        split at h
        · cases h
        · split at h
          · cases h
          · next above habove =>
            have hgrowth := ih habove
            split at h
            · next made hmade =>
              exact hgrowth.trans (growth_of_makeDirectory (Except.ok.inj h ▸ hmade) place)
            · split at h
              · cases h
              · exact hgrowth.trans (growth_of_settle h place)
      · exact growth_of_settle h place

theorem growth_of_makeDirectories {p : Path} (h : fs.makeDirectories p = .ok after)
    (place : List String) : Growth place fs after := by
  rw [makeDirectories, checkPath] at h
  split at h
  · cases h
  · cases hmade : makeDirectoriesUpTo p.names.length fs p with
    | error e =>
      rw [hmade] at h
      cases h
    | ok made =>
      rw [hmade] at h
      exact growth_of_makeDirectoriesUpTo (Except.ok.inj h ▸ hmade) place

/-! ## Writing a file -/

/-- Writing a file at a straight path, with the directories above it, changes no other file. -/
theorem growth_of_writeTextWithParents {names : List String} {text : String}
    (hstraight : Straight fs.root names)
    (h : fs.writeTextWithParents ⟨.root, names⟩ text = .ok after) : Growth names fs after := by
  unfold writeTextWithParents at h
  match hmade : fs.makeDirectories (Path.parent ⟨.root, names⟩) with
  | .error e => simp [hmade, bind, Except.bind] at h
  | .ok made =>
    rw [hmade] at h
    have hgrowth := growth_of_makeDirectories hmade names
    obtain ⟨place, executable, rfl, hgrows, hfind⟩ := grows_of_write h
    obtain rfl : place = names := by
      have hplace := hstraight.of_grows hgrowth.tree
      rcases hfind with hfind | hfind
      · rcases find_of_straight hplace hfind with heq | heq
        · cases heq
        · exact Arrival.vacant.inj heq
      · rcases find_of_straight hplace hfind with heq | heq
        · exact Arrival.found.inj heq
        · cases heq
    exact hgrowth.trans ⟨hgrows, rfl⟩

end ElmSuite.FileSystem

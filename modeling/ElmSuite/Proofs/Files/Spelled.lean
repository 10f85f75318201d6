import ElmSuite.Proofs.Files.Resolution

/-!
# Places as they are spelled

A relative path is resolved without a look at the working directory: what is reached is spelled
from there, by names that lead up and then by names that lead down, and the names of the working
directory are put in front of it at the very end. What is spelled leads to one place of the tree.
It can be too long to be looked up where the path of that place is not, and that is all that can
keep a node from being found by what it is spelled.
-/

namespace ElmSuite.FileSystem

open Node

variable {fs : FileSystem} {p q : Path} {name : String} {node : Node} {place wd : List String}

/-! ## Places -/

/-- Names that lead to a node that is no link. -/
structure IsPlace (root : Node) (place : List String) : Prop where
  isName : ∀ name ∈ place, Path.IsName name
  up_not_mem : ".." ∉ place
  node : ∃ node, root.at? place = some node ∧ ∀ target, node ≠ .link target

/-- Whether names lead to the directory in which a process works. -/
structure WorksIn (fs : FileSystem) (wd : List String) : Prop where
  directory : fs.workingDirectory = some wd
  isPlace : IsPlace fs.root wd
  isDir : ∃ es, fs.root.at? wd = some (.dir es)

theorem exists_dir_of_at?_append {root : Node} (h : root.at? (place ++ [name]) = some node) :
    ∃ es, root.at? place = some (.dir es) := by
  obtain ⟨above, habove, hbelow⟩ := Option.bind_eq_some_iff.mp (root.at?_append place _ ▸ h)
  cases above with
  | dir es => exact ⟨es, habove⟩
  | file | link =>
    rw [Node.at?_cons] at hbelow
    cases hbelow

theorem exists_dir_of_dropLast {root : Node} {es : List (String × Node)}
    (h : root.at? place = some (.dir es)) : ∃ above, root.at? place.dropLast = some (.dir above) := by
  rcases List.eq_nil_or_concat' place with rfl | ⟨front, last, rfl⟩
  · exact ⟨es, h⟩
  · rw [List.dropLast_concat]
    exact exists_dir_of_at?_append h

theorem IsPlace.root (root : Node) (h : ∀ target, root ≠ .link target) : IsPlace root [] :=
  ⟨nofun, nofun, root, root.at?_nil, h⟩

theorem IsPlace.child {root : Node} (h : IsPlace root place) (hname : Path.IsName name)
    (hup : name ≠ "..") (hnode : root.at? (place ++ [name]) = some node)
    (hlink : ∀ target, node ≠ .link target) : IsPlace root (place ++ [name]) where
  isName := by
    rw [List.forall_mem_append]
    exact ⟨h.isName, List.forall_mem_singleton.mpr hname⟩
  up_not_mem := by simpa [Ne.symm hup] using h.up_not_mem
  node := ⟨node, hnode, hlink⟩

theorem IsPlace.dropLast {root : Node} (h : IsPlace root place) : IsPlace root place.dropLast where
  isName name hname := h.isName name (List.dropLast_subset _ hname)
  up_not_mem hup := h.up_not_mem (List.dropLast_subset _ hup)
  node := by
    obtain ⟨node, hnode, hlink⟩ := h.node
    rcases List.eq_nil_or_concat' place with rfl | ⟨front, last, rfl⟩
    · exact ⟨node, hnode, hlink⟩
    · rw [List.dropLast_concat]
      obtain ⟨es, hdir⟩ := exists_dir_of_at?_append hnode
      exact ⟨_, hdir, nofun⟩

theorem IsPlace.straight {root : Node} (h : IsPlace root place) : Straight root place where
  down name hname := ⟨(h.isName name hname).ne_dot, fun hup => h.up_not_mem (hup ▸ hname)⟩
  noLink front hne hfront target hlink := by
    obtain ⟨rest, rfl⟩ := hfront
    obtain ⟨node, hnode, hend⟩ := h.node
    rw [root.at?_append, hlink, Option.bind_some] at hnode
    cases rest with
    | nil =>
      rw [Node.at?_nil] at hnode
      exact hend target (Option.some.inj hnode).symm
    | cons name rest =>
      rw [Node.at?_cons] at hnode
      cases hnode

/-! ## What is spelled -/

/-- A path that a resolution has reached without links. A path from the working directory leads up
first, and never looks at what is there. -/
inductive Spelled (fs : FileSystem) : Path → Prop
  | root : Spelled fs ⟨.root, []⟩
  | here {wd : List String} (h : WorksIn fs wd) : Spelled fs ⟨.here, []⟩
  | up {p : Path} (h : Spelled fs p) (hrelative : p.isAbsolute = false)
      (hups : ∀ name ∈ p.names, name = "..") : Spelled fs (p.child "..")
  | child {p : Path} {name : String} {node : Node} (h : Spelled fs p) (hname : Path.IsName name)
      (hup : name ≠ "..") (hentry : fs.entryAt (p.child name) = .ok node)
      (hlink : ∀ target, node ≠ .link target) : Spelled fs (p.child name)

/-- The names of the place that a path spells. -/
def placeOf (fs : FileSystem) (p : Path) : List String := (fs.fromWorkingDirectory p).names

theorem placeOf_child (hup : name ≠ "..") : fs.placeOf (p.child name) = fs.placeOf p ++ [name] := by
  cases habsolute : p.isAbsolute with
  | true =>
    have hchild : (p.child name).isAbsolute = true := habsolute
    rw [placeOf, placeOf, fromWorkingDirectory, fromWorkingDirectory, if_pos habsolute,
      if_pos hchild]
    rfl
  | false =>
    have hchild : (p.child name).isAbsolute = false := habsolute
    simp only [placeOf, fromWorkingDirectory, habsolute, hchild, Bool.false_eq_true, if_false]
    rw [Path.child, ← List.append_assoc, withoutUps_append_singleton, if_neg hup]

theorem placeOf_up (hrelative : p.isAbsolute = false) :
    fs.placeOf (p.child "..") = (fs.placeOf p).dropLast := by
  have hchild : (p.child "..").isAbsolute = false := hrelative
  simp only [placeOf, fromWorkingDirectory, hrelative, hchild, Bool.false_eq_true, if_false]
  rw [Path.child, ← List.append_assoc, withoutUps_append_singleton, if_pos rfl]

theorem WorksIn.placeOf_here (h : WorksIn fs wd) : fs.placeOf ⟨.here, []⟩ = wd := by
  rw [placeOf, fromWorkingDirectory, if_neg (by decide), h.directory]
  simpa using withoutUps_of_not_mem h.isPlace.up_not_mem

theorem Spelled.above (h : Spelled fs p) :
    Spelled fs (above p) ∧ fs.placeOf (FileSystem.above p) = (fs.placeOf p).dropLast := by
  cases h with
  | root => exact ⟨.root, rfl⟩
  | here h => exact ⟨.up (.here h) rfl nofun, placeOf_up rfl⟩
  | @up p h hrelative hups =>
    have habove : FileSystem.above (p.child "..") = (p.child "..").child ".." := by
      simp [FileSystem.above, Path.child]
    rw [habove]
    refine ⟨.up (.up h hrelative hups) hrelative ?_, placeOf_up hrelative⟩
    rw [Path.child, List.forall_mem_append]
    exact ⟨hups, by simp⟩
  | @child p name node h hname hup hentry hlink =>
    have habove : FileSystem.above (p.child name) = p := by
      simp [FileSystem.above, Path.child, Path.parent, hup]
    rw [habove, placeOf_child hup, List.dropLast_concat]
    exact ⟨h, rfl⟩

/-- What only leads up from the working directory leads to a directory. -/
theorem Spelled.exists_dir (h : Spelled fs p) (hrelative : p.isAbsolute = false)
    (hups : ∀ name ∈ p.names, name = "..") : ∃ es, fs.root.at? (fs.placeOf p) = some (.dir es) := by
  induction h with
  | root => cases hrelative
  | here h =>
    rw [h.placeOf_here]
    exact h.isDir
  | up h habove hfront ih =>
    obtain ⟨es, hdir⟩ := ih habove hfront
    rw [placeOf_up habove]
    exact exists_dir_of_dropLast hdir
  | child h hname hup => exact absurd (hups _ (by simp [Path.child])) hup

/-! ## Looking up what is spelled -/

/-- Whether names behind a path are looked up from the place that it spells. -/
def LeadsToPlace (fs : FileSystem) (p : Path) : Prop :=
  ∃ start, fs.start? p.isAbsolute = some start ∧ ∀ follow rest,
    stride fs.root follow start (p.names ++ rest) = stride fs.root follow (fs.placeOf p) rest

namespace LeadsToPlace

/-- What is found under a name is the entry of the place that is spelled. -/
theorem entry_of_entryAt (h : fs.LeadsToPlace p) (hname : Path.IsName name) (hup : name ≠ "..")
    (hentry : fs.entryAt (p.child name) = .ok node) :
    (∃ es, fs.root.at? (fs.placeOf p) = some (.dir es)) ∧ ¬maxNameBytes < name.utf8ByteSize ∧
      fs.root.at? (fs.placeOf p ++ [name]) = some node := by
  obtain ⟨start, hstart, hstride⟩ := h
  obtain ⟨-, found, hfind, hnode⟩ := entryAt_eq_ok hentry
  obtain ⟨-, start', hstart', hwalk⟩ := find_eq_ok_iff.mp hfind
  obtain rfl : start = start' := Option.some.inj (hstart.symm.trans hstart')
  rcases walk_eq_ok hwalk with hlast | ⟨_, _, _, _, -, hlast, -⟩
  · rw [Path.child, hstride] at hlast
    obtain ⟨hdir, hshort, heq⟩ := stride_last_eq_ok hname.ne_dot hup hlast
    split at heq <;> cases heq
    exact ⟨hdir, hshort, hnode⟩
  · -- No link is followed under the last name.
    rw [Path.child, hstride] at hlast
    obtain ⟨-, -, heq⟩ := stride_last_eq_ok hname.ne_dot hup hlast
    cases heq

theorem child (h : fs.LeadsToPlace p) (hname : Path.IsName name) (hup : name ≠ "..")
    (hentry : fs.entryAt (p.child name) = .ok node) (hlink : ∀ target, node ≠ .link target) :
    fs.LeadsToPlace (p.child name) := by
  obtain ⟨⟨es, hdir⟩, hshort, hnode⟩ := h.entry_of_entryAt hname hup hentry
  obtain ⟨start, hstart, hstride⟩ := h
  refine ⟨start, hstart, fun follow rest => ?_⟩
  rw [Path.child, List.append_assoc, List.singleton_append, hstride,
    stride_cons_of_node hdir hname.ne_dot hup hshort hnode hlink, ← Path.child, placeOf_child hup]

theorem up (h : fs.LeadsToPlace p) (hrelative : p.isAbsolute = false)
    (hdir : ∃ es, fs.root.at? (fs.placeOf p) = some (.dir es)) :
    fs.LeadsToPlace (p.child "..") := by
  obtain ⟨es, hdir⟩ := hdir
  obtain ⟨start, hstart, hstride⟩ := h
  refine ⟨start, hstart, fun follow rest => ?_⟩
  rw [Path.child, List.append_assoc, List.singleton_append, hstride, stride_cons hdir,
    if_neg (by decide), if_pos rfl, ← Path.child, placeOf_up hrelative]

end LeadsToPlace

theorem Spelled.leadsToPlace (h : Spelled fs p) : fs.LeadsToPlace p := by
  induction h with
  | root => exact ⟨[], rfl, fun _ _ => rfl⟩
  | here h =>
    refine ⟨_, h.directory, fun _ _ => ?_⟩
    rw [h.placeOf_here]
    rfl
  | up h hrelative hups ih => exact ih.up hrelative (h.exists_dir hrelative hups)
  | child h hname hup hentry hlink ih => exact ih.child hname hup hentry hlink

/-- What a path spells is the place of a node. -/
theorem Spelled.isPlace (hroot : ∀ target, fs.root ≠ .link target) (h : Spelled fs p) :
    IsPlace fs.root (fs.placeOf p) := by
  induction h with
  | root => exact .root fs.root hroot
  | here h =>
    rw [h.placeOf_here]
    exact h.isPlace
  | up h hrelative hups ih =>
    rw [placeOf_up hrelative]
    exact ih.dropLast
  | child h hname hup hentry hlink ih =>
    rw [placeOf_child hup]
    exact ih.child hname hup (h.leadsToPlace.entry_of_entryAt hname hup hentry).2.2 hlink

/-- What can keep a node from being found by what it is spelled. -/
inductive Unspellable : Fault → Prop
  /-- The path or its last name is too long. -/
  | tooLong (path : String) : Unspellable (.file ⟨.nameTooLong, path⟩)
  | nul : Unspellable .embeddedNul

/-- A node is found by what it is spelled, unless the path is such as none can be looked up. -/
theorem Spelled.entryAt_child (h : Spelled fs p) (hname : Path.IsName name) (hup : name ≠ "..")
    (hnode : fs.root.at? (fs.placeOf p ++ [name]) = some node) :
    fs.entryAt (p.child name) = .ok node ∨
      ∃ e, fs.entryAt (p.child name) = .error e ∧ Unspellable e := by
  obtain ⟨es, hdir⟩ := exists_dir_of_at?_append hnode
  obtain ⟨start, hstart, hstride⟩ := h.leadsToPlace
  cases hnul : hasNul (p.child name) with
  | true => exact .inr ⟨_, by rw [entryAt, if_pos hnul], .nul⟩
  | false =>
    by_cases hlong : maxPathBytes < (toString (p.child name)).utf8ByteSize
    · exact .inr ⟨_, entryAt_of_find_error hnul (by rw [find, lookUp, if_pos hlong]), .tooLong _⟩
    have hstart' : fs.start? (p.child name).isAbsolute = some start := hstart
    have hwalk (follow : Bool) : fs.find (p.child name) follow =
        walk fs.root follow maxLinks start (p.names ++ [name]) := by
      rw [find, lookUp, if_neg hlong, hstart']
      rfl
    by_cases hshort : maxNameBytes < name.utf8ByteSize
    · refine .inr ⟨_, entryAt_of_find_error hnul ?_, .tooLong _⟩
      rw [hwalk, walk.eq_def, hstride, stride_cons hdir, if_neg hname.ne_dot, if_neg hup,
        if_pos hshort]
    · refine .inl (entryAt_of_find hnul (walk_of_arrived maxLinks ?_ ▸ hwalk false) hnode)
      rw [hstride, stride_last hdir hname.ne_dot hup hshort, hnode]
      rfl

/-! ## What is resolved is spelled -/

theorem Spelled.targetStart (h : Spelled fs p) (target : String) :
    Spelled fs (targetStart p target) := by
  rw [FileSystem.targetStart]
  split
  · exact .root
  · exact h

theorem Spelled.of_resolves {depth : Nat} {opened : List Path} {names : List String}
    (h : fs.Resolves depth opened p names q) (hp : Spelled fs p)
    (hnames : ∀ name ∈ names, Path.IsName name) : Spelled fs q := by
  induction h with
  | arrived => exact hp
  | up h ih => exact ih hp.above.1 (List.forall_mem_cons.mp hnames).2
  | down hup hentry hlink h ih =>
    obtain ⟨hname, hrest⟩ := List.forall_mem_cons.mp hnames
    exact ih (hp.child hname hup hentry hlink) hrest
  | follow hup hentry hnew htarget h ihTarget ih =>
    have hreached := ihTarget (hp.targetStart _) fun _ hn => Path.isName_of_mem_ofString hn
    exact ih hreached (List.forall_mem_cons.mp hnames).2

theorem Spelled.resolveStart (h : WorksIn fs wd) (p : Path) : Spelled fs (resolveStart p) := by
  rw [FileSystem.resolveStart]
  split
  · exact .root
  · exact .here h

theorem Spelled.anchor (h : Spelled fs p) : p.anchor ≠ .doubleRoot := by
  induction h with
  | root | here => exact nofun
  | up _ _ _ ih | child _ _ _ _ _ ih => exact ih

theorem Spelled.fromWorkingDirectory_eq (h : Spelled fs p) :
    fs.fromWorkingDirectory p = ⟨.root, fs.placeOf p⟩ := by
  rw [placeOf, fromWorkingDirectory]
  split
  · next habsolute =>
    have hanchor : p.anchor = .root := by
      cases hanchor : p.anchor with
      | root => rfl
      | here => simp [Path.isAbsolute, hanchor] at habsolute
      | doubleRoot => exact absurd hanchor h.anchor
    rw [← hanchor]
  · rfl

/-- What comes nearest to a canonical path is absolute too. -/
theorem exists_approached_eq (fs : FileSystem) (p : Path) :
    ∃ names, fs.approached p = ⟨.root, names⟩ := by
  rw [approached]
  split
  · exact ⟨_, rfl⟩
  · next hrelative =>
    rw [fromWorkingDirectory, if_neg hrelative]
    exact ⟨_, rfl⟩

/-- **The canonical path of a path**, read from the root or from the working directory, is made of
the names that lead to a node, none of which leads up or to a link. -/
theorem WorksIn.isPlace_of_resolve (h : WorksIn fs wd) (hnames : ∀ name ∈ p.names, Path.IsName name)
    (hresolve : fs.resolve p = .ok q) : q = ⟨.root, q.names⟩ ∧ IsPlace fs.root q.names := by
  obtain ⟨reached, hreached, rfl⟩ := resolve_eq_ok_iff.mp hresolve
  have hspelled := Spelled.of_resolves hreached (.resolveStart h p) hnames
  rw [hspelled.fromWorkingDirectory_eq]
  refine ⟨rfl, hspelled.isPlace ?_⟩
  rintro target hlink
  obtain ⟨es, hdir⟩ := h.isDir
  rw [hlink] at hdir
  cases wd with
  | nil => cases hdir
  | cons name rest => cases hdir

end ElmSuite.FileSystem

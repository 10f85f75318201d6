import Mathlib.Tactic.SplitIfs
import ElmSuite.Files.Change
import ElmSuite.Proofs.Files.Links

/-!
# Reading what was written

A file that was written is read back as it was written: a tree to which files and
directories are added gives each lookup that got somewhere the end that it had.
-/

namespace ElmSuite

namespace Node

/-- What a lookup sees of a node: whether it is a file, a directory or a link, and where a link
leads. -/
def outline : Node → Node
  | file _ _ => file [] false
  | link target => link target
  | dir _ => empty

/-- What a lookup sees where names lead. -/
def outlineAt (root : Node) (names : List String) : Option Node := (root.at? names).map outline

theorem at?_cons (node : Node) (name : String) (rest : List String) :
    node.at? (name :: rest) = (node.entry? name).bind fun child => child.at? rest := rfl

theorem outlineAt_nil (root : Node) : root.outlineAt [] = some root.outline := by
  rw [outlineAt, at?_nil]
  rfl

theorem outlineAt_cons (root : Node) (name : String) (rest : List String) :
    root.outlineAt (name :: rest) = (root.entry? name).bind fun child => child.outlineAt rest := by
  rw [outlineAt, at?_cons, Option.map_bind]
  rfl

/-- A node that has an entry is a directory. -/
theorem outline_of_entry? {node child : Node} {name : String} (h : node.entry? name = some child) :
    node.outline = empty := by
  cases node with
  | dir es => rfl
  | file content executable => cases h
  | link target => cases h

/-- Nothing lies below a node without entries. -/
theorem outlineAt_of_entries {node : Node} (h : node.entries = []) (name : String)
    (rest : List String) : node.outlineAt (name :: rest) = none := by
  rw [outlineAt_cons, entry?, h]
  rfl

theorem entries_of_file {node : Node} (h : node.isFile = true) : node.entries = [] := by
  cases node with
  | file content executable => rfl
  | dir es => cases h
  | link target => cases h

theorem outline_of_file {node : Node} (h : node.isFile = true) : node.outline = file [] false := by
  cases node with
  | file content executable => rfl
  | dir es => cases h
  | link target => cases h

theorem entry?_put (tree node : Node) (name other : String) (rest : List String) :
    Node.entry? (tree.put (name :: rest) node) other =
      if other = name then some (((tree.entry? name).getD empty).put rest node)
      else tree.entry? other := by
  rw [put, entry?, entries, lookup_setEntry]
  rfl

/-- Putting a node without entries into a directory, where there is none or another one, changes what
is seen at its own place only. -/
theorem outlineAt_put {root node : Node} {above : List String} {last : String}
    {es : List (String × Node)} (hnode : node.entries = []) (habove : root.at? above = some (.dir es))
    (hold : ∀ old, es.lookup last = some old → old.entries = []) {names : List String}
    (hne : names ≠ above ++ [last]) :
    (root.put (above ++ [last]) node).outlineAt names = root.outlineAt names := by
  induction above generalizing root names with
  | nil =>
    rw [at?_nil, Option.some.injEq] at habove
    subst habove
    cases names with
    | nil => rw [outlineAt_nil, outlineAt_nil]; rfl
    | cons name rest =>
      rw [List.nil_append, outlineAt_cons, outlineAt_cons, entry?_put]
      split
      · next heq =>
        subst heq
        -- Nothing is seen below the node, before or after.
        cases rest with
        | nil => exact absurd rfl hne
        | cons below rest =>
          rw [put, Option.bind_some, outlineAt_of_entries hnode]
          cases hlookup : entry? (.dir es) name with
          | none => rfl
          | some old => exact (outlineAt_of_entries (hold old hlookup) below rest).symm
      · rfl
  | cons first above ih =>
    rw [at?_cons, Option.bind_eq_some_iff] at habove
    obtain ⟨child, hchild, habove⟩ := habove
    cases names with
    | nil =>
      rw [outlineAt_nil, outlineAt_nil, outline_of_entry? hchild]
      rfl
    | cons name rest =>
      rw [List.cons_append, outlineAt_cons, outlineAt_cons, entry?_put]
      split
      · next heq =>
        subst heq
        rw [hchild, Option.bind_some, Option.bind_some, Option.getD_some]
        refine ih habove fun hrest => hne ?_
        rw [hrest, List.cons_append]
      · rfl

/-- Putting a node into a directory, where there is none with entries, leaves all files but the one at
its own place as they are. -/
theorem at?_put_of_file {root node : Node} {above : List String} {last : String}
    {es : List (String × Node)} (habove : root.at? above = some (.dir es))
    (hold : ∀ old, es.lookup last = some old → old.entries = []) {names : List String}
    (hne : names ≠ above ++ [last]) {content : List UInt8} {executable : Bool}
    (hfile : root.at? names = some (.file content executable)) :
    (root.put (above ++ [last]) node).at? names = some (.file content executable) := by
  induction above generalizing root names with
  | nil =>
    rw [at?_nil, Option.some.injEq] at habove
    subst habove
    cases names with
    | nil => cases hfile
    | cons name rest =>
      rw [List.nil_append, at?_cons, entry?_put]
      split
      · next heq =>
        subst heq
        cases rest with
        | nil => exact absurd rfl hne
        | cons below rest =>
          rw [at?_cons, Option.bind_eq_some_iff] at hfile
          obtain ⟨old, hlookup, hfile⟩ := hfile
          rw [at?_cons, entry?, hold old hlookup] at hfile
          cases hfile
      · exact hfile
  | cons first above ih =>
    rw [at?_cons, Option.bind_eq_some_iff] at habove
    obtain ⟨child, hchild, habove⟩ := habove
    cases names with
    | nil =>
      rw [at?_nil, Option.some.injEq] at hfile
      subst hfile
      cases hchild
    | cons name rest =>
      rw [List.cons_append, at?_cons, entry?_put]
      split
      · next heq =>
        subst heq
        rw [at?_cons, hchild, Option.bind_some] at hfile
        rw [hchild, Option.bind_some, Option.getD_some]
        refine ih habove (fun hrest => hne ?_) hfile
        rw [hrest, List.cons_append]
      · exact hfile

end Node

namespace FileSystem

open Node

/-- What a tree shares with one that nodes were added to: all that is seen in it is seen in the other,
no link is seen there that was not, there are no fewer links, and no file has another content but the
one at a place. -/
structure Grows (place : List String) (root after : Node) : Prop where
  kept : ∀ names seen, root.outlineAt names = some seen → after.outlineAt names = some seen
  links : ∀ names target, after.outlineAt names = some (.link target) →
    root.outlineAt names = some (.link target)
  count : root.linkCount ≤ after.linkCount
  files : ∀ names content executable, names ≠ place →
    root.at? names = some (.file content executable) →
    after.at? names = some (.file content executable)

theorem Grows.refl (place : List String) (root : Node) : Grows place root root :=
  ⟨fun _ _ h => h, fun _ _ h => h, Nat.le_refl _, fun _ _ _ _ h => h⟩

theorem Grows.trans {place : List String} {root middle after : Node} (h : Grows place root middle)
    (h' : Grows place middle after) : Grows place root after where
  kept names seen hseen := h'.kept names seen (h.kept names seen hseen)
  links names target hseen := h.links names target (h'.links names target hseen)
  count := Nat.le_trans h.count h'.count
  files names content executable hne hfile :=
    h'.files names content executable hne (h.files names content executable hne hfile)

theorem grows_put {root node : Node} {above : List String} {last : String}
    {es : List (String × Node)} (hnode : node.entries = []) (hlink : ∀ target, node ≠ .link target)
    (habove : root.at? above = some (.dir es))
    (hold : ∀ old, es.lookup last = some old → old.entries = [] ∧ old.outline = node.outline) :
    Grows (above ++ [last]) root (root.put (above ++ [last]) node) where
  kept names seen h := by
    by_cases hne : names = above ++ [last]
    · subst hne
      rw [outlineAt, at?_append, habove, Option.bind_some, at?_cons, entry?, entries] at h
      cases hlookup : es.lookup last with
      | none => simp [hlookup] at h
      | some old =>
        rw [hlookup, Option.bind_some, at?_nil, Option.map_some, Option.some.injEq] at h
        rw [outlineAt, at?_put, Option.map_some, ← h, (hold old hlookup).2]
    · rw [outlineAt_put hnode habove (fun old hlookup => (hold old hlookup).1) hne]
      exact h
  links names target h := by
    by_cases hne : names = above ++ [last]
    · subst hne
      rw [outlineAt, at?_put, Option.map_some, Option.some.injEq] at h
      cases node with
      | link target' => exact absurd rfl (hlink target')
      | file content executable => cases h
      | dir es => cases h
    · rwa [outlineAt_put hnode habove (fun old hlookup => (hold old hlookup).1) hne] at h
  count := linkCount_le_put habove fun old hlookup => by
    obtain ⟨hentries, houtline⟩ := hold old hlookup
    refine linksFrom_eq_zero hentries fun target heq => ?_
    subst heq
    cases node with
    | link target' => exact hlink target' rfl
    | file | dir => cases houtline
  files names content executable hne h :=
    at?_put_of_file habove (fun old hlookup => (hold old hlookup).1) hne h

/-- Where nothing was, no content is another. -/
theorem Grows.of_vacant {place : List String} {root after : Node} (h : Grows place root after)
    (hvacant : root.at? place = none) (other : List String) : Grows other root after where
  kept := h.kept
  links := h.links
  count := h.count
  files names content executable _ hfile := by
    refine h.files names content executable (fun heq => ?_) hfile
    rw [heq, hvacant] at hfile
    cases hfile

/-- An entry is found by the names that lead to it. -/
theorem lookup_eq_at? {root : Node} {place : List String} {es : List (String × Node)}
    (h : root.at? place = some (.dir es)) (name : String) :
    es.lookup name = root.at? (place ++ [name]) := by
  rw [at?_append, h, Option.bind_some, at?_cons, entry?, entries]
  cases es.lookup name with
  | none => rfl
  | some node => rw [Option.bind_some, at?_nil]

/-! ## Lookups in a tree that has grown -/

/-- Where a lookup ends if there may be something at a place that was vacant. -/
def Arrival.seenIn (after : Node) : Arrival → Arrival
  | .found names => .found names
  | .vacant names => if (after.at? names).isSome then .found names else .vacant names

/-- How far a lookup gets if there may be something at a place that was vacant. -/
def Stride.seenIn (after : Node) : Stride → Stride
  | .arrived arrival => .arrived (arrival.seenIn after)
  | .atLink above target rest => .atLink above target rest

/-- Names are looked up from directories only. -/
theorem exists_dir_of_stride_cons {root : Node} {follow : Bool} {start rest : List String}
    {name : String} {s : Stride} (h : stride root follow start (name :: rest) = .ok s) :
    ∃ es, root.at? start = some (.dir es) := by
  rw [stride] at h
  match hnode : root.at? start with
  | none => simp [hnode] at h
  | some (.file _ _) => simp [hnode] at h
  | some (.link _) => simp [hnode] at h
  | some (.dir es) => exact ⟨es, rfl⟩

/-- How a lookup goes on from a directory under its next name, by what is seen there. -/
def strideInto (root : Node) (follow : Bool) (start : List String) (name : String)
    (rest : List String) : Option Node → Except FileErrorReason Stride
  | none => if rest = [] then .ok (.arrived (.vacant (start ++ [name]))) else .error .noEntry
  | some (.link target) =>
    if rest = [] ∧ !follow then .ok (.arrived (.found (start ++ [name])))
    else .ok (.atLink start target rest)
  | some _ => stride root follow (start ++ [name]) rest

theorem stride_cons {root : Node} {follow : Bool} {start rest : List String} {name : String}
    {es : List (String × Node)} (h : root.at? start = some (.dir es)) :
    stride root follow start (name :: rest) =
      if name = "." then stride root follow start rest
      else if name = ".." then stride root follow start.dropLast rest
      else if maxNameBytes < name.utf8ByteSize then .error .nameTooLong
      else strideInto root follow start name rest (root.outlineAt (start ++ [name])) := by
  rw [stride, h]
  dsimp only
  rw [lookup_eq_at? h name, outlineAt]
  match root.at? (start ++ [name]) with
  | none => rfl
  | some (.file _ _) => rfl
  | some (.link _) => rfl
  | some (.dir _) => rfl

/-- A name that leads to a node which is no link leads on from there. -/
theorem stride_cons_of_node {root node : Node} {follow : Bool} {start rest : List String}
    {name : String} {es : List (String × Node)} (hdir : root.at? start = some (.dir es))
    (hself : name ≠ ".") (hup : name ≠ "..") (hlong : ¬maxNameBytes < name.utf8ByteSize)
    (hnode : root.at? (start ++ [name]) = some node) (hlink : ∀ target, node ≠ .link target) :
    stride root follow start (name :: rest) = stride root follow (start ++ [name]) rest := by
  rw [stride_cons hdir, if_neg hself, if_neg hup, if_neg hlong, Node.outlineAt, hnode]
  cases node with
  | file | dir => rfl
  | link target => exact absurd rfl (hlink target)

/-- A lookup ends without following a link, or goes on from the first link that it follows. -/
theorem walk_eq_ok {root : Node} {follow : Bool} {links : Nat} {start names : List String}
    {a : Arrival} (h : walk root follow links start names = .ok a) :
    stride root follow start names = .ok (.arrived a) ∨
      ∃ left above target rest, links = left + 1 ∧
        stride root follow start names = .ok (.atLink above target rest) ∧
        walk root follow left (if (Path.ofString target).isAbsolute then [] else above)
          (writtenNames target ++ rest) = .ok a := by
  rw [walk.eq_def] at h
  match hstride : stride root follow start names, links with
  | .error e, _ => simp [hstride] at h
  | .ok (.arrived arrival), _ =>
    simp only [hstride, Except.ok.injEq] at h
    exact .inl (by rw [h])
  | .ok (.atLink above target rest), 0 => simp [hstride] at h
  | .ok (.atLink above target rest), left + 1 =>
    simp only [hstride] at h
    exact .inr ⟨left, above, target, rest, rfl, rfl, h⟩

theorem walk_of_arrived {root : Node} {follow : Bool} {start names : List String} {a : Arrival}
    (links : Nat) (h : stride root follow start names = .ok (.arrived a)) :
    walk root follow links start names = .ok a := by
  rw [walk.eq_def, h]

theorem walk_of_atLink {root : Node} {follow : Bool} {start names above rest : List String}
    {target : String} (links : Nat)
    (h : stride root follow start names = .ok (.atLink above target rest)) :
    walk root follow (links + 1) start names =
      walk root follow links (if (Path.ofString target).isAbsolute then [] else above)
        (writtenNames target ++ rest) := by
  rw [walk.eq_def, h]

section Grows

variable {root after : Node} {place : List String}

theorem Grows.exists_dir (h : Grows place root after) {names : List String}
    {es : List (String × Node)} (hdir : root.at? names = some (.dir es)) :
    ∃ es', after.at? names = some (.dir es') := by
  have hseen := h.kept names empty (by rw [outlineAt, hdir]; rfl)
  rw [outlineAt, Option.map_eq_some_iff] at hseen
  obtain ⟨node, hnode, houtline⟩ := hseen
  cases node with
  | dir es' => exact ⟨es', hnode⟩
  | file content executable => cases houtline
  | link target => cases houtline

/-- A lookup that gets somewhere gets there in a tree that has grown, but that a vacant place may be
vacant no more. -/
theorem Grows.stride {follow : Bool} (h : Grows place root after) {names start : List String}
    {s : Stride} (hstride : stride root follow start names = .ok s) :
    FileSystem.stride after follow start names = .ok (s.seenIn after) := by
  induction names generalizing start with
  | nil =>
    cases hstride
    rfl
  | cons name rest ih =>
    obtain ⟨es, hdir⟩ := exists_dir_of_stride_cons hstride
    obtain ⟨es', hdir'⟩ := h.exists_dir hdir
    rw [stride_cons hdir] at hstride
    rw [stride_cons hdir']
    split_ifs at hstride ⊢ with hself hup hlong
    · exact ih hstride
    · exact ih hstride
    · match hseen : root.outlineAt (start ++ [name]) with
      | some (.file _ _) =>
        rw [h.kept _ _ hseen]
        rw [hseen] at hstride
        exact ih hstride
      | some (.dir _) =>
        rw [h.kept _ _ hseen]
        rw [hseen] at hstride
        exact ih hstride
      | some (.link target) =>
        rw [h.kept _ _ hseen]
        rw [hseen] at hstride
        dsimp only [strideInto] at hstride ⊢
        split_ifs at hstride ⊢
        · cases hstride
          rfl
        · cases hstride
          rfl
      | none =>
        rw [hseen] at hstride
        dsimp only [strideInto] at hstride
        split_ifs at hstride with hlast
        cases hstride
        subst hlast
        -- What may be there now is no link.
        rw [Stride.seenIn, Arrival.seenIn, outlineAt]
        match hnow : after.at? (start ++ [name]) with
        | none => rfl
        | some (.file _ _) => rfl
        | some (.dir _) => rfl
        | some (.link target) =>
          rw [h.links _ target (by rw [outlineAt, hnow]; rfl)] at hseen
          cases hseen

theorem Grows.walk {follow : Bool} (h : Grows place root after) {links : Nat}
    {start names : List String} {a : Arrival} (hwalk : walk root follow links start names = .ok a) :
    FileSystem.walk after follow links start names = .ok (a.seenIn after) := by
  induction links generalizing start names with
  | zero =>
    rcases walk_eq_ok hwalk with hstride | ⟨left, above, target, rest, hlinks, -, -⟩
    · exact walk_of_arrived 0 (h.stride hstride)
    · cases hlinks
  | succ links ih =>
    rcases walk_eq_ok hwalk with hstride | ⟨left, above, target, rest, hlinks, hstride, hrest⟩
    · exact walk_of_arrived _ (h.stride hstride)
    · cases hlinks
      rw [walk_of_atLink links (h.stride hstride)]
      exact ih hrest

end Grows

/-- A lookup ends in vacancy only below a directory that lacks the last name. -/
theorem exists_dir_of_stride_vacant {root : Node} {follow : Bool} {names start place : List String}
    (h : stride root follow start names = .ok (.arrived (.vacant place))) :
    ∃ above last es, place = above ++ [last] ∧ root.at? above = some (.dir es) ∧
      es.lookup last = none := by
  induction names generalizing start with
  | nil => cases h
  | cons name rest ih =>
    obtain ⟨es, hdir⟩ := exists_dir_of_stride_cons h
    rw [stride_cons hdir] at h
    split_ifs at h with hself hup hlong
    · exact ih h
    · exact ih h
    · match hseen : root.outlineAt (start ++ [name]) with
      | some (.file _ _) =>
        rw [hseen] at h
        exact ih h
      | some (.dir _) =>
        rw [hseen] at h
        exact ih h
      | some (.link target) =>
        rw [hseen, strideInto] at h
        split_ifs at h <;> cases h
      | none =>
        rw [hseen, strideInto] at h
        split_ifs at h
        cases h
        rw [outlineAt, Option.map_eq_none_iff] at hseen
        exact ⟨start, name, es, rfl, hdir, by rw [lookup_eq_at? hdir, hseen]⟩

theorem exists_dir_of_walk_vacant {root : Node} {follow : Bool} {links : Nat}
    {names start place : List String}
    (h : walk root follow links start names = .ok (.vacant place)) :
    ∃ above last es, place = above ++ [last] ∧ root.at? above = some (.dir es) ∧
      es.lookup last = none := by
  induction links generalizing start names with
  | zero =>
    rcases walk_eq_ok h with hstride | ⟨left, above, target, rest, hlinks, -, -⟩
    · exact exists_dir_of_stride_vacant hstride
    · cases hlinks
  | succ links ih =>
    rcases walk_eq_ok h with hstride | ⟨left, above, target, rest, hlinks, -, hrest⟩
    · exact exists_dir_of_stride_vacant hstride
    · cases hlinks
      exact ih hrest

/-! ## Reading what was written -/

variable {fs after : FileSystem} {p : Path}

theorem find_eq_ok_iff {follow : Bool} {a : Arrival} :
    fs.find p follow = .ok a ↔ ¬maxPathBytes < (toString p).utf8ByteSize ∧
      ∃ start, fs.start? p.isAbsolute = some start ∧
        walk fs.root follow maxLinks start p.names = .ok a := by
  unfold find lookUp
  split_ifs with hlong
  · simp [hlong]
  · cases fs.start? p.isAbsolute with
    | none => simp
    | some start => simp [hlong]

/-- Where a path led, it leads in a tree that has grown, but that a vacant place may be vacant no
more. -/
theorem Grows.find {place : List String} (h : Grows place fs.root after.root)
    (hstart : after.workingDirectory = fs.workingDirectory) {follow : Bool} {a : Arrival}
    (hfind : fs.find p follow = .ok a) : after.find p follow = .ok (a.seenIn after.root) := by
  obtain ⟨hlong, start, hfrom, hwalk⟩ := find_eq_ok_iff.mp hfind
  have hfrom' : after.start? p.isAbsolute = some start := by
    rw [start?, hstart]
    exact hfrom
  exact find_eq_ok_iff.mpr ⟨hlong, start, hfrom', h.walk hwalk⟩

/-- What a write does: it fills a vacancy, or replaces a file. -/
theorem write_eq_ok {content : List UInt8} (h : fs.write p content = .ok after) :
    hasNul p = false ∧ ∃ names executable, after = fs.place names (.file content executable) ∧
      (fs.find p true = .ok (.vacant names) ∨ fs.find p true = .ok (.found names) ∧
        ∃ old, fs.root.at? names = some old ∧ old.isFile = true) := by
  unfold write checkPath at h
  cases hnul : hasNul p with
  | true => simp [hnul, bind, Except.bind] at h
  | false =>
    simp only [hnul, Bool.false_eq_true, if_false, bind, Except.bind] at h
    refine ⟨rfl, ?_⟩
    match hfind : fs.find p true with
    | .error e => simp [hfind] at h
    | .ok (.vacant names) =>
      simp only [hfind, Except.ok.injEq] at h
      exact ⟨names, false, h.symm, .inl rfl⟩
    | .ok (.found names) =>
      simp only [hfind] at h
      match hold : fs.root.at? names with
      | none => simp [hold] at h
      | some (.link _) => simp [hold] at h
      | some (.dir _) => simp [hold] at h
      | some (.file before executable) =>
        simp only [hold, Except.ok.injEq] at h
        exact ⟨names, executable, h.symm, .inr ⟨rfl, _, hold, rfl⟩⟩

theorem exists_dir_of_find_vacant {follow : Bool} {place : List String}
    (h : fs.find p follow = .ok (.vacant place)) :
    ∃ above last es, place = above ++ [last] ∧ fs.root.at? above = some (.dir es) ∧
      es.lookup last = none := by
  obtain ⟨-, start, -, hwalk⟩ := find_eq_ok_iff.mp h
  exact exists_dir_of_walk_vacant hwalk

/-- A tree grows by what is put where a lookup found nothing. -/
theorem grows_of_vacant {place : List String} {follow : Bool} (node : Node)
    (hnode : node.entries = []) (hlink : ∀ target, node ≠ .link target)
    (h : fs.find p follow = .ok (.vacant place)) (other : List String) :
    Grows other fs.root (fs.root.put place node) := by
  obtain ⟨above, last, es, rfl, habove, hlast⟩ := exists_dir_of_find_vacant h
  refine (grows_put hnode hlink habove fun old hold => ?_).of_vacant ?_ other
  · rw [hlast] at hold
    cases hold
  · rw [← lookup_eq_at? habove, hlast]

/-- A tree whose whole is a file, which is replaced. -/
theorem grows_of_whole {root node : Node} (hnode : node.isFile = true) (hold : root.isFile = true) :
    Grows [] root node where
  kept names seen h := by
    cases names with
    | nil =>
      rw [outlineAt_nil, outline_of_file hold] at h
      rwa [outlineAt_nil, outline_of_file hnode]
    | cons name rest =>
      rw [outlineAt_of_entries (entries_of_file hold)] at h
      cases h
  links names target h := by
    cases names with
    | nil =>
      rw [outlineAt_nil, outline_of_file hnode] at h
      cases h
    | cons name rest =>
      rw [outlineAt_of_entries (entries_of_file hnode)] at h
      cases h
  count := by
    rw [linkCount_of_entries (entries_of_file hold)]
    exact Nat.zero_le _
  files names content executable hne h := by
    cases names with
    | nil => exact absurd rfl hne
    | cons name rest =>
      rw [at?_cons, entry?, entries_of_file hold] at h
      cases h

theorem grows_of_file {root node old : Node} {names : List String} (hnode : node.isFile = true)
    (hat : root.at? names = some old) (hold : old.isFile = true) :
    Grows names root (root.put names node) := by
  rcases names.eq_nil_or_concat with rfl | ⟨above, last, rfl⟩
  · rw [at?_nil, Option.some.injEq] at hat
    subst hat
    exact grows_of_whole hnode hold
  · rw [List.concat_eq_append] at hat ⊢
    have hentry := hat
    rw [at?_append, Option.bind_eq_some_iff] at hentry
    obtain ⟨above', habove, hlast⟩ := hentry
    match above' with
    | .file _ _ => cases hlast
    | .link _ => cases hlast
    | .dir es =>
      refine grows_put (entries_of_file hnode) ?_ habove fun other hother => ?_
      · rintro target rfl
        cases hnode
      · rw [lookup_eq_at? habove, hat, Option.some.injEq] at hother
        subst hother
        exact ⟨entries_of_file hold, by rw [outline_of_file hold, outline_of_file hnode]⟩

/-- A tree grows by a file that is written, which replaces no other content than that at its place. -/
theorem grows_of_write {content : List UInt8} (h : fs.write p content = .ok after) :
    ∃ place executable, after = fs.place place (.file content executable) ∧
      Grows place fs.root after.root ∧
      (fs.find p true = .ok (.vacant place) ∨ fs.find p true = .ok (.found place)) := by
  obtain ⟨-, place, executable, rfl, hfind⟩ := write_eq_ok h
  refine ⟨place, executable, rfl, ?_, hfind.imp_right And.left⟩
  rcases hfind with hvacant | ⟨-, old, hat, hold⟩
  · exact grows_of_vacant (.file content executable) rfl nofun hvacant place
  · exact grows_of_file rfl hat hold

/-- What is written is read back. -/
theorem read_write {content : List UInt8} (h : fs.write p content = .ok after) :
    after.read p = .ok content := by
  obtain ⟨hnul, -⟩ := write_eq_ok h
  obtain ⟨place, executable, rfl, hgrows, hfind⟩ := grows_of_write h
  have hnode : (fs.place place (.file content executable)).root.at? place =
      some (.file content executable) := at?_put ..
  have hfound : (fs.place place (.file content executable)).find p true = .ok (.found place) := by
    rcases hfind with hvacant | hfound
    · rw [hgrows.find rfl hvacant, Arrival.seenIn, hnode]
      rfl
    · rw [hgrows.find rfl hfound, Arrival.seenIn]
  simp only [read, hnul, Bool.false_eq_true, if_false, status, hfound, arrivedAt, hnode]

theorem read_writeTextWithParents {text : String} (h : fs.writeTextWithParents p text = .ok after) :
    after.read p = .ok text.toUTF8.toList := by
  unfold writeTextWithParents at h
  match hmade : fs.makeDirectories p.parent with
  | .error e => simp [hmade, bind, Except.bind] at h
  | .ok made =>
    rw [hmade] at h
    exact read_write h

end FileSystem

end ElmSuite

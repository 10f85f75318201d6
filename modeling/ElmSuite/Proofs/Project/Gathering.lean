import ElmSuite.Project.TestFiles
import ElmSuite.Proofs.Files.Plain
import ElmSuite.Proofs.Results

/-!
# Gathering test files

What each step of gathering test files yields, or why it gives up. The files that several arguments
stand for are those that each of them stands for. All that can go wrong is that a path cannot be
looked up, but for a pattern with the character `U+0000` in the names before it, which is refused in
another way.
-/

namespace ElmSuite.TestFiles

open FileSystem

variable {fs : FileSystem} {root base dir : Path}

/-! ## Ignored names -/

/-- Where no name has a line feed, a file is left out if one of the directories that lead to it is
ignored. -/
theorem isIgnored_eq_true_iff {names : List String} (hlines : ∀ name ∈ names, '\n' ∉ name.toList) :
    isIgnored names false = true ↔ ∃ name ∈ names.dropLast, name ∈ ignoredNames := by
  induction names with
  | nil => simp [isIgnored]
  | cons name rest ih =>
    obtain ⟨hname, hrest⟩ := List.forall_mem_cons.mp hlines
    cases rest with
    | nil => simp [isIgnored]
    | cons next rest =>
      have hcontains : name.toList.contains '\n' = false := by simpa using hname
      rw [isIgnored, hcontains, List.dropLast_cons_cons]
      simp [ih hrest]

/-! ## The Elm files below a directory -/

/-- The nodes below the directory at a path, each with the names that lead to it. -/
def listed (fs : FileSystem) (dir : Path) : List (List String × Node) :=
  ((fs.node? dir).map Node.descendants).getD []

/-- Whether a node that is listed is looked at for being an Elm file. -/
def isNamed (names : List String) : Bool := names.getLast?.any isElmName

/-- Whether a node below a directory cannot be looked at. -/
def Refused (fs : FileSystem) (dir : Path) (d : List String × Node) (e : FileError) : Prop :=
  checkNode fs (pathBelow dir d.1) d.2 = .error e ∨
    isNamed d.1 = true ∧ fs.isFile (pathBelow dir d.1) = .error e

/-- The names of the nodes below a directory that are looked at for being Elm files. -/
def named (fs : FileSystem) (dir : Path) : List (List String) :=
  (listed fs dir).filterMap fun d => if isNamed d.1 then some d.1 else none

theorem mem_named {names : List String} : names ∈ named fs dir ↔
    ∃ d ∈ listed fs dir, isNamed d.1 = true ∧ d.1 = names := by
  rw [named, List.mem_filterMap]
  simp only [Option.ite_none_right_eq_some, Option.some.injEq]

theorem inDirectory_eq (fs : FileSystem) (dir : Path) : inDirectory fs dir =
    (listed fs dir).forM (fun d => (checkNode fs (pathBelow dir d.1) d.2).mapError Fault.file) >>=
      fun _ => (named fs dir).filterM (fun names =>
          (fs.isFile (pathBelow dir names)).mapError Fault.file) >>= fun files =>
        pure ((files.filter (!isIgnored · false)).map fun names => fs.resolved (pathBelow dir names)) :=
  rfl

/-- A directory yields the files with the name of an Elm file that are not left out, unless something
below it cannot be looked at. -/
theorem inDirectory_cases (fs : FileSystem) (dir : Path) :
    (∃ files, inDirectory fs dir = .ok files ∧ (∀ d ∈ listed fs dir, ∀ e, ¬Refused fs dir d e) ∧
        ∀ p, p ∈ files ↔ ∃ d ∈ listed fs dir, isNamed d.1 = true ∧
          fs.isFile (pathBelow dir d.1) = .ok true ∧ isIgnored d.1 false = false ∧
          p = fs.resolved (pathBelow dir d.1)) ∨
      ∃ d ∈ listed fs dir, ∃ e, Refused fs dir d e ∧ inDirectory fs dir = .error (.file e) := by
  rw [inDirectory_eq]
  rcases forM_cases (fun d => (checkNode fs (pathBelow dir d.1) d.2).mapError Fault.file)
    (listed fs dir) with ⟨hok, hchecked⟩ | ⟨d, hd, e', hde, herror⟩
  · rw [hok]
    rcases filterM_cases (fun names => (fs.isFile (pathBelow dir names)).mapError Fault.file)
      (named fs dir) with ⟨kept, hkept, htold, hmem⟩ | ⟨names, hnames, e', hne, herror⟩
    · refine .inl ⟨_, by rw [hkept]; rfl, ?_, fun p => ?_⟩
      · rintro d hd e (hrefused | ⟨hnamed, hrefused⟩)
        · have hcheck := mapError_eq_ok_iff.mp (hchecked d hd)
          cases hrefused.symm.trans hcheck
        · obtain ⟨b, hb⟩ := htold d.1 (mem_named.mpr ⟨d, hd, hnamed, rfl⟩)
          cases hrefused.symm.trans (mapError_eq_ok_iff.mp hb)
      · simp only [List.mem_map, List.mem_filter, hmem, mem_named, mapError_eq_ok_iff,
          Bool.not_eq_true']
        constructor
        · rintro ⟨_, ⟨⟨⟨d, hd, hnamed, rfl⟩, hfile⟩, hkept⟩, rfl⟩
          exact ⟨d, hd, hnamed, hfile, hkept, rfl⟩
        · rintro ⟨d, hd, hnamed, hfile, hkept, rfl⟩
          exact ⟨d.1, ⟨⟨⟨d, hd, hnamed, rfl⟩, hfile⟩, hkept⟩, rfl⟩
    · obtain ⟨d, hd, hnamed, rfl⟩ := mem_named.mp hnames
      obtain ⟨e, he, rfl⟩ := mapError_eq_error_iff.mp hne
      exact .inr ⟨d, hd, e, .inr ⟨hnamed, he⟩, by rw [herror]; rfl⟩
  · obtain ⟨e, he, rfl⟩ := mapError_eq_error_iff.mp hde
    exact .inr ⟨d, hd, e, .inl he, by rw [herror]; rfl⟩

/-! ## What can go wrong -/

/-- Whether a path is a pattern with the character `U+0000` in a name before its first pattern. -/
def NulBeforePattern (p : Path) : Prop :=
  ∃ front name rest, p.names = front ++ name :: rest ∧
    (∀ n ∈ front, NamePattern.isPattern n = false) ∧ NamePattern.isPattern name = true ∧
    hasNul ⟨p.anchor, front⟩ = true

/-- Whether no entry of a tree has the character `U+0000` in its name. -/
def NulFree (root : Node) : Prop :=
  ∀ place es, root.at? place = some (.dir es) → ∀ e ∈ es, '\x00' ∉ e.1.toList

theorem exists_find_of_node? {p : Path} {node : Node} (h : fs.node? p = some node) :
    ∃ place, fs.find p true = .ok (.found place) ∧ fs.root.at? place = some node := by
  rw [node?] at h
  split at h
  · cases h
  · rw [status] at h
    cases hfind : fs.find p true with
    | error e => simp [hfind, arrivedAt] at h
    | ok arrival =>
      cases arrival with
      | vacant place => simp [hfind, arrivedAt] at h
      | found place =>
        refine ⟨place, rfl, ?_⟩
        cases hat : fs.root.at? place with
        | none => simp [hfind, arrivedAt, hat] at h
        | some node' => simpa [hfind, arrivedAt, hat] using h

/-- The names in a directory are those of entries of the tree. -/
theorem nul_not_mem_of_mem_namesIn (htree : NulFree fs.root) {dirsOnly : Bool} {name : String}
    (h : name ∈ fs.namesIn dir dirsOnly) : '\x00' ∉ name.toList := by
  obtain ⟨e, he, hname⟩ := List.mem_filterMap.mp h
  obtain rfl : e.1 = name := by
    simp only [Option.ite_none_right_eq_some, Option.some.injEq] at hname
    exact hname.2
  rw [entriesAt] at he
  cases hnode : fs.node? dir with
  | none => simp [hnode] at he
  | some node =>
    obtain ⟨place, -, hat⟩ := exists_find_of_node? hnode
    rw [hnode] at he
    cases node with
    | file | link => cases he
    | dir es => exact htree place es hat e he

theorem hasNul_of_mem_visibleBelow (htree : NulFree fs.root) {depth : Nat} {dirsOnly : Bool}
    {p : Path} (hdir : hasNul dir = false) (h : p ∈ fs.visibleBelow depth dir dirsOnly) :
    hasNul p = false := by
  induction depth generalizing dir with
  | zero => cases h
  | succ depth ih =>
    rw [visibleBelow] at h
    obtain ⟨name, hname, hp⟩ := List.mem_flatMap.mp h
    have hchild := hasNul_child hdir
      (nul_not_mem_of_mem_namesIn htree (List.mem_of_mem_filter hname))
    rcases List.mem_cons.mp hp with rfl | hp
    · exact hchild
    · exact ih hchild hp

/-- A name of a pattern leads on from a directory whose path holds no `U+0000`, to such paths. -/
theorem exists_expandName (htree : NulFree fs.root) (name : String) (dirsOnly : Bool)
    (hdir : hasNul dir = false) :
    ∃ next, fs.expandName name dirsOnly dir = .ok next ∧ ∀ p ∈ next, hasNul p = false := by
  rw [expandName]
  simp only [hdir, Bool.false_eq_true, if_false]
  split
  · refine ⟨_, rfl, List.forall_mem_cons.mpr ⟨hdir, fun p hp => ?_⟩⟩
    exact hasNul_of_mem_visibleBelow htree hdir hp
  · split
    · refine ⟨_, rfl, fun p hp => ?_⟩
      obtain ⟨n, hn, rfl⟩ := List.mem_map.mp hp
      exact hasNul_child hdir (nul_not_mem_of_mem_namesIn htree (List.mem_of_mem_filter hn))
    · refine ⟨_, rfl, fun p hp => ?_⟩
      split at hp
      · next hentry =>
        obtain rfl := List.mem_singleton.mp hp
        rw [hasEntry, Bool.and_eq_true, Bool.not_eq_true'] at hentry
        exact hentry.1
      · cases hp

theorem exists_expandNames (htree : NulFree fs.root) (names : List String) {dirs : List Path}
    (hdirs : ∀ d ∈ dirs, hasNul d = false) : ∃ found, fs.expandNames names dirs = .ok found := by
  induction names generalizing dirs with
  | nil => exact ⟨dirs, rfl⟩
  | cons name rest ih =>
    rcases mapM_cases (fs.expandName name !rest.isEmpty) dirs with
      ⟨next, hnext, hall⟩ | ⟨d, hd, e, he, -⟩
    · have hfree : ∀ p ∈ next.flatten, hasNul p = false := by
        intro p hp
        obtain ⟨part, hpart, hp⟩ := List.mem_flatten.mp hp
        obtain ⟨d, hd, hexpand⟩ := exists_mem_of_forall₂ hall hpart
        obtain ⟨part', hpart', hfree⟩ := exists_expandName htree name (!rest.isEmpty) (hdirs d hd)
        obtain rfl := Except.ok.inj (hexpand.symm.trans hpart')
        exact hfree p hp
      obtain ⟨found, hfound⟩ := ih hfree
      exact ⟨found, by rw [expandNames, hnext]; exact hfound⟩
    · obtain ⟨next, hnext, -⟩ := exists_expandName htree name (!rest.isEmpty) (hdirs d hd)
      cases he.symm.trans hnext

theorem expand_of_literal {p : Path} (h : ∀ n ∈ p.names, NamePattern.isPattern n = false) :
    fs.expand p = .ok (if fs.hasEntry p then [p] else []) := by
  have hall : p.names.takeWhile (!NamePattern.isPattern ·) = p.names := by
    rw [← List.append_nil p.names, List.takeWhile_append_of_pos fun n hn => by simp [h n hn]]
    rfl
  rw [expand, hall, List.drop_length]
  rfl

/-- A pattern is expanded from the directory that the names before its first pattern lead to. -/
theorem expand_of_pattern {p : Path} {front rest : List String} {name : String}
    (hnames : p.names = front ++ name :: rest)
    (hfront : ∀ n ∈ front, NamePattern.isPattern n = false)
    (hname : NamePattern.isPattern name = true) :
    fs.expand p = fs.expandNames (name :: rest) [⟨p.anchor, front⟩] := by
  have htake : p.names.takeWhile (!NamePattern.isPattern ·) = front := by
    rw [hnames, List.takeWhile_append_of_pos fun n hn => by simp [hfront n hn]]
    simp [hname]
  rw [expand, htake, hnames, List.drop_left]
  rfl

/-- Either no name is a pattern, or there is a first one that is. -/
theorem pattern_cases (names : List String) :
    (∀ n ∈ names, NamePattern.isPattern n = false) ∨
      ∃ front name rest, names = front ++ name :: rest ∧
        (∀ n ∈ front, NamePattern.isPattern n = false) ∧ NamePattern.isPattern name = true := by
  induction names with
  | nil => exact .inl (by simp)
  | cons n names ih =>
    cases hn : NamePattern.isPattern n with
    | true => exact .inr ⟨[], n, names, rfl, by simp, hn⟩
    | false =>
      rcases ih with hall | ⟨front, name, rest, rfl, hfront, hname⟩
      · exact .inl (List.forall_mem_cons.mpr ⟨hn, hall⟩)
      · exact .inr ⟨n :: front, name, rest, rfl, List.forall_mem_cons.mpr ⟨hn, hfront⟩, hname⟩

theorem expand_of_nulBeforePattern {p : Path} (h : NulBeforePattern p) :
    fs.expand p = .error .embeddedNul := by
  obtain ⟨front, name, rest, hnames, hfront, hname, hnul⟩ := h
  have herror : fs.expandName name (!rest.isEmpty) ⟨p.anchor, front⟩ = .error .embeddedNul := by
    rw [expandName]
    simp only [hname, hnul, if_true]
    split <;> rfl
  rw [expand_of_pattern hnames hfront hname, expandNames, mapM_cons_of_error herror]
  rfl

theorem exists_expand (htree : NulFree fs.root) {p : Path} (h : ¬NulBeforePattern p) :
    ∃ found, fs.expand p = .ok found := by
  rcases pattern_cases p.names with hall | ⟨front, name, rest, hnames, hfront, hname⟩
  · exact ⟨_, expand_of_literal hall⟩
  · rw [expand_of_pattern hnames hfront hname]
    refine exists_expandNames htree _ (List.forall_mem_singleton.mpr ?_)
    exact Bool.eq_false_iff.mpr fun hnul => h ⟨front, name, rest, hnames, hfront, hname, hnul⟩

/-- Whether the faults that may come of a step are refusals of the file system. -/
def IsRefused {α : Type} (r : Except Fault α) : Prop :=
  ∀ fault, r = .error fault → ∃ e, fault = .file e

namespace IsRefused

variable {α β : Type}

theorem ok (a : α) : IsRefused (.ok a) := fun _ h => by cases h

theorem mapError (r : Except FileError α) : IsRefused (r.mapError Fault.file) := by
  intro fault h
  obtain ⟨e, -, rfl⟩ := mapError_eq_error_iff.mp h
  exact ⟨e, rfl⟩

theorem bind {r : Except Fault α} {f : α → Except Fault β} (hr : IsRefused r)
    (hf : ∀ a, IsRefused (f a)) : IsRefused (r >>= f) := by
  cases r with
  | error fault =>
    intro fault' h
    obtain rfl : fault = fault' := Except.error.inj h
    exact hr fault rfl
  | ok a => exact hf a

theorem mapM {f : α → Except Fault β} (h : ∀ a, IsRefused (f a)) (items : List α) :
    IsRefused (items.mapM f) := by
  intro fault hfault
  obtain ⟨before, a, after, -, -, ha⟩ := mapM_eq_error_iff.mp hfault
  exact h a fault ha

end IsRefused

theorem isRefused_inDirectory (dir : Path) : IsRefused (inDirectory fs dir) := by
  intro fault hfault
  rcases inDirectory_cases fs dir with ⟨files, hfiles, -⟩ | ⟨d, -, e, -, herror⟩
  · cases hfault.symm.trans hfiles
  · exact ⟨e, Except.error.inj (hfault.symm.trans herror)⟩

theorem isRefused_ofMatch (root p : Path) : IsRefused (ofMatch fs root p) := by
  refine (IsRefused.mapError _).bind fun isDir => ?_
  split
  · exact .ok _
  · split
    · exact isRefused_inDirectory p
    · refine (IsRefused.mapError _).bind fun isFile => ?_
      split <;> exact .ok _

theorem NulBeforePattern.hasNul {p : Path} (h : NulBeforePattern p) : hasNul p = true := by
  obtain ⟨front, name, rest, hnames, -, -, hnul⟩ := h
  rw [FileSystem.hasNul] at hnul ⊢
  rw [hnames, List.any_append, hnul, Bool.true_or]

theorem ofCandidate_of_nulBeforePattern {p : Path} (h : NulBeforePattern p) :
    ofCandidate fs root p = .error .embeddedNul := by
  have hisDir : fs.isDir p = .ok false := by rw [isDir, leadsTo, if_pos h.hasNul]
  have hisFile : fs.isFile p = .ok false := by rw [isFile, leadsTo, if_pos h.hasNul]
  rw [ofCandidate, hisDir, hisFile, expand_of_nulBeforePattern h]
  rfl

theorem isRefused_ofCandidate (htree : NulFree fs.root) {p : Path} (h : ¬NulBeforePattern p) :
    IsRefused (ofCandidate fs root p) := by
  refine (IsRefused.mapError _).bind fun isDir => ?_
  split
  · exact isRefused_inDirectory p
  · refine (IsRefused.mapError _).bind fun isFile => ?_
    split
    · exact .ok _
    · obtain ⟨found, hfound⟩ := exists_expand htree h
      rw [hfound]
      exact (IsRefused.mapM (isRefused_ofMatch root) found).bind fun _ => .ok _

/-! ## Several arguments -/

/-- The fault that is reported for one that was met. -/
def reported : Fault → Fault
  | .file _ => .problem .unreadableTestFiles
  | e => e

theorem gather_eq (arguments : List String) : gather fs arguments root base =
    (((candidates arguments root base).mapM (ofCandidate fs root)).map
      fun found => PathSet.ofList found.flatten).mapError reported := by
  rw [gather]
  split
  · next found hfound => rw [hfound]; rfl
  · next e he => rw [he]; rfl
  · next e hfile he =>
    rw [he]
    cases e with
    | file e => exact absurd rfl (hfile e)
    | _ => rfl

variable {arguments : List String} {a : String} {part found : PathSet} {fault : Fault}

theorem gather_eq_of_ne_nil (h : arguments ≠ []) : gather fs arguments root base =
    ((arguments.mapM fun a => ofCandidate fs root (base.joinText a)).map
      fun found => PathSet.ofList found.flatten).mapError reported := by
  rw [gather_eq, candidates, if_neg h, List.mapM_map]
  rfl

theorem gather_singleton (a : String) : gather fs [a] root base =
    ((ofCandidate fs root (base.joinText a)).map PathSet.ofList).mapError reported := by
  rw [gather_eq_of_ne_nil (by simp), mapM_singleton]
  cases ofCandidate fs root (base.joinText a) with
  | error e => rfl
  | ok files => simp [Except.map]

theorem gather_singleton_eq_ok_iff : gather fs [a] root base = .ok part ↔
    ∃ files, ofCandidate fs root (base.joinText a) = .ok files ∧ part = PathSet.ofList files := by
  rw [gather_singleton, mapError_eq_ok_iff, map_eq_ok_iff]

theorem gather_singleton_eq_error_iff : gather fs [a] root base = .error fault ↔
    ∃ e, ofCandidate fs root (base.joinText a) = .error e ∧ fault = reported e := by
  rw [gather_singleton, mapError_eq_error_iff]
  simp only [map_eq_error_iff]

/-- Several arguments stand for the files that each of them stands for. -/
theorem gather_eq_ok_iff (hne : arguments ≠ []) : gather fs arguments root base = .ok found ↔
    ∃ parts, List.Forall₂ (fun a part => gather fs [a] root base = .ok part) arguments parts ∧
      ∀ p, p ∈ found ↔ ∃ part ∈ parts, p ∈ part := by
  rw [gather_eq_of_ne_nil hne, mapError_eq_ok_iff, map_eq_ok_iff]
  simp only [mapM_eq_ok_iff, gather_singleton_eq_ok_iff]
  constructor
  · rintro ⟨lists, hlists, rfl⟩
    refine ⟨lists.map PathSet.ofList, List.forall₂_map_right_iff.mpr ?_, fun p => by simp⟩
    exact hlists.imp fun a files hfiles => ⟨files, hfiles, rfl⟩
  · rintro ⟨parts, hparts, hfound⟩
    obtain ⟨lists, hlists, rfl⟩ : ∃ lists, List.Forall₂ (fun a files =>
        ofCandidate fs root (base.joinText a) = .ok files) arguments lists ∧
          parts = lists.map PathSet.ofList := by
      clear hfound hne
      induction hparts with
      | nil => exact ⟨[], .nil, rfl⟩
      | cons hpart _ ih =>
        obtain ⟨files, hfiles, rfl⟩ := hpart
        obtain ⟨lists, hlists, rfl⟩ := ih
        exact ⟨files :: lists, .cons hfiles hlists, rfl⟩
    exact ⟨lists, hlists, Std.ExtTreeSet.ext_mem fun p => by simp [hfound p]⟩

/-- Several arguments fail as the first one that fails does. -/
theorem gather_eq_error_iff (hne : arguments ≠ []) : gather fs arguments root base = .error fault ↔
    ∃ before a after, arguments = before ++ a :: after ∧
      (∀ b ∈ before, ∃ part, gather fs [b] root base = .ok part) ∧
      gather fs [a] root base = .error fault := by
  rw [gather_eq_of_ne_nil hne, mapError_eq_error_iff]
  simp only [map_eq_error_iff, mapM_eq_error_iff, gather_singleton_eq_ok_iff,
    gather_singleton_eq_error_iff]
  constructor
  · rintro ⟨e, ⟨before, a, after, rfl, hbefore, ha⟩, rfl⟩
    refine ⟨before, a, after, rfl, fun b hb => ?_, e, ha, rfl⟩
    obtain ⟨files, hfiles⟩ := hbefore b hb
    exact ⟨_, files, hfiles, rfl⟩
  · rintro ⟨before, a, after, rfl, hbefore, e, ha, rfl⟩
    refine ⟨e, ⟨before, a, after, rfl, fun b hb => ?_, ha⟩, rfl⟩
    obtain ⟨_, files, hfiles, -⟩ := hbefore b hb
    exact ⟨files, hfiles⟩

/-- Several arguments have what each of them has, or fail as one of them does. -/
theorem gather_cases (fs : FileSystem) (root base : Path) (hne : arguments ≠ []) :
    (∃ found, gather fs arguments root base = .ok found ∧
        (∀ a ∈ arguments, ∃ part, gather fs [a] root base = .ok part) ∧
        ∀ p, p ∈ found ↔ ∃ a ∈ arguments, ∃ part, gather fs [a] root base = .ok part ∧ p ∈ part) ∨
      ∃ a ∈ arguments, ∃ fault, gather fs [a] root base = .error fault ∧
        gather fs arguments root base = .error fault := by
  cases h : gather fs arguments root base with
  | error fault =>
    obtain ⟨before, a, after, rfl, -, ha⟩ := (gather_eq_error_iff hne).mp h
    exact .inr ⟨a, by simp, fault, ha, rfl⟩
  | ok found =>
    obtain ⟨parts, hparts, hfound⟩ := (gather_eq_ok_iff hne).mp h
    refine .inl ⟨found, rfl, fun a ha => ?_, fun p => (hfound p).trans ⟨?_, ?_⟩⟩
    · obtain ⟨part, -, hpart⟩ := exists_mem_of_forall₂ hparts.flip ha
      exact ⟨part, hpart⟩
    · rintro ⟨part, hmem, hp⟩
      obtain ⟨a, ha, hpart⟩ := exists_mem_of_forall₂ hparts hmem
      exact ⟨a, ha, part, hpart, hp⟩
    · rintro ⟨a, ha, part, hpart, hp⟩
      obtain ⟨part', hmem, hpart'⟩ := exists_mem_of_forall₂ hparts.flip ha
      obtain rfl := Except.ok.inj (hpart.symm.trans hpart')
      exact ⟨part, hmem, hp⟩

/-- An argument fails because a path cannot be looked up, or because `U+0000` stands before a
pattern. -/
theorem fault_of_gather_singleton (htree : NulFree fs.root)
    (h : gather fs [a] root base = .error fault) :
    fault = .problem .unreadableTestFiles ∧ ¬NulBeforePattern (base.joinText a) ∨
      fault = .embeddedNul ∧ NulBeforePattern (base.joinText a) := by
  obtain ⟨e, he, rfl⟩ := gather_singleton_eq_error_iff.mp h
  by_cases hnul : NulBeforePattern (base.joinText a)
  · obtain rfl := Except.error.inj (he.symm.trans (ofCandidate_of_nulBeforePattern hnul))
    exact .inr ⟨rfl, hnul⟩
  · obtain ⟨e, rfl⟩ := isRefused_ofCandidate htree hnul _ he
    exact .inl ⟨rfl, hnul⟩

end ElmSuite.TestFiles

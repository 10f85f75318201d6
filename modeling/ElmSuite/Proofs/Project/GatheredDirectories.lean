import ElmSuite.Proofs.Files.PlainResolution
import ElmSuite.Proofs.Project.Gathering
import ElmSuite.Proofs.Project.GeneratedDirectory

/-!
# Gathering the test files below directories

In a tree without links, directories stand for the Elm files at any depth below them that lie in
no build or package cache, each listed once by its canonical path.
-/

namespace ElmSuite.TestFiles

open FileSystem

variable {fs : FileSystem} {root base dir : Path} {place : List String}

/-- The Elm files below the directory to which names lead, those in build and package caches left
out. -/
def ElmFileBelow (tree : Node) (place : List String) (p : Path) : Prop :=
  ∃ below name content executable, p = ⟨.root, place ++ (below ++ [name])⟩ ∧
    tree.at? (place ++ (below ++ [name])) = some (.file content executable) ∧
    isElmName name = true ∧ ∀ n ∈ below, n ∉ ignoredNames

/-- Whether the path of a directory, or of a node with the name of an Elm file, is too long, if it is
written from the path `dir` of the directory to which names lead. -/
def MeetsLongPath (tree : Node) (place : List String) (dir : Path) : Prop :=
  ∃ below node, tree.at? (place ++ below) = some node ∧
    (node.isDir = true ∨ isNamed below = true) ∧ TooLong (pathBelow dir below)

/-- Whether no name in a tree has a line feed. -/
def OneLine (tree : Node) : Prop :=
  ∀ names node, tree.at? names = some node → ∀ name ∈ names, '\n' ∉ name.toList

theorem isNamed_append_singleton {below : List String} {name : String} :
    isNamed (below ++ [name]) = isElmName name := by
  simp [isNamed]

theorem isIgnored_eq_false_iff {below : List String} {name : String}
    (hlines : ∀ n ∈ below ++ [name], '\n' ∉ n.toList) :
    isIgnored (below ++ [name]) false = false ↔ ∀ n ∈ below, n ∉ ignoredNames := by
  rw [← Bool.not_eq_true, isIgnored_eq_true_iff hlines, List.dropLast_concat]
  simp

/-! ## One directory -/

section Directory

variable {es : List (String × Node)} {d : List String × Node}

/-- What is listed of a directory in a plain tree. -/
theorem mem_listed_iff (hplain : Plain fs.root) (hnul : hasNul dir = false)
    (hfind : fs.find dir true = .ok (.found place)) (hdir : fs.root.at? place = some (.dir es)) :
    d ∈ listed fs dir ↔ d.1 ≠ [] ∧ fs.root.at? (place ++ d.1) = some d.2 := by
  have hnode : fs.node? dir = some (.dir es) := by
    simp only [node?, hnul, Bool.false_eq_true, if_false, status, hfind, arrivedAt, hdir]
  rw [listed, hnode, Option.map_some, Option.getD_some, (hplain.of_at? hdir).mem_descendants_iff,
    fs.root.at?_append, hdir, Option.bind_some]

/-- In a plain tree, a node cannot be looked at if its path is too long, and only then. -/
theorem refused_iff (hplain : Plain fs.root) (hnul : hasNul dir = false)
    (hfind : fs.find dir true = .ok (.found place))
    (hnode : fs.root.at? (place ++ d.1) = some d.2) : (∃ e, Refused fs dir d e) ↔
      (d.2.isDir = true ∨ isNamed d.1 = true) ∧ TooLong (pathBelow dir d.1) := by
  have hfails (kind : Node → Bool) :
      (∃ e, fs.leadsTo kind (pathBelow dir d.1) = .error e) ↔ TooLong (pathBelow dir d.1) := by
    rw [hplain.leadsTo_below hnul hfind hnode kind]
    split_ifs with hlong <;> simp [hlong]
  have hcheck : (∃ e, checkNode fs (pathBelow dir d.1) d.2 = .error e) ↔
      d.2.isDir = true ∧ TooLong (pathBelow dir d.1) := by
    cases hd : d.2 with
    | file => simp [checkNode, Node.isDir]
    | link target => exact absurd (hnode.trans (congrArg some hd)) (hplain.noLink _ target)
    | dir => simp only [checkNode, map_eq_error_iff, isDir, hfails, Node.isDir, true_and]
  simp only [Refused, exists_or, exists_and_left, isFile, hfails, hcheck, or_and_right]

/-- The canonical path of a node below the directory that a path leads to. -/
theorem resolved_below (hplain : Plain fs.root) (hnames : ∀ name ∈ dir.names, Path.IsName name)
    (hfind : fs.find dir true = .ok (.found place)) {below : List String} {node : Node}
    (hnode : fs.root.at? (place ++ below) = some node) (hlong : ¬TooLong (pathBelow dir below)) :
    fs.resolved (pathBelow dir below) = ⟨.root, place ++ below⟩ := by
  have hbelow := hplain.find_below hfind hnode true
  rw [if_neg hlong] at hbelow
  have hall : ∀ name ∈ (pathBelow dir below).names, Path.IsName name := by
    intro name hname
    rcases List.mem_append.mp hname with hname | hname
    · exact hnames name hname
    · exact (hplain.isEntryName_of_at? hnode name (List.mem_append_right _ hname)).isName
  rw [resolved, hplain.resolve_of_find hall hbelow hnode]

end Directory

/-- **One directory.** A directory in a plain tree yields the Elm files below it, unless some path there
is too long. -/
theorem inDirectory_of_plain (hplain : Plain fs.root) (hline : OneLine fs.root)
    (hnames : ∀ name ∈ dir.names, Path.IsName name) (hisDir : fs.isDir dir = .ok true) :
    ∃ place, fs.find dir true = .ok (.found place) ∧
      (MeetsLongPath fs.root place dir ∧ (∃ e, inDirectory fs dir = .error (.file e)) ∨
        ¬MeetsLongPath fs.root place dir ∧
          ∃ files, inDirectory fs dir = .ok files ∧ ∀ p, p ∈ files ↔ ElmFileBelow fs.root place p) := by
  obtain ⟨hnul, place, es, hfind, hdir⟩ := isDir_eq_ok_true hisDir
  have hlisted {d : List String × Node} := @mem_listed_iff fs dir place es d hplain hnul hfind hdir
  have hrefused {d : List String × Node} := @refused_iff fs dir place d hplain hnul hfind
  have hlines {below : List String} {node : Node} (hnode : fs.root.at? (place ++ below) = some node) :
      ∀ name ∈ below, '\n' ∉ name.toList := fun name hname =>
    hline _ node hnode name (List.mem_append_right _ hname)
  refine ⟨place, hfind, ?_⟩
  rcases inDirectory_cases fs dir with ⟨files, hfiles, hseen, hmem⟩ | ⟨d, hd, e, he, herror⟩
  · refine .inr ⟨?_, files, hfiles, fun p => ?_⟩
    · rintro ⟨below, node, hnode, hkind, hlong⟩
      have hne : below ≠ [] := by
        rintro rfl
        have hself : pathBelow dir [] = dir := by rw [pathBelow, List.append_nil]
        rw [hself] at hlong
        exact absurd hlong (not_tooLong_of_find hfind)
      have hd : (below, node) ∈ listed fs dir := hlisted.mpr ⟨hne, hnode⟩
      obtain ⟨e, he⟩ := (@hrefused (below, node) hnode).mpr ⟨hkind, hlong⟩
      exact hseen _ hd e he
    · rw [hmem p]
      constructor
      · rintro ⟨d, hd, hnamed, hfile, hkept, rfl⟩
        obtain ⟨hne, hnode⟩ := hlisted.mp hd
        have hlong : ¬TooLong (pathBelow dir d.1) := fun hlong =>
          (hrefused hnode).mpr ⟨.inr hnamed, hlong⟩ |>.elim (hseen d hd)
        have htold := hplain.leadsTo_below hnul hfind hnode Node.isFile
        rw [if_neg hlong, ← isFile, hfile] at htold
        obtain ⟨below, name, hd'⟩ := (List.eq_nil_or_concat' d.1).resolve_left hne
        rw [resolved_below hplain hnames hfind hnode hlong]
        rw [hd'] at hnode hnamed hkept ⊢
        rw [isNamed_append_singleton] at hnamed
        cases hkind : d.2 with
        | link | dir => simp [hkind, Node.isFile] at htold
        | file content executable =>
          rw [hkind] at hnode
          exact ⟨below, name, content, executable, rfl, hnode, hnamed,
            (isIgnored_eq_false_iff (hlines hnode)).mp hkept⟩
      · rintro ⟨below, name, content, executable, rfl, hnode, hname, hbelow⟩
        have hd : (below ++ [name], .file content executable) ∈ listed fs dir :=
          hlisted.mpr ⟨by simp, hnode⟩
        have hnamed : isNamed (below ++ [name]) = true := isNamed_append_singleton.trans hname
        have hlong : ¬TooLong (pathBelow dir (below ++ [name])) := fun hlong =>
          (@hrefused (below ++ [name], .file content executable) hnode).mpr ⟨.inr hnamed, hlong⟩
            |>.elim (hseen _ hd)
        have htold := hplain.leadsTo_below hnul hfind hnode Node.isFile
        rw [if_neg hlong, ← isFile] at htold
        exact ⟨_, hd, hnamed, htold, (isIgnored_eq_false_iff (hlines hnode)).mpr hbelow,
          (resolved_below hplain hnames hfind hnode hlong).symm⟩
  · obtain ⟨-, hnode⟩ := hlisted.mp hd
    obtain ⟨hkind, hlong⟩ := (hrefused hnode).mp ⟨e, he⟩
    exact .inl ⟨⟨d.1, d.2, hnode, hkind, hlong⟩, e, herror⟩

/-! ## All arguments -/

theorem isName_of_mem_candidates {arguments : List String}
    (hroot : ∀ name ∈ root.names, Path.IsName name) (hbase : ∀ name ∈ base.names, Path.IsName name)
    {c : Path} (h : c ∈ candidates arguments root base) : ∀ name ∈ c.names, Path.IsName name := by
  rw [candidates] at h
  split at h
  · have htests : root.joinText "tests" = root.child "tests" :=
      Path.joinText_of_isName Project.isName_testsDirectory root
    rw [List.mem_singleton.mp h, ← htests]
    exact Project.isName_of_mem_joinText hroot _
  · obtain ⟨a, -, rfl⟩ := List.mem_map.mp h
    exact Project.isName_of_mem_joinText hbase a

/-- Arguments that lead to directories of a tree without links. -/
structure NamesDirectories (fs : FileSystem) (arguments : List String) (root base : Path) : Prop where
  plain : Plain fs.root
  oneLine : OneLine fs.root
  root_isName : ∀ name ∈ root.names, Path.IsName name
  base_isName : ∀ name ∈ base.names, Path.IsName name
  isDir : ∀ c ∈ candidates arguments root base, fs.isDir c = .ok true

/-- Whether a path that has to be looked up below the directories of arguments is too long. -/
def MeetsLong (fs : FileSystem) (arguments : List String) (root base : Path) : Prop :=
  ∃ c ∈ candidates arguments root base, ∃ place, fs.find c true = .ok (.found place) ∧
    MeetsLongPath fs.root place c

/-- What gathering the test files that arguments stand for ends in. -/
structure Gathers (fs : FileSystem) (arguments : List String) (root base : Path) : Prop where
  /-- Directories stand for the Elm files below them, -/
  directories (h : NamesDirectories fs arguments root base)
    (hlong : ¬MeetsLong fs arguments root base) :
    ∃ found, gather fs arguments root base = .ok found ∧
      ∀ p, p ∈ found ↔ ∃ c ∈ candidates arguments root base, ∃ place,
        fs.find c true = .ok (.found place) ∧ ElmFileBelow fs.root place p
  /-- unless a path is too long. -/
  tooLong (h : NamesDirectories fs arguments root base) (hlong : MeetsLong fs arguments root base) :
    gather fs arguments root base = .error (.problem .unreadableTestFiles)
  /-- Without arguments and without tests, nothing is gathered. -/
  noTests (hnone : arguments = []) (hdir : fs.isDir (root.child Project.testsDirectory) = .ok false)
    (hfile : fs.isFile (root.child Project.testsDirectory) = .ok false)
    (hliteral : ∀ name ∈ root.names, NamePattern.isPattern name = false) :
    gather fs arguments root base = .ok (PathSet.ofList [])
  /-- The files are listed in the order of their paths, each once. -/
  sorted (found : PathSet) (h : gather fs arguments root base = .ok found) :
    found.toList.Pairwise fun p q => compare p q = .lt
  /-- Several arguments stand for the files that each of them stands for. -/
  union (hne : arguments ≠ []) (found : PathSet) : gather fs arguments root base = .ok found ↔
    (∀ a ∈ arguments, ∃ part, gather fs [a] root base = .ok part) ∧
      ∀ p, p ∈ found ↔ ∃ a ∈ arguments, ∃ part, gather fs [a] root base = .ok part ∧ p ∈ part
  /-- They fail as the first argument that fails. -/
  firstFault (hne : arguments ≠ []) (fault : Fault) :
    gather fs arguments root base = .error fault ↔
      ∃ before a after, arguments = before ++ a :: after ∧
        (∀ b ∈ before, ∃ part, gather fs [b] root base = .ok part) ∧
        gather fs [a] root base = .error fault
  /-- An argument fails with the problem for it, unless `U+0000` stands before a pattern. -/
  reason (a : String) (fault : Fault) (h : gather fs [a] root base = .error fault) :
    fault = .problem .unreadableTestFiles ∧ ¬NulBeforePattern (base.joinText a) ∨
      fault = .embeddedNul ∧ NulBeforePattern (base.joinText a)
  /-- But for such arguments, there is the problem exactly if one of them has it, -/
  unreadable (hne : arguments ≠ []) (hnul : ∀ a ∈ arguments, ¬NulBeforePattern (base.joinText a)) :
    gather fs arguments root base = .error (.problem .unreadableTestFiles) ↔
      ∃ a ∈ arguments, gather fs [a] root base = .error (.problem .unreadableTestFiles)
  /-- and neither their order nor repetition matters. -/
  unordered (hnul : ∀ a ∈ arguments, ¬NulBeforePattern (base.joinText a)) (others : List String)
    (h : ∀ a, a ∈ others ↔ a ∈ arguments) :
    gather fs others root base = gather fs arguments root base

section Arguments

variable {arguments : List String} {found : PathSet}

/-- What one of the directories yields. -/
theorem ofCandidate_of_isDir {c : Path} (h : fs.isDir c = .ok true) :
    ofCandidate fs root c = inDirectory fs c := by
  rw [ofCandidate, h]
  rfl

/-- **Directories.** Directories of a tree without links stand for the Elm files below them. -/
theorem gather_of_namesDirectories (h : NamesDirectories fs arguments root base)
    (hlong : ¬MeetsLong fs arguments root base) :
    ∃ found, gather fs arguments root base = .ok found ∧
      ∀ p, p ∈ found ↔ ∃ c ∈ candidates arguments root base, ∃ place,
        fs.find c true = .ok (.found place) ∧ ElmFileBelow fs.root place p := by
  have hone {c : Path} (hc : c ∈ candidates arguments root base) :
      ∃ place files, fs.find c true = .ok (.found place) ∧ ofCandidate fs root c = .ok files ∧
        ∀ p, p ∈ files ↔ ElmFileBelow fs.root place p := by
    have hnames := isName_of_mem_candidates h.root_isName h.base_isName hc
    obtain ⟨place, hfind, ⟨hmeets, -⟩ | ⟨-, files, hfiles, hmem⟩⟩ :=
      inDirectory_of_plain h.plain h.oneLine hnames (h.isDir c hc)
    · exact absurd ⟨c, hc, place, hfind, hmeets⟩ hlong
    · exact ⟨place, files, hfind, (ofCandidate_of_isDir (h.isDir c hc)).trans hfiles, hmem⟩
  rw [gather_eq]
  rcases mapM_cases (ofCandidate fs root) (candidates arguments root base) with
    ⟨lists, hlists, hall⟩ | ⟨c, hc, e, he, -⟩
  · refine ⟨PathSet.ofList lists.flatten, by rw [hlists]; rfl, fun p => ?_⟩
    rw [PathSet.mem_ofList, List.mem_flatten]
    constructor
    · rintro ⟨files, hfiles, hp⟩
      obtain ⟨c, hc, hcandidate⟩ := exists_mem_of_forall₂ hall hfiles
      obtain ⟨place, files', hfind, hfiles', hmem⟩ := hone hc
      obtain rfl := Except.ok.inj (hcandidate.symm.trans hfiles')
      exact ⟨c, hc, place, hfind, (hmem p).mp hp⟩
    · rintro ⟨c, hc, place, hfind, hp⟩
      obtain ⟨files, hfiles, hcandidate⟩ := exists_mem_of_forall₂ hall.flip hc
      obtain ⟨place', files', hfind', hfiles', hmem⟩ := hone hc
      obtain rfl := Except.ok.inj (hcandidate.symm.trans hfiles')
      obtain rfl := Arrival.found.inj (Except.ok.inj (hfind.symm.trans hfind'))
      exact ⟨files, hfiles, (hmem p).mpr hp⟩
  · obtain ⟨place, files, -, hfiles, -⟩ := hone hc
    cases he.symm.trans hfiles

theorem gather_of_meetsLong (h : NamesDirectories fs arguments root base)
    (hlong : MeetsLong fs arguments root base) :
    gather fs arguments root base = .error (.problem .unreadableTestFiles) := by
  obtain ⟨c, hc, place, hfind, hmeets⟩ := hlong
  have hnames := isName_of_mem_candidates h.root_isName h.base_isName hc
  have hrefused : ∃ e, ofCandidate fs root c = .error (.file e) := by
    obtain ⟨place', hfind', ⟨-, e, he⟩ | ⟨hshort, -⟩⟩ := inDirectory_of_plain h.plain h.oneLine
      hnames (h.isDir c hc)
    · exact ⟨e, (ofCandidate_of_isDir (h.isDir c hc)).trans he⟩
    · obtain rfl := Arrival.found.inj (Except.ok.inj (hfind.symm.trans hfind'))
      exact absurd hmeets hshort
  obtain ⟨e, he⟩ := hrefused
  rw [gather_eq]
  rcases mapM_cases (ofCandidate fs root) (candidates arguments root base) with
    ⟨lists, -, hall⟩ | ⟨c', hc', fault, hfault, herror⟩
  · obtain ⟨files, -, hfiles⟩ := exists_mem_of_forall₂ hall.flip hc
    cases he.symm.trans hfiles
  · obtain ⟨e', rfl⟩ : ∃ e', fault = .file e' := by
      rw [ofCandidate_of_isDir (h.isDir c' hc')] at hfault
      exact isRefused_inDirectory c' fault hfault
    rw [herror]
    rfl

/-- Where neither a directory nor a file has the name of the tests, no argument stands for nothing. -/
theorem gather_nil (hdir : fs.isDir (root.child Project.testsDirectory) = .ok false)
    (hfile : fs.isFile (root.child Project.testsDirectory) = .ok false)
    (hliteral : ∀ name ∈ root.names, NamePattern.isPattern name = false) :
    gather fs [] root base = .ok (PathSet.ofList []) := by
  have hnames : ∀ name ∈ (root.child Project.testsDirectory).names,
      NamePattern.isPattern name = false := by
    intro name hname
    rcases List.mem_append.mp hname with hname | hname
    · exact hliteral name hname
    · rw [List.mem_singleton.mp hname]
      decide
  have hmatch : ofMatch fs root (root.child Project.testsDirectory) = .ok [] := by
    rw [ofMatch, hdir, hfile]
    change (if isIgnoredMatch root _ false then _ else _) = _
    split <;> rfl
  have hcandidate : ofCandidate fs root (root.child Project.testsDirectory) = .ok [] := by
    rw [ofCandidate, hdir, hfile, expand_of_literal hnames]
    change ((if fs.hasEntry _ then [root.child Project.testsDirectory] else []).mapM
      (ofMatch fs root)).map List.flatten = _
    split
    · rw [mapM_singleton, hmatch]
      rfl
    · rfl
  have hcandidates : candidates [] root base = [root.child Project.testsDirectory] := rfl
  rw [gather_eq, hcandidates, mapM_singleton, hcandidate]
  rfl

theorem gather_eq_ok_iff_of_members (hne : arguments ≠ []) :
    gather fs arguments root base = .ok found ↔
      (∀ a ∈ arguments, ∃ part, gather fs [a] root base = .ok part) ∧
        ∀ p, p ∈ found ↔ ∃ a ∈ arguments, ∃ part, gather fs [a] root base = .ok part ∧ p ∈ part := by
  rcases gather_cases fs root base hne with ⟨found', hfound', hall, hmem⟩ | ⟨a, ha, fault, he, herror⟩
  · rw [hfound', Except.ok.injEq]
    refine ⟨fun h => h ▸ ⟨hall, hmem⟩, fun ⟨_, h⟩ => Std.ExtTreeSet.ext_mem fun p => ?_⟩
    rw [h p, hmem p]
  · rw [herror]
    refine ⟨(fun h => by cases h), fun ⟨hall, _⟩ => ?_⟩
    obtain ⟨part, hpart⟩ := hall a ha
    cases he.symm.trans hpart

variable (htree : NulFree fs.root) (hnul : ∀ a ∈ arguments, ¬NulBeforePattern (base.joinText a))

include htree hnul

theorem fault_of_mem {a : String} (ha : a ∈ arguments) {fault : Fault}
    (h : gather fs [a] root base = .error fault) : fault = .problem .unreadableTestFiles := by
  rcases fault_of_gather_singleton htree h with ⟨rfl, -⟩ | ⟨-, hpattern⟩
  · rfl
  · exact absurd hpattern (hnul a ha)

theorem gather_eq_unreadable_iff (hne : arguments ≠ []) :
    gather fs arguments root base = .error (.problem .unreadableTestFiles) ↔
      ∃ a ∈ arguments, gather fs [a] root base = .error (.problem .unreadableTestFiles) := by
  rcases gather_cases fs root base hne with ⟨found, hfound, hall, -⟩ | ⟨a, ha, fault, he, herror⟩
  · rw [hfound]
    refine ⟨(fun h => by cases h), fun ⟨a, ha, he⟩ => ?_⟩
    obtain ⟨part, hpart⟩ := hall a ha
    cases he.symm.trans hpart
  · obtain rfl := fault_of_mem htree hnul ha he
    exact ⟨fun _ => ⟨a, ha, he⟩, fun _ => herror⟩

/-- The same arguments in another order and number stand for the same files. -/
theorem gather_of_sameMembers {others : List String} (h : ∀ a, a ∈ others ↔ a ∈ arguments) :
    gather fs others root base = gather fs arguments root base := by
  by_cases hne : arguments = []
  · subst hne
    have hothers : others = [] := List.eq_nil_iff_forall_not_mem.mpr fun a ha =>
      List.not_mem_nil ((h a).mp ha)
    rw [hothers]
  · have hne' : others ≠ [] := by
      obtain ⟨a, ha⟩ := List.exists_mem_of_ne_nil _ hne
      exact List.ne_nil_of_mem ((h a).mpr ha)
    rcases gather_cases fs root base hne with ⟨found, hfound, hall, hmem⟩ | ⟨a, ha, fault, he, herror⟩
    · rw [hfound, gather_eq_ok_iff_of_members hne']
      simp only [h]
      exact ⟨hall, hmem⟩
    · have hnul' : ∀ a ∈ others, ¬NulBeforePattern (base.joinText a) :=
        fun a ha => hnul a ((h a).mp ha)
      obtain rfl := fault_of_mem htree hnul ha he
      rw [herror, gather_eq_unreadable_iff htree hnul' hne']
      exact ⟨a, (h a).mpr ha, he⟩

end Arguments

/-- **Gathering.** Directories stand for the Elm files below them, and several arguments for what each of
them stands for. -/
theorem gathers (htree : NulFree fs.root) (arguments : List String) (root base : Path) :
    Gathers fs arguments root base where
  directories := gather_of_namesDirectories
  tooLong := gather_of_meetsLong
  noTests hnone hdir hfile hliteral := hnone ▸ gather_nil hdir hfile hliteral
  sorted _ _ := Std.ExtTreeSet.ordered_toList
  union hne _ := gather_eq_ok_iff_of_members hne
  firstFault hne _ := gather_eq_error_iff hne
  reason _ _ := fault_of_gather_singleton htree
  unreadable hne hnul := gather_eq_unreadable_iff htree hnul hne
  unordered hnul _ := gather_of_sameMembers htree hnul

/-- Tests with a package cache among them. -/
def cacheTree : FileSystem where
  root := .dir [("tests", .dir [("A.elm", .file [] false),
    ("Deep", .dir [("B.elm", .file [] false), ("elm-stuff", .dir [("C.elm", .file [] false)])])])]
  workingDirectory := some []

theorem cacheTree_cases {names : List String} {node : Node}
    (h : cacheTree.root.at? names = some node) :
    (∀ name ∈ names, '\n' ∉ name.toList) ∧ ¬TooLong ⟨.root, names⟩ ∧
      (∀ target, node ≠ .link target) ∧ (∀ e ∈ node.entries, IsEntryName e.1) ∧
      (node.entries.map Prod.fst).Nodup := by
  have hmem := mem_cons_descendants_of_at? h
  simp only [cacheTree, Node.descendants, Node.entryDescendants, List.map_cons, List.map_nil,
    List.cons_append, List.nil_append, List.mem_cons, Prod.mk.injEq, List.not_mem_nil,
    or_false] at hmem
  rcases hmem with ⟨rfl, rfl⟩ | ⟨rfl, rfl⟩ | ⟨rfl, rfl⟩ | ⟨rfl, rfl⟩ | ⟨rfl, rfl⟩ | ⟨rfl, rfl⟩ |
    ⟨rfl, rfl⟩ <;> exact ⟨by decide, by decide, by simp, by decide, by decide⟩

theorem nulFree_of_plain {root : Node} (h : Plain root) : NulFree root :=
  fun place es hdir e he => (h.isEntryName place es hdir e he).nul_not_mem

theorem plain_cacheTree : Plain cacheTree.root where
  noLink _ target h := (cacheTree_cases h).2.2.1 target rfl
  isEntryName _ _ h := (cacheTree_cases h).2.2.2.1
  nodup _ _ h := (cacheTree_cases h).2.2.2.2

theorem mem_candidates_cacheTree {c : Path}
    (h : c ∈ candidates ["tests", "tests/Deep"] ⟨.root, []⟩ ⟨.root, []⟩) :
    c.anchor = .root ∧ cacheTree.isDir c = .ok true ∧
      cacheTree.find c true = .ok (.found c.names) := by
  have hcandidates : candidates ["tests", "tests/Deep"] ⟨.root, []⟩ ⟨.root, []⟩ =
      [⟨.root, ["tests"]⟩, ⟨.root, ["tests", "Deep"]⟩] := by decide
  rw [hcandidates, List.mem_cons, List.mem_singleton] at h
  rcases h with rfl | rfl <;> exact ⟨rfl, rfl, rfl⟩

theorem namesDirectories_cacheTree :
    NamesDirectories cacheTree ["tests", "tests/Deep"] ⟨.root, []⟩ ⟨.root, []⟩ where
  plain := plain_cacheTree
  oneLine _ _ h := (cacheTree_cases h).1
  root_isName := by simp
  base_isName := by simp
  isDir _ hc := (mem_candidates_cacheTree hc).2.1

theorem not_meetsLong_cacheTree :
    ¬MeetsLong cacheTree ["tests", "tests/Deep"] ⟨.root, []⟩ ⟨.root, []⟩ := by
  rintro ⟨c, hc, place, hfind, below, node, hnode, -, hlong⟩
  obtain ⟨hanchor, -, hfound⟩ := mem_candidates_cacheTree hc
  obtain rfl := Arrival.found.inj (Except.ok.inj (hfound.symm.trans hfind))
  rw [pathBelow, hanchor] at hlong
  exact (cacheTree_cases hnode).2.1 hlong

theorem gathers_cacheTree :
    NamesDirectories cacheTree ["tests", "tests/Deep"] ⟨.root, []⟩ ⟨.root, []⟩ ∧
      ¬MeetsLong cacheTree ["tests", "tests/Deep"] ⟨.root, []⟩ ⟨.root, []⟩ ∧
      Gathers cacheTree ["tests", "tests/Deep"] ⟨.root, []⟩ ⟨.root, []⟩ ∧
      gather cacheTree ["tests", "tests/Deep"] ⟨.root, []⟩ ⟨.root, []⟩ =
        .ok (PathSet.ofList [⟨.root, ["tests", "A.elm"]⟩, ⟨.root, ["tests", "Deep", "B.elm"]⟩]) :=
  ⟨namesDirectories_cacheTree, not_meetsLong_cacheTree, gathers (nulFree_of_plain plain_cacheTree) ..,
    by decide +kernel⟩

/-- A name that is too long to be looked up. -/
def longName : String := String.ofList (List.replicate 256 'x')

theorem isName_longName : Path.IsName longName :=
  Path.isName_replicated (by decide) (by decide) (by decide)

theorem gather_longName : gather cacheTree [longName] ⟨.root, []⟩ ⟨.root, []⟩ =
    .error (.problem .unreadableTestFiles) := by
  have hnul : hasNul ⟨.root, [longName]⟩ = false := by
    refine hasNul_eq_false fun name hname h => ?_
    rw [List.mem_singleton.mp hname] at h
    exact absurd (Path.eq_of_mem_replicated h) (by decide)
  have hlength : ¬maxPathBytes < (toString (⟨.root, [longName]⟩ : Path)).utf8ByteSize := by
    rw [utf8ByteSize_root, width_cons, width_nil]
    decide +kernel
  have hroot : cacheTree.root.at? [] = some (.dir cacheTree.root.entries) := rfl
  have hstride : stride cacheTree.root true [] [longName] = .error .nameTooLong := by
    rw [stride_cons hroot, if_neg isName_longName.ne_dot, if_neg (by decide +kernel),
      if_pos (by decide +kernel)]
  have hfind : cacheTree.find ⟨.root, [longName]⟩ true = .error .nameTooLong := by
    rw [find, lookUp, if_neg hlength]
    change walk cacheTree.root true maxLinks [] [longName] = _
    rw [walk.eq_def, hstride]
  have hisDir : cacheTree.isDir ⟨.root, [longName]⟩ =
      .error ⟨.nameTooLong, toString (⟨.root, [longName]⟩ : Path)⟩ := by
    rw [isDir, leadsTo, hnul, if_neg (by decide), status, hfind]
    rfl
  rw [gather_singleton, Path.joinText_of_isName isName_longName, ofCandidate]
  change (((cacheTree.isDir ⟨.root, [longName]⟩).mapError Fault.file >>= _).map _).mapError _ = _
  rw [hisDir]
  rfl

/-- Of an argument with the problem and one with `U+0000` before a pattern, the first one decides. -/
theorem gather_longName_nulPattern :
    gather cacheTree [longName] ⟨.root, []⟩ ⟨.root, []⟩ = .error (.problem .unreadableTestFiles) ∧
      gather cacheTree [longName, "a\x00/*"] ⟨.root, []⟩ ⟨.root, []⟩ =
        .error (.problem .unreadableTestFiles) ∧
      gather cacheTree ["a\x00/*", longName] ⟨.root, []⟩ ⟨.root, []⟩ = .error .embeddedNul := by
  have hpattern : gather cacheTree ["a\x00/*"] ⟨.root, []⟩ ⟨.root, []⟩ = .error .embeddedNul := by
    decide +kernel
  refine ⟨gather_longName, (gather_eq_error_iff (by simp)).mpr ?_,
    (gather_eq_error_iff (by simp)).mpr ?_⟩
  · exact ⟨[], longName, ["a\x00/*"], rfl, by simp, gather_longName⟩
  · exact ⟨[], "a\x00/*", [longName], rfl, by simp, hpattern⟩

end ElmSuite.TestFiles

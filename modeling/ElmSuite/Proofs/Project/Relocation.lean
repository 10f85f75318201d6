import ElmSuite.Proofs.Files.Relocated
import ElmSuite.Proofs.Project.Gathering

/-!
# Gathering in two places

The same arguments stand for the same test files of a project wherever it is, except that the names
that lead to the project are read as patterns too when an argument is.
-/

namespace ElmSuite.TestFiles

open FileSystem

/-! ## Results that are alike -/

/-- Two results that are related, or two faults that are reported alike. -/
inductive Alike {α β : Type} (R : α → β → Prop) : Except Fault α → Except Fault β → Prop
  | ok {a : α} {b : β} (h : R a b) : Alike R (.ok a) (.ok b)
  | error {e e' : Fault} (h : reported e = reported e') : Alike R (.error e) (.error e')

namespace Alike

variable {α β γ δ : Type} {Q : α → β → Prop} {R : γ → δ → Prop}

theorem of_toOption {r r' : Except FileError α} (h : r.toOption = r'.toOption) :
    Alike Eq (r.mapError Fault.file) (r'.mapError Fault.file) := by
  cases r <;> cases r' <;> simp only [Except.toOption, Option.some.injEq, reduceCtorEq] at h
  · exact .error rfl
  · exact .ok h

/-- Results stay alike if what is done next is alike for the values they have. -/
theorem bind {r : Except Fault α} {r' : Except Fault β} {f : α → Except Fault γ}
    {g : β → Except Fault δ} (h : Alike Q r r')
    (hnext : ∀ a b, r = .ok a → r' = .ok b → Q a b → Alike R (f a) (g b)) :
    Alike R (r >>= f) (r' >>= g) := by
  cases h with
  | ok hab => exact hnext _ _ rfl rfl hab
  | error he => exact .error he

theorem mapM {items : List α} {items' : List β} {f : α → Except Fault γ} {g : β → Except Fault δ}
    (hitems : List.Forall₂ Q items items') (h : ∀ a b, Q a b → Alike R (f a) (g b)) :
    Alike (List.Forall₂ R) (items.mapM f) (items'.mapM g) := by
  induction hitems with
  | nil => exact .ok .nil
  | cons hab _ ih =>
    rw [List.mapM_cons, List.mapM_cons]
    exact (h _ _ hab).bind fun _ _ _ _ hhead => ih.bind fun _ _ _ _ hrest => .ok (.cons hhead hrest)

theorem forM {items : List α} {f g : α → Except Fault PUnit}
    (h : ∀ a ∈ items, Alike Eq (f a) (g a)) : Alike Eq (items.forM f) (items.forM g) := by
  induction items with
  | nil => exact .ok rfl
  | cons a items ih =>
    obtain ⟨ha, hrest⟩ := List.forall_mem_cons.mp h
    exact ha.bind fun _ _ _ _ _ => ih hrest

theorem filterM {items : List α} {f g : α → Except Fault Bool}
    (h : ∀ a ∈ items, Alike Eq (f a) (g a)) : Alike Eq (items.filterM f) (items.filterM g) := by
  have haux (before : List α) :
      Alike Eq (items.filterAuxM f before) (items.filterAuxM g before) := by
    induction items generalizing before with
    | nil => exact .ok rfl
    | cons a items ih =>
      obtain ⟨ha, hrest⟩ := List.forall_mem_cons.mp h
      rw [List.filterAuxM, List.filterAuxM]
      exact ha.bind fun b _ _ _ hb => hb ▸ ih hrest _
  exact (haux []).bind fun _ _ _ _ hkept => .ok (congrArg List.reverse hkept)

end Alike

/-! ## Patterns -/

section Steps

variable {fs fs' : FileSystem} {place place' x : List String} {tree : Node}
  {asked : List (List String)} (h : Relocated fs fs' place place' tree asked)

include h

theorem alike_expandName (hx : Known tree asked x) {name : String}
    (hname : name ≠ "." ∧ name ≠ "..") (dirsOnly : Bool) :
    Alike (List.Forall₂ (SameSpot place place' tree asked))
      (fs.expandName name dirsOnly (spot place x)) (fs'.expandName name dirsOnly (spot place' x)) := by
  rw [expandName, expandName, ← h.hasNul_eq]
  by_cases hdeep : name = "**"
  · rw [if_pos hdeep, if_pos hdeep]
    split
    · exact .error rfl
    · exact .ok (.cons ⟨x, hx, rfl, rfl⟩ (h.forall₂_visibleBelow hx _ _))
  · rw [if_neg hdeep, if_neg hdeep]
    split
    · split
      · exact .error rfl
      · obtain ⟨heq, hnames⟩ := h.namesIn_eq hx dirsOnly
        rw [← heq]
        refine .ok (List.forall₂_map_left_iff.mpr (List.forall₂_map_right_iff.mpr ?_))
        refine List.forall₂_same.mpr fun n hn => ⟨x ++ [n], .inl ?_, child_spot .., child_spot ..⟩
        exact hnames n (List.mem_of_mem_filter hn)
    · have hdown : ∀ n ∈ x ++ [name], n ≠ "." ∧ n ≠ ".." :=
        List.forall_mem_append.mpr ⟨h.down_of_known hx, List.forall_mem_singleton.mpr hname⟩
      rw [child_spot, child_spot, ← h.hasEntry_eq hdown]
      split
      · next hentry =>
        exact .ok (.cons ⟨_, .inl (h.here.isSome_of_hasEntry hdown hentry), rfl, rfl⟩ .nil)
      · exact .ok .nil

theorem alike_expandNames {names : List String} (hnames : ∀ name ∈ names, name ≠ "." ∧ name ≠ "..")
    {dirs dirs' : List Path} (hdirs : List.Forall₂ (SameSpot place place' tree asked) dirs dirs') :
    Alike (List.Forall₂ (SameSpot place place' tree asked))
      (fs.expandNames names dirs) (fs'.expandNames names dirs') := by
  induction names generalizing dirs dirs' with
  | nil => exact .ok hdirs
  | cons name rest ih =>
    obtain ⟨hname, hrest⟩ := List.forall_mem_cons.mp hnames
    have hnext := Alike.mapM (f := fs.expandName name !rest.isEmpty)
      (g := fs'.expandName name !rest.isEmpty) hdirs (by
        rintro _ _ ⟨x, hx, rfl, rfl⟩
        exact alike_expandName h hx hname _)
    rw [expandNames, expandNames]
    exact hnext.bind fun _ _ _ _ hfound => ih hrest (List.rel_flatten hfound)

/-- A pattern below two places stands for the same names there, if no name of the places is a pattern
itself. -/
theorem alike_expand (hx : Known tree asked x)
    (hplace : ∀ name ∈ place, NamePattern.isPattern name = false)
    (hplace' : ∀ name ∈ place', NamePattern.isPattern name = false) :
    Alike (List.Forall₂ (SameSpot place place' tree asked))
      (fs.expand (spot place x)) (fs'.expand (spot place' x)) := by
  have hdown := h.down_of_known hx
  rcases pattern_cases x with hall | ⟨front, name, rest, rfl, hfront, hname⟩
  · have hliteral {place : List String} (hplace : ∀ n ∈ place, NamePattern.isPattern n = false) :
        ∀ n ∈ (spot place x).names, NamePattern.isPattern n = false := fun n hn =>
      (List.mem_append.mp hn).elim (hplace n) (hall n)
    rw [expand_of_literal (hliteral hplace), expand_of_literal (hliteral hplace'),
      ← h.hasEntry_eq hdown]
    split
    · exact .ok (.cons ⟨x, hx, rfl, rfl⟩ .nil)
    · exact .ok .nil
  · have hsplit (place : List String) :
        (spot place (front ++ name :: rest)).names = (place ++ front) ++ name :: rest := by
      rw [spot, List.append_assoc]
    have hliteral {place : List String} (hplace : ∀ n ∈ place, NamePattern.isPattern n = false) :
        ∀ n ∈ place ++ front, NamePattern.isPattern n = false := fun n hn =>
      (List.mem_append.mp hn).elim (hplace n) (hfront n)
    rw [expand_of_pattern (hsplit place) (hliteral hplace) hname,
      expand_of_pattern (hsplit place') (hliteral hplace') hname]
    refine alike_expandNames h (fun n hn => hdown n (List.mem_append_right _ hn)) ?_
    exact .cons ⟨front, hx.of_prefix (List.prefix_append ..), rfl, rfl⟩ .nil

/-! ## Test files -/

theorem alike_isDir (hx : Known tree asked x) :
    Alike Eq ((fs.isDir (spot place x)).mapError Fault.file)
      ((fs'.isDir (spot place' x)).mapError Fault.file) :=
  .of_toOption (h.leadsTo_eq hx Node.isDir)

theorem alike_isFile (hx : Known tree asked x) :
    Alike Eq ((fs.isFile (spot place x)).mapError Fault.file)
      ((fs'.isFile (spot place' x)).mapError Fault.file) :=
  .of_toOption (h.leadsTo_eq hx Node.isFile)

theorem alike_checkNode (hx : Known tree asked x) (node : Node) :
    Alike Eq ((checkNode fs (spot place x) node).mapError Fault.file)
      ((checkNode fs' (spot place' x) node).mapError Fault.file) := by
  have hdir : ((fs.isDir (spot place x)).map fun _ => ()).toOption =
      ((fs'.isDir (spot place' x)).map fun _ => ()).toOption := by
    have hmap (r : Except FileError Bool) : (r.map fun _ => ()).toOption = r.toOption.map fun _ => () := by
      cases r <;> rfl
    rw [hmap, hmap, isDir, isDir, h.leadsTo_eq hx]
  cases node with
  | file => exact .ok rfl
  | link | dir => exact .of_toOption hdir

/-- A file that is found is listed by the path of its names. -/
theorem sameSpot_resolved (hx : Known tree asked x) (hfile : fs.isFile (spot place x) = .ok true) :
    SameSpot place place' tree asked (fs.resolved (spot place x)) (fs'.resolved (spot place' x)) := by
  obtain ⟨node, hnode, -, hlong⟩ := h.here.of_leadsTo (h.down_of_known hx) hfile
  rw [h.here.resolved_spot hnode hlong,
    h.there.resolved_spot hnode fun hlong' => hlong ((h.tooLong_iff x hx).mpr hlong')]
  exact ⟨x, hx, rfl, rfl⟩

theorem known_of_mem_listed (hx : Known tree asked x) {d : List String × Node}
    (hd : d ∈ listed fs (spot place x)) : Known tree asked (x ++ d.1) := by
  rw [listed] at hd
  cases hnode : fs.node? (spot place x) with
  | none => simp [hnode] at hd
  | some node =>
    rw [hnode] at hd
    have hat := h.here.at?_of_node? (h.down_of_known hx) hnode
    obtain ⟨-, hbelow⟩ := (h.here.plain.of_at? hat).mem_descendants_iff.mp hd
    refine .inl ?_
    rw [at?_below hat, hbelow]
    rfl

/-- A directory yields the same Elm files in both places. -/
theorem alike_inDirectory (hx : Known tree asked x) :
    Alike (List.Forall₂ (SameSpot place place' tree asked))
      (inDirectory fs (spot place x)) (inDirectory fs' (spot place' x)) := by
  have hlisted : listed fs' (spot place' x) = listed fs (spot place x) := by
    rw [listed, listed, h.node?_eq hx]
  have hnamed : named fs' (spot place' x) = named fs (spot place x) := by
    rw [named, named, hlisted]
  have hknown {names : List String} (hnames : names ∈ named fs (spot place x)) :
      Known tree asked (x ++ names) := by
    obtain ⟨d, hd, -, rfl⟩ := mem_named.mp hnames
    exact known_of_mem_listed h hx hd
  -- The same nodes are listed in both places, so the passes over them go in step.
  rw [inDirectory_eq, inDirectory_eq, hnamed, hlisted]
  simp only [pathBelow_spot]
  refine (Alike.forM fun d hd => alike_checkNode h (known_of_mem_listed h hx hd) d.2).bind
    fun _ _ _ _ _ => (Alike.filterM fun names hnames => alike_isFile h (hknown hnames)).bind ?_
  rintro kept _ hkept - rfl
  rcases filterM_cases (fun names => (fs.isFile (spot place (x ++ names))).mapError Fault.file)
    (named fs (spot place x)) with ⟨kept', hkept', -, hmem⟩ | ⟨_, _, _, _, herror⟩
  · obtain rfl := Except.ok.inj (hkept.symm.trans hkept')
    refine .ok (List.forall₂_map_left_iff.mpr (List.forall₂_map_right_iff.mpr ?_))
    refine List.forall₂_same.mpr fun names hnames => ?_
    obtain ⟨hnames, hfile⟩ := (hmem names).mp (List.mem_of_mem_filter hnames)
    exact sameSpot_resolved h (hknown hnames) (mapError_eq_ok_iff.mp hfile)
  · cases hkept.symm.trans herror

theorem alike_ofMatch {p p' : Path} (hp : SameSpot place place' tree asked p p') :
    Alike (List.Forall₂ (SameSpot place place' tree asked))
      (ofMatch fs (spot place []) p) (ofMatch fs' (spot place' []) p') := by
  obtain ⟨x, hx, rfl, rfl⟩ := hp
  have hignored (place : List String) (isDir : Bool) :
      isIgnoredMatch (spot place []) (spot place x) isDir = isIgnored x isDir := by
    have hrelative : (spot place x).relativeTo? (spot place []) = some x := by
      rw [Path.relativeTo?_eq_some_iff, spot, spot, List.append_nil]
    rw [isIgnoredMatch, hrelative, Option.getD_some]
  refine (alike_isDir h hx).bind ?_
  rintro isDir _ - - rfl
  rw [hignored, hignored]
  split
  · exact .ok .nil
  · split
    · exact alike_inDirectory h hx
    · refine (alike_isFile h hx).bind ?_
      rintro isFile _ hfile - rfl
      split
      · next htrue =>
        subst htrue
        exact .ok (.cons (sameSpot_resolved h hx (mapError_eq_ok_iff.mp hfile)) .nil)
      · exact .ok .nil

/-- What is in the tree is a file or a directory. -/
theorem eq_none_of_isDir_of_isFile (hdir : fs.isDir (spot place x) = .ok false)
    (hfile : fs.isFile (spot place x) = .ok false) : tree.at? x = none := by
  refine Option.eq_none_iff_forall_ne_some.mpr fun node hnode => ?_
  rw [isDir, h.here.leadsTo_spot hnode] at hdir
  rw [isFile, h.here.leadsTo_spot hnode] at hfile
  split_ifs at hdir hfile
  cases node with
  | file | dir => simp [Node.isDir, Node.isFile] at hdir hfile
  | link target => exact h.here.plain.noLink x target hnode

/-- An argument stands for the same test files in both places, if it leads to a node there or the
places have no names that are patterns. -/
theorem alike_ofCandidate (hx : Known tree asked x)
    (hliteral : (∀ name ∈ place ++ place', NamePattern.isPattern name = false) ∨
      (tree.at? x).isSome) :
    Alike (List.Forall₂ (SameSpot place place' tree asked))
      (ofCandidate fs (spot place []) (spot place x))
      (ofCandidate fs' (spot place' []) (spot place' x)) := by
  refine (alike_isDir h hx).bind ?_
  rintro isDir _ hdir - rfl
  cases isDir with
  | true => exact alike_inDirectory h hx
  | false =>
    refine (alike_isFile h hx).bind ?_
    rintro isFile _ hfile - rfl
    cases isFile with
    | true => exact .ok (.cons (sameSpot_resolved h hx (mapError_eq_ok_iff.mp hfile)) .nil)
    | false =>
      -- Only what leads to no node is read as a pattern, with the names of the place in it.
      rcases hliteral with hliteral | hsome
      · obtain ⟨hplace, hplace'⟩ := List.forall_mem_append.mp hliteral
        refine (alike_expand h hx hplace hplace').bind fun _ _ _ _ hfound => ?_
        exact (Alike.mapM hfound fun _ _ => alike_ofMatch h).bind fun _ _ _ _ hfiles =>
          .ok (List.rel_flatten hfiles)
      · rw [eq_none_of_isDir_of_isFile h (mapError_eq_ok_iff.mp hdir)
          (mapError_eq_ok_iff.mp hfile)] at hsome
        cases hsome

end Steps

/-! ## Gathering -/

/-- Whether two gatherings have the same files, relative to the two places, or fail alike. -/
def SameBelow (place place' : List String) (r r' : Except Fault PathSet) : Prop :=
  (∃ files : List (List String), r = .ok (PathSet.ofList (files.map (spot place))) ∧
      r' = .ok (PathSet.ofList (files.map (spot place')))) ∨
    ∃ fault, r = .error fault ∧ r' = .error fault

/-- The names that arguments ask for, read from a directory of the project. -/
def askedBelow (base : List String) (arguments : List String) : List (List String) :=
  if arguments = [] then [["tests"]] else arguments.map fun a => base ++ (Path.ofString a).names

variable {fs fs' : FileSystem} {place place' base : List String} {tree : Node}
  {arguments : List String}

theorem candidates_spot (hrelative : ∀ a ∈ arguments, (Path.ofString a).isAbsolute = false) :
    candidates arguments (spot place []) (spot place base) =
      (askedBelow base arguments).map (spot place) := by
  rw [candidates, askedBelow]
  split_ifs with hnone
  · rw [child_spot]
    rfl
  · rw [List.map_map]
    refine List.map_congr_left fun a ha => ?_
    rw [Path.joinText, Path.join, hrelative a ha, if_neg (by decide), Function.comp_apply, spot, spot,
      List.append_assoc]

/-- **Gathering in two places.** Relative arguments stand for the same test files wherever a project
without links is, if they lead to nodes there or no name that leads to the project is a pattern. -/
theorem sameBelow_of_relocated
    (h : Relocated fs fs' place place' tree (askedBelow base arguments))
    (hrelative : ∀ a ∈ arguments, (Path.ofString a).isAbsolute = false)
    (hliteral : (∀ name ∈ place ++ place', NamePattern.isPattern name = false) ∨
      ∀ names ∈ askedBelow base arguments, (tree.at? names).isSome) :
    SameBelow place place' (gather fs arguments (spot place []) (spot place base))
      (gather fs' arguments (spot place' []) (spot place' base)) := by
  have halike : Alike
      (List.Forall₂ (List.Forall₂ (SameSpot place place' tree (askedBelow base arguments))))
      (((askedBelow base arguments).map (spot place)).mapM (ofCandidate fs (spot place [])))
      (((askedBelow base arguments).map (spot place')).mapM (ofCandidate fs' (spot place' []))) := by
    refine Alike.mapM (Q := fun p p' => ∃ x ∈ askedBelow base arguments, p = spot place x ∧
      p' = spot place' x) ?_ ?_
    · refine List.forall₂_map_left_iff.mpr (List.forall₂_map_right_iff.mpr ?_)
      exact List.forall₂_same.mpr fun x hx => ⟨x, hx, rfl, rfl⟩
    · rintro _ _ ⟨x, hx, rfl, rfl⟩
      exact alike_ofCandidate h (.inr ⟨x, hx, List.prefix_rfl⟩)
        (hliteral.imp_right fun hall => hall x hx)
  rw [gather_eq, gather_eq, candidates_spot hrelative, candidates_spot hrelative]
  revert halike
  generalize ((askedBelow base arguments).map (spot place)).mapM
    (ofCandidate fs (spot place [])) = r
  generalize ((askedBelow base arguments).map (spot place')).mapM
    (ofCandidate fs' (spot place' [])) = r'
  intro halike
  cases halike with
  | error he => exact .inr ⟨_, rfl, congrArg Except.error he.symm⟩
  | ok hfound =>
    obtain ⟨files, hfiles, hfiles'⟩ := exists_map_spot (List.rel_flatten hfound)
    exact .inl ⟨files, by rw [← hfiles]; rfl, by rw [← hfiles']; rfl⟩

/-- A package with one test. -/
def onePackage : Node := .dir [("tests", .dir [("ATest.elm", .file [] false)])]

/-- The package in a directory of that name. -/
def packageIn (name : String) : FileSystem := ⟨.dir [(name, onePackage)], some []⟩

theorem onePackage_cases {names : List String} {node : Node} (h : onePackage.at? names = some node) :
    width names ≤ 100 ∧ (∀ target, node ≠ .link target) ∧ (∀ e ∈ node.entries, IsEntryName e.1) ∧
      (node.entries.map Prod.fst).Nodup := by
  have hmem := mem_cons_descendants_of_at? h
  simp only [onePackage, Node.descendants, Node.entryDescendants, List.map_cons, List.map_nil,
    List.cons_append, List.nil_append, List.mem_cons, Prod.mk.injEq, List.not_mem_nil,
    or_false] at hmem
  rcases hmem with ⟨rfl, rfl⟩ | ⟨rfl, rfl⟩ | ⟨rfl, rfl⟩ <;>
    exact ⟨by decide, by simp, by decide, by decide⟩

theorem located_packageIn {name : String} (hname : IsEntryName name) :
    Located (packageIn name) [name] onePackage where
  at?_eq := by simp [packageIn, Node.at?_cons, Node.entry?, Node.entries, Node.at?_nil]
  plain :=
    { noLink _ target h := (onePackage_cases h).2.1 target rfl
      isEntryName _ _ h := (onePackage_cases h).2.2.1
      nodup _ _ h := (onePackage_cases h).2.2.2 }
  isEntryName := by simpa using hname

theorem askedBelow_pattern : askedBelow [] ["tests/*Test.elm"] = [["tests", "*Test.elm"]] := by
  decide

theorem relocated_packageIn {name name' : String} (hname : IsEntryName name)
    (hname' : IsEntryName name') :
    Relocated (packageIn name) (packageIn name') [name] [name'] onePackage
      (askedBelow [] ["tests/*Test.elm"]) where
  here := located_packageIn hname
  there := located_packageIn hname'
  down := by decide
  tooLong_iff x hx := by
    have hwidth : width x ≤ 100 := by
      rw [askedBelow_pattern] at hx
      rcases hx with hnode | ⟨names, hnames, rest, hrest⟩
      · obtain ⟨node, hnode⟩ := Option.isSome_iff_exists.mp hnode
        exact (onePackage_cases hnode).1
      · have hle : width names ≤ 100 := by
          rw [List.mem_singleton.mp hnames]
          decide
        rw [← hrest, width_append] at hle
        omega
    have hshort {name : String} (hname : IsEntryName name) : ¬TooLong (spot [name] x) := by
      have hle := hname.short
      rw [maxNameBytes] at hle
      rw [TooLong, spot, utf8ByteSize_root, width_append, width_cons, width_nil, maxPathBytes]
      omega
    exact iff_of_false (hshort hname) (hshort hname')

/-- What a pattern for the tests of the package stands for. -/
def testsIn (name : String) : Except Fault PathSet :=
  gather (packageIn name) ["tests/*Test.elm"] (spot [name] []) (spot [name] [])

theorem sameBelow_packageIn :
    Relocated (packageIn "a") (packageIn "b c") ["a"] ["b c"] onePackage
        (askedBelow [] ["tests/*Test.elm"]) ∧
      SameBelow ["a"] ["b c"] (testsIn "a") (testsIn "b c") ∧
      testsIn "b c" = .ok (PathSet.ofList [spot ["b c"] ["tests", "ATest.elm"]]) := by
  have h := @relocated_packageIn "a" "b c" (by decide) (by decide)
  exact ⟨h, sameBelow_of_relocated h (by decide) (.inl (by decide)), by decide +kernel⟩

/-- In a pattern, the directory `[a]` stands for the directory `a`. -/
theorem not_sameBelow_packageIn :
    Relocated (packageIn "a") (packageIn "[a]") ["a"] ["[a]"] onePackage
        (askedBelow [] ["tests/*Test.elm"]) ∧
      testsIn "a" = .ok (PathSet.ofList [spot ["a"] ["tests", "ATest.elm"]]) ∧
      testsIn "[a]" = .ok (PathSet.ofList []) ∧
      ¬SameBelow ["a"] ["[a]"] (testsIn "a") (testsIn "[a]") := by
  have hfound : testsIn "a" = .ok (PathSet.ofList [spot ["a"] ["tests", "ATest.elm"]]) := by
    decide +kernel
  have hmissed : testsIn "[a]" = .ok (PathSet.ofList []) := by decide +kernel
  refine ⟨relocated_packageIn (by decide) (by decide), hfound, hmissed, ?_⟩
  rw [hfound, hmissed]
  rintro (⟨files, hfiles, hfiles'⟩ | ⟨_, herror, -⟩)
  · have hmem (x : List String) : x ∉ files := fun hx => by
      have hp : spot ["[a]"] x ∈ PathSet.ofList (files.map (spot ["[a]"])) := by
        simpa using ⟨x, hx, rfl⟩
      rw [← Except.ok.inj hfiles'] at hp
      simp at hp
    have hp : spot ["a"] ["tests", "ATest.elm"] ∈ PathSet.ofList (files.map (spot ["a"])) := by
      rw [← Except.ok.inj hfiles]
      simp
    obtain rfl := List.eq_nil_iff_forall_not_mem.mpr hmem
    simp at hp
  · cases herror

end ElmSuite.TestFiles

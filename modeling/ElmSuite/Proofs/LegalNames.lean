import ElmSuite.Program.Generator
import ElmSuite.Proofs.AmbiguousNames
import ElmSuite.Proofs.Program.ModuleFile
import ElmSuite.Proofs.Text.LineCuts

/-!
# Legal module names

A path that has a part which is no capitalised identifier declares no module, so that
the names in a module table are made of such identifiers, with dots between them. One
line feed may follow an identifier. A path without line feeds has none in the name
that it declares either, and the import of the name takes one line.
-/

namespace ElmSuite

open Text (isLineEnd)

/-- What a module name may have between its dots: a capitalised identifier, which one line feed may
follow. -/
def IsNamePart (s : String) : Prop :=
  ∃ name, IsUpperIdentifier name ∧ (s.toList = name ∨ s.toList = name ++ ['\n'])

/-! ## Names without line feeds -/

section Parts

variable {name m : String} {c : Char}

/-- A name that is cut before its suffix is made of its own characters. -/
theorem mem_of_mem_stem (h : c ∈ (Path.stem name).toList) : c ∈ name.toList := by
  rw [Path.stem] at h
  split at h
  · exact h
  · rw [String.toList_ofList, List.mem_reverse] at h
    exact List.mem_reverse.mp (List.mem_of_mem_drop h)

theorem mem_of_mem_moduleParts {names : List String} {s : String} (hs : s ∈ moduleParts names)
    (hc : c ∈ s.toList) : ∃ n ∈ names, c ∈ n.toList := by
  match names with
  | [] => cases hs
  | [last] =>
    obtain rfl := List.mem_singleton.mp hs
    exact ⟨last, List.mem_singleton_self last, mem_of_mem_stem hc⟩
  | name :: next :: rest =>
    rw [moduleParts_cons (List.cons_ne_nil _ _), List.mem_cons] at hs
    rcases hs with rfl | hs
    · exact ⟨s, List.mem_cons_self .., hc⟩
    · obtain ⟨n, hn, hcn⟩ := mem_of_mem_moduleParts hs hc
      exact ⟨n, List.mem_cons_of_mem name hn, hcn⟩

theorem isUpperIdentifier_of_isNamePart (h : IsNamePart m) (hline : '\n' ∉ m.toList) :
    IsUpperIdentifier m.toList := by
  obtain ⟨name, hname, hplain | hfeed⟩ := h
  · rw [hplain]
    exact hname
  · rw [hfeed] at hline
    exact absurd (by simp) hline

/-- Names without line feeds have parts without them. -/
theorem isUpperIdentifier_of_mem_moduleParts {names : List String}
    (hline : ∀ n ∈ names, '\n' ∉ n.toList) {s : String} (hs : s ∈ moduleParts names)
    (h : IsNamePart s) : IsUpperIdentifier s.toList := by
  refine isUpperIdentifier_of_isNamePart h fun hfeed => ?_
  obtain ⟨n, hn, hmem⟩ := mem_of_mem_moduleParts hs hfeed
  exact hline n hn hmem

theorem isDottedName_intercalate {parts : List String} (hne : parts ≠ [])
    (h : ∀ s ∈ parts, IsUpperIdentifier s.toList) :
    IsDottedName (String.intercalate "." parts).toList := by
  refine ⟨parts.map String.toList, by simpa using hne, ?_, by rw [String.toList_intercalate]; rfl⟩
  intro segment hsegment
  obtain ⟨s, hs, rfl⟩ := List.mem_map.mp hsegment
  exact h s hs

/-- A dotted name stands on one line. -/
theorem isLineEnd_of_mem_dottedName {name : List Char} (h : IsDottedName name) :
    ∀ c ∈ name, isLineEnd c = false := by
  intro c hc
  obtain ⟨hlo, hhi, -⟩ := Header.isTokenChar_toNat (Header.isTokenChar_of_name h c hc)
  exact Text.isLineEnd_of_ascii hlo (by omega)

end Parts

/-- A path declares what its parts below the directory make, if they are all legal. -/
theorem moduleName?_below (dir : Path) (names : List String) {m : String}
    (h : moduleName? ⟨dir.anchor, dir.names ++ names⟩ dir = some m) :
    moduleParts names ≠ [] ∧ (∀ s ∈ moduleParts names, IsNamePart s) ∧
      m = String.intercalate "." (moduleParts names) := by
  obtain ⟨below, hne, heq, hupper, rfl⟩ := moduleName?_eq_some_iff.mp h
  obtain rfl : names = below := List.append_cancel_left (congrArg Path.names heq)
  exact ⟨moduleParts_ne_nil hne, fun s hs => isUpperName_iff.mp (hupper s hs), rfl⟩

theorem moduleName?_eq_none_of_part {dir : Path} {names : List String} {s : String}
    (hs : s ∈ moduleParts names) (h : ¬ IsNamePart s) :
    moduleName? ⟨dir.anchor, dir.names ++ names⟩ dir = none := by
  rw [Option.eq_none_iff_forall_ne_some]
  intro m hm
  exact h ((moduleName?_below dir names hm).2.1 s hs)

/-! ## Lines of imports -/

/-- The imports of modules whose names stand on one line stand on one line each. -/
theorem splitLines_importLines {modules : List String}
    (h : ∀ m ∈ modules, ∀ c ∈ m.toList, isLineEnd c = false) :
    Text.splitLines (Program.importLines modules) =
      modules.map fun m => "import ".toList ++ m.toList := by
  refine Text.splitLines_intercalate fun line hline => ?_
  obtain ⟨m, hm, rfl⟩ := List.mem_map.mp hline
  refine ⟨List.append_ne_nil_of_left_ne_nil (by decide) _, fun c hc => ?_⟩
  rcases List.mem_append.mp hc with hc | hc
  · have hall : "import ".toList.all (!isLineEnd ·) = true := by decide
    simpa using List.all_eq_true.mp hall c hc
  · exact h m hm c hc

/-! ## The names in a table -/

section Table

variable {files dirs : List Path} {m : String}

theorem exists_file_of_mem_moduleTable (h : m ∈ moduleTable (PathSet.ofList files) dirs) :
    ∃ file, (moduleTable (PathSet.ofList files) dirs)[m]? = some file :=
  Option.isSome_iff_exists.mp (Std.ExtTreeMap.mem_iff_isSome_getElem?.mp h)

/-- A name in a table is made of what its file has below a listed directory. -/
theorem exists_parts_of_moduleTable {file : Path}
    (h : (moduleTable (PathSet.ofList files) dirs)[m]? = some file) :
    file ∈ files ∧ ∃ dir ∈ dirs, ∃ names, file = ⟨dir.anchor, dir.names ++ names⟩ ∧
      moduleParts names ≠ [] ∧ (∀ s ∈ moduleParts names, IsNamePart s) ∧
      m = String.intercalate "." (moduleParts names) := by
  obtain ⟨hfile, dir, hdir, hname⟩ :=
    declares_ofList_iff.mp (getElem?_moduleTable_iff_sole.mp h).1
  obtain ⟨names, -, rfl, -, -⟩ := moduleName?_eq_some_iff.mp hname
  exact ⟨hfile, dir, hdir, names, rfl, moduleName?_below dir names hname⟩

theorem isDottedName_of_moduleTable {file : Path}
    (h : (moduleTable (PathSet.ofList files) dirs)[m]? = some file)
    (hline : ∀ n ∈ file.names, '\n' ∉ n.toList) : IsDottedName m.toList := by
  obtain ⟨-, dir, -, names, rfl, hne, hparts, rfl⟩ := exists_parts_of_moduleTable h
  have hbelow : ∀ n ∈ names, '\n' ∉ n.toList := fun n hn => hline n (List.mem_append_right _ hn)
  exact isDottedName_intercalate hne fun s hs =>
    isUpperIdentifier_of_mem_moduleParts hbelow hs (hparts s hs)

end Table

/-- **Only legal module names enter a table.** A name in it is made of capitalised identifiers with
dots between them, each of which a line feed may follow, and a path with any other part below a
directory declares nothing there. A file whose path has no line feed has a name made of
capitalised identifiers alone, which stands on one line, and so does its import. -/
theorem moduleTable_legalNames (files dirs : List Path) :
    (∀ m ∈ moduleTable (PathSet.ofList files) dirs, ∃ parts : List String, parts ≠ [] ∧
      (∀ s ∈ parts, IsNamePart s) ∧ m = String.intercalate "." parts) ∧
    (∀ (dir : Path) (names : List String) (s : String), s ∈ moduleParts names → ¬ IsNamePart s →
      moduleName? ⟨dir.anchor, dir.names ++ names⟩ dir = none) ∧
    (∀ (m : String) (file : Path), (moduleTable (PathSet.ofList files) dirs)[m]? = some file →
      (∀ n ∈ file.names, '\n' ∉ n.toList) →
        IsDottedName m.toList ∧ ∀ c ∈ m.toList, isLineEnd c = false) ∧
    (∀ (dir : Path) (names : List String) (s : String), (∀ n ∈ names, '\n' ∉ n.toList) →
      s ∈ moduleParts names → ¬ IsUpperIdentifier s.toList →
        moduleName? ⟨dir.anchor, dir.names ++ names⟩ dir = none) ∧
    ((∀ file ∈ files, ∀ n ∈ file.names, '\n' ∉ n.toList) →
      Text.splitLines (Program.importLines (moduleTable (PathSet.ofList files) dirs).keys) =
        (moduleTable (PathSet.ofList files) dirs).keys.map fun m => "import ".toList ++ m.toList) := by
  refine ⟨fun m hm => ?_, fun dir names s => moduleName?_eq_none_of_part, fun m file h hline => ?_,
    fun dir names s hline hs hnot => ?_, fun hline => ?_⟩
  · obtain ⟨file, hfile⟩ := exists_file_of_mem_moduleTable hm
    obtain ⟨-, dir, -, names, -, hparts⟩ := exists_parts_of_moduleTable hfile
    exact ⟨moduleParts names, hparts⟩
  · have hname := isDottedName_of_moduleTable h hline
    exact ⟨hname, isLineEnd_of_mem_dottedName hname⟩
  · exact moduleName?_eq_none_of_part hs fun hpart =>
      hnot (isUpperIdentifier_of_mem_moduleParts hline hs hpart)
  · refine splitLines_importLines fun m hm => ?_
    obtain ⟨file, hfile⟩ := exists_file_of_mem_moduleTable (Std.ExtTreeMap.mem_keys.mp hm)
    have hlisted := (exists_parts_of_moduleTable hfile).1
    exact isLineEnd_of_mem_dottedName (isDottedName_of_moduleTable hfile (hline file hlisted))

/-- A source file in a directory whose name ends with a line feed. -/
def fedFile : Path := ⟨.root, ["p", "src", "Foo\n", "Bar.elm"]⟩

/-- The line feed gets into the table, and cuts the import of the module in two. -/
theorem moduleTable_fedFile :
    (moduleTable (PathSet.ofList [fedFile]) [⟨.root, ["p", "src"]⟩])["Foo\n.Bar"]? = some fedFile ∧
    ¬ IsDottedName "Foo\n.Bar".toList ∧
    Text.splitLines (Program.importLines ["Foo\n.Bar"]) = ["import Foo".toList, ".Bar".toList] := by
  refine ⟨by decide +kernel, fun h => ?_, by decide⟩
  have hfeed := isLineEnd_of_mem_dottedName h '\n' (by decide)
  exact absurd hfeed (by decide)

end ElmSuite

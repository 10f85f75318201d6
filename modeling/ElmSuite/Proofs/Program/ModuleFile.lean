import ElmSuite.ModuleTable
import ElmSuite.Program.Layout
import ElmSuite.Project.TestFiles
import ElmSuite.Proofs.Header.Layout
import ElmSuite.Proofs.Path
import ElmSuite.Proofs.Program.Determined

/-!
# The file of a generated program

The file that a module name leads to declares that very module, and no other Elm file
does. So the program that is generated stands in a file of its own name, below the
source directory it is compiled in, and exposes `main` to those who read its header.
-/

namespace ElmSuite

/-- A module name: capitalised parts with dots between them. -/
def IsModuleName (m : String) : Prop := ∀ s ∈ splitString '.' m, isUpperName s = true

instance (m : String) : Decidable (IsModuleName m) :=
  inferInstanceAs (Decidable (∀ s ∈ splitString '.' m, isUpperName s = true))

/-! ## Capitalised parts -/

/-- A capitalised part is a capitalised identifier, which a line feed may follow. -/
theorem isUpperName_iff {s : String} :
    isUpperName s = true ↔
      ∃ name, IsUpperIdentifier name ∧ (s.toList = name ∨ s.toList = name ++ ['\n']) := by
  have hfeed : isIdentifierChar '\n' = false := by decide
  rw [isUpperName]
  constructor
  · intro h
    split at h
    · cases h
    · next c rest hs =>
      simp only [Bool.and_eq_true, List.all_eq_true] at h
      obtain ⟨hc, hbody⟩ := h
      split at hbody
      · next hlast =>
        refine ⟨c :: rest.dropLast, ⟨c, rest.dropLast, rfl, hc, hbody⟩, .inr ?_⟩
        rw [hs, List.cons_append, List.dropLast_append_getLast? '\n' hlast]
      · exact ⟨c :: rest, ⟨c, rest, rfl, hc, hbody⟩, .inl hs⟩
  · rintro ⟨name, ⟨c, rest, rfl, hc, hrest⟩, hs | hs⟩
    · have hlast : rest.getLast? ≠ some '\n' := by
        intro hlast
        have hchar := hrest '\n' (List.mem_of_getLast? hlast)
        rw [hfeed] at hchar
        cases hchar
      simp only [hs, hc, if_neg hlast, Bool.true_and, List.all_eq_true]
      exact hrest
    · simp only [hs, List.cons_append, hc, List.getLast?_concat, List.dropLast_concat,
        if_true, Bool.true_and, List.all_eq_true]
      exact hrest

theorem isIdentifierChar_of_mem_upperName {s : String} (h : isUpperName s = true) {c : Char}
    (hc : c ∈ s.toList) : isIdentifierChar c = true ∨ c = '\n' := by
  obtain ⟨name, hname, hs | hs⟩ := isUpperName_iff.mp h
  · exact .inl (hname.all c (hs ▸ hc))
  · rw [hs, List.mem_append, List.mem_singleton] at hc
    exact hc.imp (hname.all c) id

theorem not_mem_upperName {s : String} (h : isUpperName s = true) {c : Char}
    (hc : isIdentifierChar c = false) (hne : c ≠ '\n') : c ∉ s.toList := by
  intro hmem
  rcases isIdentifierChar_of_mem_upperName h hmem with hchar | rfl
  · rw [hc] at hchar
    cases hchar
  · exact hne rfl

theorem ne_empty_of_isUpperName {s : String} (h : isUpperName s = true) : s ≠ "" := by
  rintro rfl
  exact absurd h (by decide)

theorem isName_of_isUpperName {s : String} (h : isUpperName s = true) : Path.IsName s where
  ne_empty := ne_empty_of_isUpperName h
  ne_dot := by
    rintro rfl
    exact absurd h (by decide)
  no_slash := not_mem_upperName h (by decide) (by decide)

/-! ## Parts and names of a path -/

/-- The name of an Elm file is what is left without its suffix, and the suffix. -/
theorem stem_elmName {name : String} (helm : TestFiles.isElmName name = true)
    (hstem : isUpperName (Path.stem name) = true) : Path.stem name ++ ".elm" = name := by
  rw [TestFiles.isElmName, List.isSuffixOf_iff_suffix] at helm
  obtain ⟨front, hfront⟩ := helm
  have hname : name = String.ofList front ++ "." ++ "elm" := by
    apply String.toList_inj.mp
    rw [← hfront]
    simp
  by_cases hempty : String.ofList front = ""
  · rw [hempty] at hname
    rw [hname] at hstem
    exact absurd hstem (by decide)
  · rw [hname, Path.stem_append hempty (by decide) (by decide), String.append_assoc]
    rfl

theorem moduleParts_ne_nil {names : List String} (h : names ≠ []) : moduleParts names ≠ [] := by
  match names with
  | [] => exact absurd rfl h
  | [last] => simp [moduleParts]
  | name :: next :: rest => simp [moduleParts]

theorem moduleParts_cons {names : List String} (h : names ≠ []) (name : String) :
    moduleParts (name :: names) = name :: moduleParts names := by
  obtain ⟨next, rest, rfl⟩ := List.exists_cons_of_ne_nil h
  rfl

namespace Layout

theorem fileSegments_ne_nil {parts : List String} (h : parts ≠ []) : fileSegments parts ≠ [] := by
  match parts with
  | [] => exact absurd rfl h
  | [last] => simp [fileSegments]
  | part :: next :: rest => simp [fileSegments]

theorem fileSegments_cons {parts : List String} (h : parts ≠ []) (part : String) :
    fileSegments (part :: parts) = part :: fileSegments parts := by
  obtain ⟨next, rest, rfl⟩ := List.exists_cons_of_ne_nil h
  rfl

/-- What the parts of a module name make is a path of plain names. -/
theorem isName_of_mem_fileSegments {parts : List String} (h : ∀ s ∈ parts, isUpperName s = true) :
    ∀ s ∈ fileSegments parts, Path.IsName s := by
  match parts with
  | [] => simp [fileSegments]
  | [last] =>
    have hlast := h last (List.mem_cons_self ..)
    refine List.forall_mem_singleton.mpr ⟨?_, ?_, ?_⟩
    · intro hempty
      have hlength := congrArg String.length hempty
      simp at hlength
    · intro hdot
      have hend := congrArg (fun s : String => s.toList.getLast?) hdot
      simp at hend
    · rw [String.toList_append]
      exact List.not_mem_append (isName_of_isUpperName hlast).no_slash (by decide)
  | part :: next :: rest =>
    rw [fileSegments_cons (List.cons_ne_nil _ _), List.forall_mem_cons]
    rw [List.forall_mem_cons] at h
    exact ⟨isName_of_isUpperName h.1, isName_of_mem_fileSegments h.2⟩

/-- A module name does not lead up. -/
theorem up_not_mem_fileSegments {parts : List String} (h : ∀ s ∈ parts, isUpperName s = true) :
    ".." ∉ fileSegments parts := by
  match parts with
  | [] => simp [fileSegments]
  | [last] =>
    intro hup
    have hend := congrArg (fun s : String => s.toList.getLast?) (List.mem_singleton.mp hup)
    simp at hend
  | part :: next :: rest =>
    rw [fileSegments_cons (List.cons_ne_nil _ _), List.mem_cons, not_or]
    rw [List.forall_mem_cons] at h
    refine ⟨?_, up_not_mem_fileSegments h.2⟩
    rintro rfl
    exact absurd h.1 (by decide)

/-- The parts of a module name are read from the path they make. -/
theorem moduleParts_fileSegments {parts : List String} (h : ∀ s ∈ parts, isUpperName s = true) :
    moduleParts (fileSegments parts) = parts := by
  match parts with
  | [] => rfl
  | [last] =>
    have hne := ne_empty_of_isUpperName (h last (List.mem_cons_self ..))
    have hstem : Path.stem (last ++ "." ++ "elm") = last :=
      Path.stem_append hne (by decide) (by decide)
    rw [String.append_assoc] at hstem
    exact congrArg ([·]) hstem
  | part :: next :: rest =>
    rw [fileSegments_cons (List.cons_ne_nil _ _),
      moduleParts_cons (fileSegments_ne_nil (List.cons_ne_nil _ _)),
      moduleParts_fileSegments (List.forall_mem_cons.mp h).2]

/-- The path of an Elm file is made of the parts that are read from it. -/
theorem fileSegments_moduleParts {names : List String}
    (helm : names.getLast?.any TestFiles.isElmName = true)
    (h : ∀ s ∈ moduleParts names, isUpperName s = true) :
    fileSegments (moduleParts names) = names := by
  match names with
  | [] => rfl
  | [last] => exact congrArg ([·]) (stem_elmName helm (h _ (List.mem_cons_self ..)))
  | name :: next :: rest =>
    have hne : next :: rest ≠ [] := List.cons_ne_nil _ _
    rw [moduleParts_cons hne, List.forall_mem_cons] at h
    rw [List.getLast?_cons_cons] at helm
    rw [moduleParts_cons hne, fileSegments_cons (moduleParts_ne_nil hne),
      fileSegments_moduleParts helm h.2]

theorem programFile_eq (l : Layout) {m : String} (h : IsModuleName m) :
    l.programFile m = ⟨l.sourceDirectory.anchor,
      l.sourceDirectory.names ++ fileSegments (splitString '.' m)⟩ :=
  Path.foldl_joinText (isName_of_mem_fileSegments h) _

end Layout

/-! ## Names read from files -/

theorem moduleName?_eq_some_iff {file dir : Path} {m : String} :
    moduleName? file dir = some m ↔
      ∃ names, names ≠ [] ∧ file = ⟨dir.anchor, dir.names ++ names⟩ ∧
        (∀ s ∈ moduleParts names, isUpperName s = true) ∧
        m = String.intercalate "." (moduleParts names) := by
  rw [moduleName?, moduleCandidate]
  constructor
  · intro h
    split at h
    · next name hnamed =>
      split at hnamed
      · cases hnamed
      · cases hnamed
      · next names hne hrelative =>
        rw [Option.some.injEq] at h
        dsimp only at hnamed
        split at hnamed
        · next hupper =>
          rw [ModuleCandidate.named.injEq] at hnamed
          exact ⟨names, fun hnil => hne hnil, Path.relativeTo?_eq_some_iff.mp hrelative,
            List.all_eq_true.mp hupper, (hnamed.trans h).symm⟩
        · cases hnamed
    · cases h
  · rintro ⟨names, hne, hfile, hupper, rfl⟩
    obtain ⟨name, rest, rfl⟩ := List.exists_cons_of_ne_nil hne
    rw [Path.relativeTo?_eq_some_iff.mpr hfile]
    simp only [List.all_eq_true.mpr hupper, if_true]

namespace Layout

/-- The file of a module name declares the module. -/
theorem moduleName?_programFile (l : Layout) {m : String} (h : IsModuleName m) :
    moduleName? (l.programFile m) l.sourceDirectory = some m := by
  have hparts := moduleParts_fileSegments h
  refine moduleName?_eq_some_iff.mpr ⟨fileSegments (splitString '.' m),
    fileSegments_ne_nil (splitString_ne_nil '.' m), l.programFile_eq h, ?_, ?_⟩
  · rw [hparts]
    exact h
  · rw [hparts]
    exact (intercalate_splitString '.' m).symm

/-- No other Elm file declares the module. -/
theorem programFile_of_moduleName? (l : Layout) {file : Path} {m : String}
    (helm : file.name?.any TestFiles.isElmName = true)
    (h : moduleName? file l.sourceDirectory = some m) : l.programFile m = file := by
  obtain ⟨names, hne, rfl, hupper, rfl⟩ := moduleName?_eq_some_iff.mp h
  have hparts : splitString '.' (String.intercalate "." (moduleParts names)) = moduleParts names :=
    splitString_intercalate (moduleParts_ne_nil hne) fun s hs =>
      not_mem_upperName (hupper s hs) (by decide) (by decide)
  have hlast : names.getLast?.any TestFiles.isElmName = true := by
    rwa [Path.name?, List.getLast?_append_of_ne_nil _ hne] at helm
  have hname : IsModuleName (String.intercalate "." (moduleParts names)) := by
    rw [IsModuleName, hparts]
    exact hupper
  rw [l.programFile_eq hname, hparts, fileSegments_moduleParts hlast hupper]

theorem sourceDirectory_mem_parents (l : Layout) {m : String} (h : IsModuleName m) :
    l.sourceDirectory ∈ (l.programFile m).parents := by
  rw [l.programFile_eq h]
  have hne := fileSegments_ne_nil (splitString_ne_nil '.' m)
  refine Path.mem_parents.mpr ⟨rfl, l.sourceDirectory.names.length, ?_, List.take_left.symm⟩
  simpa using List.length_pos_iff.mpr hne

end Layout

/-! ## The name of a generated program -/

theorem Sha256.isIdentifierChar_of_mem_hexDigest {message : List UInt8} {c : Char}
    (h : c ∈ hexDigest message) : isIdentifierChar c = true := by
  have hdigit : ∀ k < 16, isIdentifierChar (Nat.digitChar k) = true := by decide
  simp only [hexDigest, hexWord, List.mem_flatMap, List.mem_map] at h
  obtain ⟨w, -, i, -, rfl⟩ := h
  exact hdigit _ (Nat.mod_lt _ (by decide))

namespace Generator

variable {g : Generator}

/-- The last part of the name of a program. -/
def lastPart (g : Generator) (body : String) : String :=
  "Main" ++ String.ofList (g.contentHash body)

theorem isUpperIdentifier_lastPart (g : Generator) (body : String) :
    IsUpperIdentifier (g.lastPart body).toList := by
  refine ⟨'M', "ain".toList ++ g.contentHash body, by simp [lastPart], by decide, fun c hc => ?_⟩
  rcases List.mem_append.mp hc with hc | hc
  · exact List.all_eq_true.mp (by decide : "ain".toList.all isIdentifierChar = true) c hc
  · exact Sha256.isIdentifierChar_of_mem_hexDigest (mem_of_mem_cutDigest hc)

theorem isUpperName_lastPart (g : Generator) (body : String) :
    isUpperName (g.lastPart body) = true :=
  isUpperName_iff.mpr ⟨_, g.isUpperIdentifier_lastPart body, .inl rfl⟩

/-- The name of a program is that of its namespace and one part more. -/
theorem splitString_programName (g : Generator) (body : String) :
    splitString '.' (g.programName body) = splitString '.' g.nameSpace ++ [g.lastPart body] := by
  have hdot : '.' ∉ (g.lastPart body).toList :=
    not_mem_upperName (g.isUpperName_lastPart body) (by decide) (by decide)
  have hname : g.programName body = g.nameSpace ++ "." ++ g.lastPart body := by
    apply String.toList_inj.mp
    simp [programName, lastPart]
  rw [hname, ← splitString_of_not_mem hdot]
  exact splitString_append_singleton '.' _ _

theorem isModuleName_programName (h : IsModuleName g.nameSpace) (body : String) :
    IsModuleName (g.programName body) := by
  intro s hs
  rw [splitString_programName, List.mem_append, List.mem_singleton] at hs
  rcases hs with hs | rfl
  · exact h s hs
  · exact g.isUpperName_lastPart body

end Generator

/-- Without line feeds the name of a module is made of capitalised identifiers. -/
theorem isDottedName_of_isModuleName {m : String} (h : IsModuleName m) (hline : '\n' ∉ m.toList) :
    IsDottedName m.toList := by
  have hjoin : ['.'].intercalate ((splitString '.' m).map String.toList) = m.toList := by
    rw [toList_splitString, List.intercalate_splitOn]
  refine ⟨(splitString '.' m).map String.toList, by simpa using splitString_ne_nil '.' m, ?_,
    hjoin.symm⟩
  intro segment hsegment
  obtain ⟨s, hs, rfl⟩ := List.mem_map.mp hsegment
  obtain ⟨name, hname, hplain | hfeed⟩ := isUpperName_iff.mp (h s hs)
  · rw [hplain]
    exact hname
  · exact absurd (mem_of_mem_splitString hs (by simp [hfeed])) hline

/-! ## The header of a generated program -/

namespace Header

open Generator (headerStart headerEnd)
open Text (isBlank)

theorem headerStart_eq : headerStart = Keyword.plain.text ++ [' '] := by decide +kernel

theorem headerEnd_eq :
    headerEnd = [' '] ++ (exposingWord ++ ([' '] ++ '(' :: ("main".toList ++ [')']))) := by
  decide +kernel

theorem isPlain_of_mem_headerEnd : ∀ c ∈ headerEnd, IsPlain c := by
  have hall : headerEnd.all (fun c => c == ' ' || isTokenChar c) = true := by decide
  intro c hc
  have hor := List.all_eq_true.mp hall c hc
  rw [Bool.or_eq_true, beq_iff_eq] at hor
  rcases hor with rfl | hc
  · exact isPlain_space
  · exact isPlain_of_isTokenChar hc

/-- Behind the keyword the header of a program is kept as it is. -/
theorem joined_header {name : List Char} (h : IsDottedName name) (rest : List Char) :
    joined (keptLines false 0 ([' '] ++ (name ++ (headerEnd ++ rest)))) =
      [' '] ++ (name ++ (headerEnd ++ joined (keptLines false 0 rest))) := by
  have hspace : ∀ c ∈ [' '], IsPlain c := List.forall_mem_singleton.mpr isPlain_space
  rw [keptLines_plain_append hspace, joined_prepend, joined_token (isTokenChar_of_name h),
    keptLines_plain_append isPlain_of_mem_headerEnd, joined_prepend]

/-- A header that exposes `main` is read as one. -/
theorem exposingOfLines_main {name : List Char} (h : IsDottedName name) (rest : List Char) :
    exposingOfLines (Text.splitLines (headerStart ++ (name ++ (headerEnd ++ rest)))) =
      .ok (.only (NameSet.ofList ["main"])) := by
  have hblank : ∀ c ∈ [' '], isBlank c = true := List.forall_mem_singleton.mpr rfl
  have hmain : Parentheses.Balanced "main".toList :=
    Parentheses.balanced_of_not_mem (by decide) (by decide)
  let gap : Gap := [.blank ' ' (by decide)]
  have htext : headerStart ++ (name ++ (headerEnd ++ rest)) =
      Gap.text [] ++ (Keyword.plain.text ++ (gap.text ++ (name ++ (headerEnd ++ rest)))) := by
    rw [headerStart_eq, List.append_assoc]
    rfl
  have hlist : listText? (joined (gap.onto (keptLines false 0 (name ++ (headerEnd ++ rest))))) =
      some "main".toList := by
    rw [← keptLines_gap]
    change listText? (joined (keptLines false 0 ([' '] ++ _))) = _
    rw [joined_header h, headerEnd_eq]
    simp only [List.append_assoc, List.cons_append, List.nil_append]
    exact listText?_header hblank h hblank (List.cons_ne_nil _ _) hblank hmain _
  rw [htext, exposingOfLines_behind_keyword (by simp) .plain (List.cons_ne_nil _ _), hlist]
  decide

end Header

namespace Generator

theorem exposingOfText_programOf {g : Generator} (h : IsModuleName g.nameSpace)
    (hline : '\n' ∉ g.nameSpace.toList) (body : String) :
    exposingOfText (g.programOf body).source = .ok (.only (NameSet.ofList ["main"])) := by
  have hname := isDottedName_of_isModuleName (g.isModuleName_programName h body)
    (newline_not_mem_programName hline body)
  have hsource : (g.programOf body).source.toList =
      headerStart ++ ((g.programName body).toList ++ (headerEnd ++ '\n' :: '\n' :: body.toList)) := by
    rw [source_programOf, header, Text.unlines_cons, Text.unlines_cons, Text.unlines_nil]
    simp only [List.append_assoc, List.cons_append, List.nil_append]
  rw [exposingOfText, hsource]
  exact Header.exposingOfLines_main hname _

/-- A program that is generated is that of some body. -/
theorem exists_programOf {g : Generator} {tests : NameMap TextSet} {o : RunOptions}
    {program : Program} (h : g.generate tests o = .ok program) :
    ∃ body, program = g.programOf body := by
  obtain ⟨body, -, hprogram⟩ := eq_programOf_of_generate h
  exact ⟨body, hprogram⟩

end Generator

namespace Layout

/-- **Module names and files of programs belong together.** The file of a module name declares that
name, an Elm file that declares a name is the file of that name, and the programs of a generator whose
namespace is a module name lie below the source directory, in the files of their names, with headers
that are read as exposing `main`. -/
theorem programFile_moduleName (l : Layout) :
    (∀ m, IsModuleName m → moduleName? (l.programFile m) l.sourceDirectory = some m) ∧
    (∀ file m, file.name?.any TestFiles.isElmName = true →
      moduleName? file l.sourceDirectory = some m → l.programFile m = file) ∧
    ∀ (g : Generator) (tests : NameMap TextSet) (o : RunOptions) (program : Program),
      IsModuleName g.nameSpace → g.generate tests o = .ok program →
        moduleName? (l.programFile program.moduleName) l.sourceDirectory = some program.moduleName ∧
        l.sourceDirectory ∈ (l.programFile program.moduleName).parents ∧
        ('\n' ∉ g.nameSpace.toList →
          exposingOfText program.source = .ok (.only (NameSet.ofList ["main"]))) := by
  refine ⟨fun m => l.moduleName?_programFile, fun file m => l.programFile_of_moduleName?, ?_⟩
  intro g tests o program hname hprogram
  obtain ⟨body, rfl⟩ := Generator.exists_programOf hprogram
  have hmodule := g.isModuleName_programName hname body
  exact ⟨l.moduleName?_programFile hmodule, l.sourceDirectory_mem_parents hmodule,
    fun hline => Generator.exposingOfText_programOf hname hline body⟩

/-- The places of the project at the root. -/
def atRoot : Layout := ⟨⟨.root, []⟩⟩

/-- One module with one test. -/
def singleTest : NameMap TextSet := (∅ : NameMap TextSet).insert "A" (TextSet.ofStrings ["x"])

theorem getElem?_singleTest {m : String} {names : TextSet} (h : singleTest[m]? = some names) :
    names = TextSet.ofStrings ["x"] := by
  rw [singleTest, Std.ExtTreeMap.getElem?_insert] at h
  split at h
  · exact (Option.some.inj h).symm
  · simp at h

theorem generate_singleTest {g : Generator} {o : RunOptions} (hshown : g.ShowsIntegers o)
    (hpaths : ∀ path ∈ o.paths, path.IsText) :
    ∃ program, g.generate singleTest o = .ok program := by
  have hgenerates : g.Generates singleTest o (g.generate singleTest o) := by
    refine Generator.generates_generate (by simp [singleTest]) fun m names h => ?_
    rw [getElem?_singleTest h]
    exact ⟨CodePoints.ofString "x", by simp [TextSet.ofStrings]⟩
  have hplain : Generator.IsPlain singleTest o := by
    refine ⟨fun m names h n hn => ?_, hpaths⟩
    rw [getElem?_singleTest h, TextSet.ofStrings, TextSet.mem_ofList] at hn
    rw [List.mem_singleton.mp hn]
    exact CodePoints.isText_ofString "x"
  generalize g.generate singleTest o = result at hgenerates
  cases hgenerates with
  | generated _ _ _ => exact ⟨_, rfl⟩
  | longInteger hlong => exact absurd hshown hlong
  | unencodable _ hlone => exact absurd hplain hlone

theorem programFile_atRoot :
    moduleName? (atRoot.programFile "A.B") atRoot.sourceDirectory = some "A.B" ∧
    atRoot.programFile "A.B" = (atRoot.sourceDirectory.child "A").child "B.elm" ∧
    ∃ program, Generator.generate {} singleTest {} = .ok program ∧
      moduleName? (atRoot.programFile program.moduleName) atRoot.sourceDirectory =
        some program.moduleName ∧
      atRoot.sourceDirectory ∈ (atRoot.programFile program.moduleName).parents ∧
      exposingOfText program.source = .ok (.only (NameSet.ofList ["main"])) := by
  obtain ⟨hdecodes, hencodes, hprogram⟩ := programFile_moduleName atRoot
  obtain ⟨program, hgenerate⟩ :=
    generate_singleTest (g := {}) (o := {}) (by decide) (List.forall_mem_nil _)
  obtain ⟨hname, hbelow, hmain⟩ := hprogram {} singleTest {} program (by decide) hgenerate
  exact ⟨hdecodes "A.B" (by decide), hencodes _ "A.B" (by decide) (by decide), _, hgenerate, hname,
    hbelow, hmain (by decide)⟩

end Layout

end ElmSuite

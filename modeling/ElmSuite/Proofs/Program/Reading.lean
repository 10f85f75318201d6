import ElmSuite.Proofs.Program.Literal
import ElmSuite.Proofs.Program.Plain
import ElmSuite.Proofs.Text.Lines

/-!
# Reading programs

What a program runs can be read off its lines: the modules it imports for their
tests, and for each group its heading and the tests that it refers to.
-/

namespace ElmSuite.Program

open Text (unlines bulleted)

/-! ## Fixed texts -/

/-- What stands before the name of a module that is imported. -/
def importStart : List Char := "import ".toList

/-- What stands before the first group. -/
def firstGroup : List Char := "    [ ".toList

/-- What stands before every other group. -/
def nextGroup : List Char := "    , ".toList

/-- The line behind the groups. -/
def groupsEnd : List Char := "    ]".toList

/-- What stands before the heading of a group. -/
def describe : List Char := "Test.describe ".toList

/-- What stands before the first reference of a group. -/
def firstReference : List Char := "            [ ".toList

/-- What stands before every other reference. -/
def nextReference : List Char := "            , ".toList

/-- The line behind the references of a group. -/
def referencesEnd : List Char := "            ]".toList

/-- The line before the groups. -/
def mainLine : List Char := "main =".toList

/-- The text between the groups and the options. -/
def closingText : List Char :=
  "        |> Test.concat\n        |> Test.Runner.Node.runWithOptions\n            ".toList

/-! ## The reader -/

def linesOf (source : String) : List (List Char) := source.toList.splitOn '\n'

/-- The lines of the first block behind the header: the imports of modules with tests. -/
def importBlock (source : String) : List (List Char) :=
  ((linesOf source).drop 2).takeWhile (· ≠ [])

/-- The heading of a group, if a line is one. A mark stands before it. -/
def heading? (line : List Char) : Option String :=
  if describe.isPrefixOf (line.drop 6) then
    (Literal.read? (line.drop 20)).map (·.1)
  else none

/-- The reference to a test, if a line is one. -/
def reference? (line : List Char) : Option (List Char) :=
  if line.take 14 = firstReference ∨ line.take 14 = nextReference then
    some (line.drop 14)
  else none

/-- The references in the lines up to the first other one. -/
def references : List (List Char) → List (List Char)
  | [] => []
  | line :: rest =>
    match reference? line with
    | some r => r :: references rest
    | none => []

/-- The groups in some lines, each with its heading and its references. -/
def groupsIn : List (List Char) → List (String × List (List Char))
  | [] => []
  | line :: rest =>
    match heading? line with
    | some title => (title, references rest) :: groupsIn rest
    | none => groupsIn rest

/-- The groups in the list behind `main`. -/
def groupsOf (source : String) : List (String × List (List Char)) :=
  groupsIn ((((linesOf source).dropWhile (· ≠ mainLine)).drop 1).takeWhile
    (· ≠ groupsEnd))

/-! ## The lines of a program -/

def importLine (moduleName : String) : List Char := importStart ++ moduleName.toList

def reference (moduleName name : String) : List Char := moduleName.toList ++ '.' :: name.toList

/-- The lines between the imports of modules with tests and the groups. -/
def middleLines : List (List Char) :=
  [[], "import Test.Reporter.Reporter exposing (Report(..))".toList,
    "import Console.Text exposing (UseColor(..))".toList, "import Test.Runner.Node".toList,
    "import Test".toList, [], "main : Test.Runner.Node.TestProgram".toList]

/-- The lines of a group behind a mark. -/
def groupLines (mark : List Char) (moduleName : String) (names : List String) : List (List Char) :=
  (mark ++ (describe ++ Literal.literal moduleName)) ::
    (bulleted firstReference nextReference (names.map (reference moduleName)) ++
      [referencesEnd])

/-- The lines of groups, of which the first one stands behind a mark of its own. -/
def groupsLines (mark : List Char) : List (String × List String) → List (List Char)
  | [] => []
  | (m, names) :: groups => groupLines mark m (sortedNames names) ++ groupsLines nextGroup groups

/-- The text behind the groups. -/
def closing (o : RunOptions) (paths : List String) : List Char :=
  closingText ++ (recordText o paths ++ ['\n'])

/-! ## Line feeds in the texts of a program -/

theorem newline_firstReference : "\n            [ ".toList = '\n' :: firstReference :=
  rfl

theorem newline_nextReference : "\n            , ".toList = '\n' :: nextReference :=
  rfl

theorem newline_referencesEnd : "\n            ]".toList = '\n' :: referencesEnd :=
  rfl

theorem newline_nextGroup : "\n    , ".toList = '\n' :: nextGroup := rfl

theorem newlines_middle :
    "\n\n".toList ++ (runnerImports.toList ++
      "\n\nmain : Test.Runner.Node.TestProgram\nmain =\n    [ ".toList) =
      '\n' :: (unlines middleLines ++ (mainLine ++ '\n' :: firstGroup)) := by
  cbv

theorem newlines_closing : afterGroups =
      '\n' :: (groupsEnd ++ '\n' :: closingText) := by
  cbv

/-! ## A program as its lines -/

/-- A group in the parts that its lines are made of. -/
theorem groupText_eq (m : String) (names : List String) :
    groupText m names = describe ++ (Literal.literal m ++ '\n' :: (firstReference ++
      (('\n' :: nextReference).intercalate ((sortedNames names).map (reference m)) ++
        '\n' :: referencesEnd))) := by
  unfold groupText groupStart joinWith
  dsimp only
  rw [newline_firstReference, newline_nextReference, newline_referencesEnd]
  simp only [List.append_assoc, List.cons_append]
  rfl

theorem group_eq_unlines (mark : List Char) (m : String) {names : List String} (hne : names ≠ [])
    (rest : List Char) :
    mark ++ (groupText m names ++ '\n' :: rest) = unlines (groupLines mark m (sortedNames names)) ++ rest := by
  have hsome : (sortedNames names).map (reference m) ≠ [] := by
    intro h
    have hlength : (sortedNames names).length = names.length := List.length_mergeSort names
    rw [List.map_eq_nil_iff.mp h] at hlength
    exact hne (List.length_eq_zero_iff.mp hlength.symm)
  have hbullets := Text.bullets_eq_unlines firstReference nextReference hsome
    (referencesEnd ++ '\n' :: rest)
  rw [groupText_eq]
  calc
    _ = mark ++ (describe ++ (Literal.literal m ++ '\n' :: (firstReference ++
        (('\n' :: nextReference).intercalate ((sortedNames names).map (reference m)) ++
          '\n' :: (referencesEnd ++ '\n' :: rest))))) := by
      simp only [List.append_assoc, List.cons_append]
    _ = mark ++ (describe ++ (Literal.literal m ++ '\n' ::
          (unlines (bulleted firstReference nextReference
            ((sortedNames names).map (reference m))) ++ (referencesEnd ++ '\n' :: rest)))) :=
      congrArg (fun text => mark ++ (describe ++ (Literal.literal m ++ '\n' :: text))) hbullets
    _ = unlines (groupLines mark m (sortedNames names)) ++ rest := by
      simp only [groupLines, Text.unlines_cons, Text.unlines_append, List.append_assoc,
        List.cons_append, Text.unlines_nil, List.nil_append]

/-- The groups of a list stand on the lines that they are made of. -/
theorem groups_eq_unlines (mark : List Char) {groups : List (String × List String)}
    (hne : groups ≠ []) (htests : ∀ g ∈ groups, g.2 ≠ []) (rest : List Char) :
    mark ++ (joinWith "\n    , ".toList (groups.map fun (m, names) => groupText m names) ++ '\n' :: rest) =
      unlines (groupsLines mark groups) ++ rest := by
  induction groups generalizing mark with
  | nil => exact absurd rfl hne
  | cons g groups ih =>
    obtain ⟨m, names⟩ := g
    have hnames : names ≠ [] := htests (m, names) (List.mem_cons_self ..)
    have hfirst := group_eq_unlines mark m hnames
    have hlines : groupsLines mark ((m, names) :: groups) =
      groupLines mark m (sortedNames names) ++ groupsLines nextGroup groups := rfl
    rw [hlines, Text.unlines_append, List.append_assoc, ← hfirst]
    cases groups with
    | nil =>
      rw [List.map_singleton, joinWith, List.intercalate_singleton]
      rfl
    | cons next groups =>
      have hrest := ih nextGroup (by simp) fun g hg => htests g (List.mem_cons_of_mem _ hg)
      rw [← hrest, joinWith, List.map_cons, List.map_cons, List.intercalate_cons_cons, newline_nextGroup]
      simp only [List.append_assoc, List.cons_append]
      rfl

/-- The lines of a program between its header and the text behind its groups. -/
def frontLines (groups : List (String × List String)) : List (List Char) :=
  groups.map (importLine ·.1) ++ (middleLines ++ mainLine ::
    (groupsLines firstGroup groups ++ [groupsEnd]))

/-- The body of a program in the parts that its lines are made of. -/
theorem bodyText_eq (tests : NameMap (List String)) (o : RunOptions) (paths : List String) :
    bodyText tests o paths = importLines tests.keys ++ '\n' :: (unlines middleLines ++ (mainLine ++
      '\n' :: (firstGroup ++ (joinWith ('\n' :: nextGroup)
        (tests.toList.map fun (m, names) => groupText m names) ++
          '\n' :: (groupsEnd ++ '\n' :: closing o paths))))) := by
  have hbody : bodyText tests o paths = importLines tests.keys ++ (("\n\n".toList ++
      (runnerImports.toList ++ "\n\nmain : Test.Runner.Node.TestProgram\nmain =\n    [ ".toList)) ++
        (joinWith ('\n' :: nextGroup) (tests.toList.map fun (m, names) => groupText m names) ++
          '\n' :: (groupsEnd ++ '\n' :: closing o paths))) := by
    unfold bodyText opening closing
    rw [newlines_closing, newline_nextGroup]
    simp only [List.append_assoc, List.cons_append]
  rw [hbody, newlines_middle]
  simp only [List.append_assoc, List.cons_append]

/-- The body of a program is made of lines up to its options. -/
theorem body_eq_unlines {tests : NameMap (List String)} (o : RunOptions) (paths : List String)
    (hsome : tests.toList ≠ []) (htests : ∀ g ∈ tests.toList, g.2 ≠ []) :
    bodyText tests o paths = unlines (frontLines tests.toList) ++ closing o paths := by
  have hkeys : tests.keys.map importLine = tests.toList.map (importLine ·.1) := by
    rw [← Std.ExtTreeMap.map_fst_toList_eq_keys, List.map_map]
    rfl
  have hgroups := groups_eq_unlines firstGroup hsome htests (groupsEnd ++ '\n' :: closing o paths)
  have himports := Text.bullets_eq_unlines [] [] (show tests.keys.map importLine ≠ [] by
    rw [hkeys]
    exact mt List.map_eq_nil_iff.mp hsome)
  rw [Text.bulleted_nil_nil] at himports
  rw [bodyText_eq]
  calc
    _ = importLines tests.keys ++ '\n' :: (unlines middleLines ++ (mainLine ++ '\n' ::
        (unlines (groupsLines firstGroup tests.toList) ++
          (groupsEnd ++ '\n' :: closing o paths)))) := by
      rw [← hgroups, newline_nextGroup]
    _ = unlines (tests.keys.map importLine) ++ (unlines middleLines ++ (mainLine ++ '\n' ::
        (unlines (groupsLines firstGroup tests.toList) ++
          (groupsEnd ++ '\n' :: closing o paths)))) := himports _
    _ = unlines (frontLines tests.toList) ++ closing o paths := by
      rw [hkeys]
      simp only [frontLines, Text.unlines_append, Text.unlines_cons, Text.unlines_nil,
        List.append_assoc, List.cons_append, List.nil_append]

/-! ## Reading the lines -/

theorem heading?_eq {mark : List Char} (hmark : mark.length = 6) (m : String) :
    heading? (mark ++ (describe ++ Literal.literal m)) = some m := by
  have hsix : (mark ++ (describe ++ Literal.literal m)).drop 6 =
      describe ++ Literal.literal m := by
    rw [← hmark, List.drop_left]
  have htwenty : (mark ++ (describe ++ Literal.literal m)).drop 20 =
      Literal.literal m := by
    have hlength : describe.length = 14 := rfl
    rw [show 20 = 6 + 14 from rfl, ← List.drop_drop, hsix, ← hlength, List.drop_left]
  have hread := Literal.read?_literal m []
  rw [List.append_nil] at hread
  rw [heading?, hsix, if_pos (List.isPrefixOf_iff_prefix.mpr (List.prefix_append ..)), htwenty, hread]
  rfl

/-- A reference is no heading: it stands behind more blank characters. -/
theorem heading?_reference {mark : List Char} (hmark : mark = firstReference ∨ mark = nextReference)
    (r : List Char) : heading? (mark ++ r) = none := by
  rcases hmark with rfl | rfl
  · rw [heading?, if_neg]
    exact Bool.false_ne_true
  · rw [heading?, if_neg]
    exact Bool.false_ne_true

theorem reference?_eq {mark : List Char}
    (hmark : mark = firstReference ∨ mark = nextReference) (r : List Char) :
    reference? (mark ++ r) = some r := by
  have hlength : mark.length = 14 := by rcases hmark with rfl | rfl <;> rfl
  rw [reference?, ← hlength, List.take_left, List.drop_left, if_pos hmark]

theorem references_append {lines rs rest : List (List Char)}
    (h : lines.map reference? = rs.map some) (hrest : references rest = []) :
    references (lines ++ rest) = rs := by
  induction lines generalizing rs with
  | nil =>
    rw [List.map_nil, eq_comm, List.map_eq_nil_iff] at h
    rw [h, List.nil_append, hrest]
  | cons line lines ih =>
    cases rs with
    | nil => simp at h
    | cons r rs =>
      rw [List.map_cons, List.map_cons, List.cons.injEq] at h
      rw [List.cons_append, references, h.1]
      dsimp only
      rw [ih h.2]

theorem groupsIn_append {lines : List (List Char)} (h : ∀ line ∈ lines, heading? line = none)
    (rest : List (List Char)) : groupsIn (lines ++ rest) = groupsIn rest := by
  induction lines with
  | nil => rfl
  | cons line lines ih =>
    rw [List.cons_append, groupsIn, h line (List.mem_cons_self ..)]
    exact ih fun l hl => h l (List.mem_cons_of_mem line hl)

/-- The references of a group are read up to the line that ends the group. -/
theorem references_bulleted (items rest : List (List Char)) :
    references (bulleted firstReference nextReference items ++
      (referencesEnd :: rest)) = items := by
  have hclose : reference? referencesEnd = none := by decide +kernel
  apply references_append
  · cases items with
    | nil => rfl
    | cons item items =>
      simp [bulleted, reference?_eq (.inl rfl), reference?_eq (.inr rfl)]
  · rw [references, hclose]

theorem groupsIn_groupLines {mark : List Char} (hmark : mark.length = 6) (m : String)
    (names : List String) (rest : List (List Char)) :
    groupsIn (groupLines mark m names ++ rest) =
      (m, names.map (reference m)) :: groupsIn rest := by
  have hbody : ∀ line ∈ bulleted firstReference nextReference
      (names.map (reference m)) ++ [referencesEnd], heading? line = none := by
    intro line hline
    rcases List.mem_append.mp hline with hline | hline
    · obtain ⟨item, -, rfl | rfl⟩ := Text.mem_bulleted hline
      · exact heading?_reference (.inl rfl) item
      · exact heading?_reference (.inr rfl) item
    · rw [List.mem_singleton.mp hline]
      decide +kernel
  have hreferences := references_bulleted (names.map (reference m)) rest
  rw [groupLines, List.cons_append, groupsIn, heading?_eq hmark, groupsIn_append hbody,
    List.append_assoc, List.singleton_append, hreferences]

/-- The groups are read one by one. -/
theorem groupsIn_groupsLines {mark : List Char} (hmark : mark.length = 6)
    (groups : List (String × List String)) :
    groupsIn (groupsLines mark groups) =
      groups.map fun (m, names) => (m, (sortedNames names).map (reference m)) := by
  induction groups generalizing mark with
  | nil => rfl
  | cons g groups ih =>
    obtain ⟨m, names⟩ := g
    rw [groupsLines, groupsIn_groupLines hmark, ih rfl, List.map_cons]

/-! ## Lines of groups -/

/-- A line of a list of groups is a heading, a reference or the end of a group. -/
theorem mem_groupsLines {mark : List Char} {groups : List (String × List String)} {line : List Char}
    (h : line ∈ groupsLines mark groups) :
    (∃ m start, (start = mark ∨ start = nextGroup) ∧ line = start ++ (describe ++ Literal.literal m)) ∨
      (∃ g ∈ groups, ∃ n ∈ g.2, ∃ start, (start = firstReference ∨ start = nextReference) ∧
        line = start ++ reference g.1 n) ∨ line = referencesEnd := by
  induction groups generalizing mark with
  | nil => cases h
  | cons g groups ih =>
    obtain ⟨m, names⟩ := g
    rw [groupsLines, List.mem_append, groupLines, List.mem_cons, List.mem_append,
      List.mem_singleton] at h
    rcases h with (rfl | hbody | rfl) | h
    · exact .inl ⟨m, mark, .inl rfl, rfl⟩
    · obtain ⟨item, hitem, hline⟩ := Text.mem_bulleted hbody
      obtain ⟨n, hn, rfl⟩ := List.mem_map.mp hitem
      have hn : n ∈ names := List.mem_mergeSort.mp hn
      refine .inr (.inl ⟨(m, names), List.mem_cons_self .., n, hn, ?_⟩)
      rcases hline with rfl | rfl
      · exact ⟨firstReference, .inl rfl, rfl⟩
      · exact ⟨nextReference, .inr rfl, rfl⟩
    · exact .inr (.inr rfl)
    · rcases ih h with ⟨k, start, hstart, rfl⟩ | ⟨g, hg, hn⟩ | rfl
      · exact .inl ⟨k, start, .inr (hstart.elim id id), rfl⟩
      · exact .inr (.inl ⟨g, List.mem_cons_of_mem _ hg, hn⟩)
      · exact .inr (.inr rfl)

theorem newline_not_mem_groupsLines {mark : List Char} (hmark : '\n' ∉ mark)
    {groups : List (String × List String)}
    (h : ∀ g ∈ groups, '\n' ∉ g.1.toList ∧ ∀ n ∈ g.2, '\n' ∉ n.toList) :
    ∀ line ∈ groupsLines mark groups, '\n' ∉ line := by
  intro line hline
  rcases mem_groupsLines hline with ⟨m, start, hstart, rfl⟩ | ⟨g, hg, n, hn, start, hstart, rfl⟩ | rfl
  · have hnext : '\n' ∉ nextGroup := by decide
    refine List.not_mem_append ?_ (List.not_mem_append (by decide) (Literal.newline_not_mem_literal m))
    rcases hstart with rfl | rfl
    · exact hmark
    · exact hnext
  · have hname : '\n' ∉ reference g.1 n := by
      refine List.not_mem_append (h g hg).1 ?_
      rw [List.mem_cons, not_or]
      exact ⟨by decide, (h g hg).2 n hn⟩
    rcases hstart with rfl | rfl
    · exact List.not_mem_append (by decide) hname
    · exact List.not_mem_append (by decide) hname
  · decide

/-- The line behind the groups is none of theirs: it is too short. -/
theorem groupsEnd_not_mem {mark : List Char} (hmark : mark.length = 6)
    (groups : List (String × List String)) : groupsEnd ∉ groupsLines mark groups := by
  intro hmem
  have hlength : groupsEnd.length = 5 := by decide
  rcases mem_groupsLines hmem with ⟨m, start, hstart, heq⟩ | ⟨g, -, n, -, start, hstart, heq⟩ | heq
  · have hlong : start.length = 6 := by
      rcases hstart with rfl | rfl
      · exact hmark
      · decide
    rw [heq, List.length_append] at hlength
    omega
  · have hlong : start.length = 14 := by rcases hstart with rfl | rfl <;> decide
    rw [heq, List.length_append] at hlength
    omega
  · exact absurd heq (by decide)

end ElmSuite.Program

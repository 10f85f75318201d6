import ElmSuite.Proofs.Program.Determined

/-!
# What a program refers to

The groups of a program stand in the list behind `main`, each with its heading and below it
the tests that it refers to, and the modules with tests are imported. A generated program
refers to every test that it was generated for, whatever the names are.
-/

namespace ElmSuite.Program

open CodePoints (ofString)

/-- A group as it stands in a program: its heading, and below it what it refers to. -/
def writtenGroup (title : String) (references : List (List Char)) : List Char :=
  describe ++ (Literal.literal title ++ '\n' :: (firstReference ++
    (('\n' :: nextReference).intercalate references ++ '\n' :: referencesEnd)))

/-- The text from the line `main =` to the options of a run, with some groups in between. -/
def writtenMain (groups : List (String × List (List Char))) : List Char :=
  mainLine ++ '\n' :: (firstGroup ++ (('\n' :: nextGroup).intercalate
    (groups.map fun (title, references) => writtenGroup title references) ++
      '\n' :: (groupsEnd ++ '\n' :: closingText)))

/-- Whether a program refers to a test of a module: the module is imported, and the reference stands
in a group of the module in the list that is run. -/
structure RefersTo (p : Program) (m : String) (n : CodePoints) : Prop where
  imported : '\n' :: (importLine m ++ ['\n']) <:+: p.source.toList
  listed : ∃ groups references name, writtenMain groups <:+: p.source.toList ∧
    (m, references) ∈ groups ∧ n = ofString name ∧ reference m name ∈ references

/-! ## Names that are texts -/

/-- Names and paths that are texts are those of strings. -/
theorem exists_strings_of_isPlain {tests : NameMap TextSet} {o : RunOptions}
    (h : Generator.IsPlain tests o) : ∃ (plain : NameMap (List String)) (paths : List String),
      (tests.map fun _ names => names.toList) = plain.map (fun _ names => names.map ofString) ∧
        o.paths = paths.map ofString := by
  let asString (codes : CodePoints) : String := String.ofList (codes.map Char.ofNat)
  have hstrings : ∀ {texts : List CodePoints}, (∀ t ∈ texts, t.IsText) →
      (texts.map asString).map ofString = texts := fun htexts => by
    rw [List.map_map]
    exact (List.map_congr_left fun t ht => CodePoints.ofString_ofList (htexts t ht)).trans
      (List.map_id _)
  refine ⟨tests.map fun _ names => names.toList.map asString, o.paths.map asString, ?_,
    (hstrings h.paths).symm⟩
  apply Std.ExtTreeMap.ext_getElem?
  intro m
  rw [Std.ExtTreeMap.map_map, Std.ExtTreeMap.getElem?_map, Std.ExtTreeMap.getElem?_map]
  cases hm : tests[m]? with
  | none => rfl
  | some names =>
    refine congrArg some (hstrings fun n hn => ?_).symm
    exact h.names m names hm n (Std.ExtTreeSet.mem_toList.mp hn)

/-! ## The text of a program -/

variable {tests : NameMap (List String)} {o : RunOptions} {paths : List String}

/-- The list of groups that a body is generated with is written behind `main`. -/
theorem writtenMain_infix_bodyText (tests : NameMap (List String)) (o : RunOptions)
    (paths : List String) :
    writtenMain (tests.toList.map fun (m, names) => (m, (sortedNames names).map (reference m))) <:+:
      bodyText tests o paths := by
  have hgroups : (tests.toList.map fun (m, names) => (m, (sortedNames names).map (reference m))).map
      (fun (title, references) => writtenGroup title references) =
        tests.toList.map fun (m, names) => groupText m names := by
    rw [List.map_map]
    exact List.map_congr_left fun entry _ => (groupText_eq entry.1 entry.2).symm
  refine ⟨importLines tests.keys ++ '\n' :: Text.unlines middleLines,
    recordText o paths ++ ['\n'], ?_⟩
  rw [bodyText_eq, writtenMain, hgroups, closing, joinWith]
  simp only [List.append_assoc, List.cons_append]

/-- Each of some lines stands between line feeds. -/
theorem line_infix_unlines {line : List Char} {lines : List (List Char)} (h : line ∈ lines)
    (rest : List Char) :
    '\n' :: (line ++ ['\n']) <:+: '\n' :: (Text.unlines lines ++ rest) := by
  induction lines with
  | nil => cases h
  | cons first lines ih =>
    rw [Text.unlines_cons, List.append_assoc, List.cons_append]
    rcases List.mem_cons.mp h with rfl | hmem
    · exact ⟨[], Text.unlines lines ++ rest, by simp⟩
    · exact (ih hmem).trans (List.suffix_append ('\n' :: first) _).isInfix

/-- Every module of a table is imported on a line of its own. -/
theorem infix_importLine {m : String} (hm : m ∈ tests.keys) :
    '\n' :: (importLine m ++ ['\n']) <:+: '\n' :: bodyText tests o paths := by
  have himport : importLine m ∈ tests.keys.map importLine := List.mem_map.mpr ⟨m, hm, rfl⟩
  have himports := Text.bullets_eq_unlines [] [] (List.ne_nil_of_mem himport)
  rw [Text.bulleted_nil_nil] at himports
  rw [bodyText_eq]
  exact (himports _).symm ▸ line_infix_unlines himport _

/-- A generated program refers to the tests that it was generated for. -/
theorem refersTo_of_generate {g : Generator} {tests : NameMap TextSet} {o : RunOptions}
    {program : Program} {m : String} {n : CodePoints} {names : TextSet}
    (h : g.generate tests o = .ok program) (hm : tests[m]? = some names) (hn : n ∈ names) :
    program.RefersTo m n := by
  obtain ⟨text, htext, rfl⟩ := Generator.eq_programOf_of_generate h
  obtain ⟨plain, paths, htests, hpaths⟩ := exists_strings_of_isPlain
    (Generator.isText_bodyOf.mp (htext ▸ CodePoints.isText_ofString text))
  have hbody : text.toList = bodyText plain o paths := by
    rw [Generator.bodyOf, htests, body_eq_ofChars plain hpaths] at htext
    exact (CodePoints.ofChars_inj.mp htext).symm
  have hsource : '\n' :: bodyText plain o paths <:+ (g.programOf text).source.toList := by
    refine ⟨g.header text ++ ['\n'], ?_⟩
    rw [Generator.source_programOf, hbody, Text.unlines_cons, Text.unlines_cons, Text.unlines_nil]
    simp
  have hentry := congrArg (fun t : NameMap (List CodePoints) => t[m]?) htests
  simp only [Std.ExtTreeMap.getElem?_map, hm, Option.map_some] at hentry
  obtain ⟨strings, hplain, hstrings⟩ := Option.map_eq_some_iff.mp hentry.symm
  obtain ⟨name, hname, rfl⟩ := List.mem_map.mp (hstrings ▸ Std.ExtTreeSet.mem_toList.mpr hn)
  have hmem := Std.ExtTreeMap.mem_toList_iff_getElem?_eq_some.mpr hplain
  constructor
  · have hkey : m ∈ plain.keys := by
      rw [Std.ExtTreeMap.mem_keys, Std.ExtTreeMap.mem_iff_isSome_getElem?, hplain]
      rfl
    exact (infix_importLine hkey).trans hsource.isInfix
  · refine ⟨plain.toList.map fun (m, names) => (m, (sortedNames names).map (reference m)),
      (sortedNames strings).map (reference m), name, ?_, List.mem_map.mpr ⟨(m, strings), hmem, rfl⟩, rfl,
      List.mem_map.mpr ⟨name, List.mem_mergeSort.mpr hname, rfl⟩⟩
    exact (writtenMain_infix_bodyText plain o paths).trans
      ((List.suffix_cons '\n' _).trans hsource).isInfix

end ElmSuite.Program

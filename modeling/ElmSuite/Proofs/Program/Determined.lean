import ElmSuite.Proofs.Program.Generator
import ElmSuite.Proofs.Program.Options
import ElmSuite.Proofs.Program.Reading
import ElmSuite.Proofs.Text.Identifier

/-!
# A program determines what it was generated from

The imports and the groups of a program list the modules and the tests that it was
generated from, in ascending order. So programs are equal only if they run the same
tests with the same options.
-/

namespace ElmSuite

open Text (unlines)
open CodePoints (ofString)

/-! ## The header of a program -/

theorem Sha256.newline_not_mem_hexDigest (message : List UInt8) : '\n' ∉ hexDigest message := by
  have hdigit : ∀ k < 16, Nat.digitChar k ≠ '\n' := by decide
  simp only [hexDigest, hexWord, List.mem_flatMap, List.mem_map, not_exists, not_and]
  intro w _ i _ h
  exact hdigit _ (Nat.mod_lt _ (by decide)) h

namespace Generator

theorem mem_of_mem_cutDigest {length : Int} {digits : List Char} {c : Char}
    (h : c ∈ cutDigest length digits) : c ∈ digits := by
  unfold cutDigest at h
  split at h
  · exact List.mem_of_mem_take h
  · exact List.mem_of_mem_take h

/-- The name of a program stands on one line if its namespace does. -/
theorem newline_not_mem_programName {g : Generator} (h : '\n' ∉ g.nameSpace.toList)
    (body : String) : '\n' ∉ (g.programName body).toList := by
  simp only [programName, String.toList_append, String.toList_ofList]
  refine List.not_mem_append (List.not_mem_append h (by decide)) fun hmem => ?_
  exact Sha256.newline_not_mem_hexDigest _ (mem_of_mem_cutDigest hmem)

/-- What stands before the name of a program in its header. -/
def headerStart : List Char := "module ".toList

/-- What stands behind the name of a program in its header. -/
def headerEnd : List Char := " exposing (main)".toList

/-- The first line of a program. -/
def header (g : Generator) (body : String) : List Char :=
  headerStart ++ ((g.programName body).toList ++ headerEnd)

theorem newline_not_mem_header {g : Generator} (h : '\n' ∉ g.nameSpace.toList)
    (body : String) : '\n' ∉ g.header body :=
  List.not_mem_append (by decide)
    (List.not_mem_append (newline_not_mem_programName h body) (by decide))

theorem toList_source (first name last body : String) :
    (first ++ name ++ last ++ body).toList =
      first.toList ++ (name.toList ++ (last.toList ++ body.toList)) := by
  simp

theorem source_programOf (g : Generator) (body : String) :
    (g.programOf body).source.toList = Text.unlines [g.header body, []] ++ body.toList := by
  have hblank : " exposing (main)\n\n".toList = headerEnd ++ ['\n', '\n'] := by decide +kernel
  calc
    (g.programOf body).source.toList = headerStart ++ ((g.programName body).toList ++
        (" exposing (main)\n\n".toList ++ body.toList)) := toList_source _ _ _ body
    _ = headerStart ++ ((g.programName body).toList ++ ((headerEnd ++ ['\n', '\n']) ++ body.toList)) := by
      rw [hblank]
    _ = Text.unlines [g.header body, []] ++ body.toList := by
      simp only [header, Text.unlines_cons, Text.unlines_nil, List.append_assoc, List.cons_append,
        List.nil_append]

/-- Equal programs have equal bodies. -/
theorem programOf_inj {g : Generator} {a b : String} (h : g.programOf a = g.programOf b) :
    a = b := by
  have hname : g.programName a = g.programName b := congrArg Program.moduleName h
  have hheader : g.header a = g.header b :=
    congrArg (fun name : String => headerStart ++ (name.toList ++ headerEnd)) hname
  have hsource : (g.programOf a).source.toList = (g.programOf b).source.toList :=
    congrArg (fun p => p.source.toList) h
  have hlines := (source_programOf g a).symm.trans (hsource.trans (source_programOf g b))
  rw [hheader] at hlines
  exact String.toList_inj.mp (List.append_cancel_left hlines)

end Generator

namespace Program

/-! ## Tables of tests -/

/-- A table of modules with tests, each module with some, whose names stand on one line each, as
identifiers do. -/
structure IsTestTable (t : NameMap (List String)) : Prop where
  nonempty : t.isEmpty = false
  tests : ∀ (m : String) (names : List String), t[m]? = some names → names ≠ []
  modules : ∀ (m : String) (names : List String), t[m]? = some names → '\n' ∉ m.toList
  names : ∀ (m : String) (names : List String), t[m]? = some names → ∀ n ∈ names, '\n' ∉ n.toList

/-- Identifiers stand on one line, so that tables of them are tables of tests. -/
theorem isTestTable_of_identifiers {t : NameMap (List String)} (hsome : t.isEmpty = false)
    (htests : ∀ (m : String) (names : List String), t[m]? = some names → names ≠ [])
    (hmodules : ∀ (m : String) (names : List String), t[m]? = some names → IsDottedName m.toList)
    (hnames : ∀ (m : String) (names : List String), t[m]? = some names →
      ∀ n ∈ names, IsLowerIdentifier n.toList) : IsTestTable t := by
  have hfeed : isIdentifierChar '\n' = false := by decide
  refine ⟨hsome, htests, fun m names hm hmem => ?_, fun m names hm n hn hmem => ?_⟩
  · rcases (hmodules m names hm).all '\n' hmem with hchar | hdot
    · simp [hfeed] at hchar
    · exact absurd hdot (by decide)
  · have hchar := (hnames m names hm n hn).all '\n' hmem
    simp [hfeed] at hchar

/-- The tests of a table without repetition and order. -/
def asSets (t : NameMap (List String)) : NameMap NameSet := t.map fun _ names => NameSet.ofList names

/-- The tests of a table as the generator is given them. -/
def asTexts (t : NameMap (List String)) : NameMap TextSet :=
  t.map fun _ names => TextSet.ofStrings names

/-- The body of the program for a table and paths that are strings. -/
def plainBody (t : NameMap (List String)) (o : RunOptions) (paths : List String) : String :=
  String.ofList (bodyText ((asSets t).map fun _ names => names.toList) o paths)

/-- The modules of a table with their tests, all in ascending order. -/
def listing (t : NameMap (List String)) : List (String × List String) :=
  (asSets t).toList.map fun (m, names) => (m, names.toList)

theorem mem_listing {t : NameMap (List String)} {m : String} {names : List String} :
    (m, names) ∈ listing t ↔ ∃ given, t[m]? = some given ∧ names = (NameSet.ofList given).toList := by
  rw [listing, asSets, Std.ExtTreeMap.toList_map, List.map_map, List.mem_map]
  constructor
  · rintro ⟨⟨k, given⟩, hmem, heq⟩
    obtain ⟨rfl, rfl⟩ := Prod.mk.inj heq
    exact ⟨given, Std.ExtTreeMap.mem_toList_iff_getElem?_eq_some.mp hmem, rfl⟩
  · rintro ⟨given, hgiven, rfl⟩
    exact ⟨(m, given), Std.ExtTreeMap.mem_toList_iff_getElem?_eq_some.mpr hgiven, rfl⟩

theorem sortedNames_toList (names : NameSet) : sortedNames names.toList = names.toList := by
  apply List.mergeSort_of_pairwise
  exact Std.ExtTreeSet.ordered_toList.imp fun hlt => by rw [hlt]; rfl

section Table

variable {t : NameMap (List String)}

theorem IsTestTable.listing_ne_nil (h : IsTestTable t) : listing t ≠ [] := by
  intro hnil
  have hempty := Std.ExtTreeMap.isEmpty_toList (t := t)
  rw [listing, asSets, Std.ExtTreeMap.toList_map, List.map_map, List.map_eq_nil_iff] at hnil
  rw [hnil, h.nonempty] at hempty
  exact absurd hempty (by decide)

theorem IsTestTable.of_mem_listing (h : IsTestTable t) {g : String × List String}
    (hg : g ∈ listing t) :
    g.2 ≠ [] ∧ '\n' ∉ g.1.toList ∧ ∀ n ∈ g.2, '\n' ∉ n.toList := by
  obtain ⟨m, names⟩ := g
  obtain ⟨given, hgiven, rfl⟩ := mem_listing.mp hg
  have hmem : ∀ n, n ∈ (NameSet.ofList given).toList ↔ n ∈ given := fun n => by
    rw [Std.ExtTreeSet.mem_toList, NameSet.mem_ofList]
  refine ⟨?_, h.modules m given hgiven, fun n hn => h.names m given hgiven n ((hmem n).mp hn)⟩
  obtain ⟨n, rest, heq⟩ := List.exists_cons_of_ne_nil (h.tests m given hgiven)
  have hn : n ∈ (NameSet.ofList given).toList := (hmem n).mpr (by simp [heq])
  exact List.ne_nil_of_mem hn

/-- The names of a set of strings are listed as the strings are. -/
theorem toList_ofStrings (names : List String) :
    (TextSet.ofStrings names).toList = (NameSet.ofList names).toList.map ofString := by
  have hlt : ((NameSet.ofList names).toList.map ofString).Pairwise
      fun a b => compare a b = .lt := by
    simp only [List.pairwise_map, CodePoints.compare_ofString]
    exact Std.ExtTreeSet.ordered_toList
  have hnodup : ∀ {l : List CodePoints}, l.Pairwise (fun a b => compare a b = .lt) → l.Nodup :=
    fun h => h.imp fun hab heq => by simp [heq] at hab
  refine List.Perm.eq_of_pairwise ?_ Std.ExtTreeSet.ordered_toList hlt
    ((List.perm_ext_iff_of_nodup (hnodup Std.ExtTreeSet.ordered_toList) (hnodup hlt)).mpr ?_)
  · intro a b _ _ hab hba
    have hswap : compare b a = (compare a b).swap := Std.OrientedCmp.eq_swap
    rw [hswap, hab] at hba
    cases hba
  · intro n
    simp only [TextSet.ofStrings, Std.ExtTreeSet.mem_toList, TextSet.mem_ofList, List.mem_map,
      NameSet.mem_ofList]

theorem bodyOf_asTexts (t : NameMap (List String)) {o : RunOptions} {paths : List String}
    (h : o.paths = paths.map ofString) :
    Generator.bodyOf (asTexts t) o = ofString (plainBody t o paths) := by
  have htests : (asTexts t).map (fun _ names => names.toList) =
      ((asSets t).map fun _ names => names.toList).map fun _ names => names.map ofString := by
    rw [asTexts, asSets, Std.ExtTreeMap.map_map, Std.ExtTreeMap.map_map, Std.ExtTreeMap.map_map]
    simp only [toList_ofStrings]
  rw [Generator.bodyOf, htests, body_eq_ofChars _ h, ofString, plainBody, String.toList_ofList]

/-- Whether a program is generated with these options: its integers can be shown, and its paths can
be encoded. -/
def Accepts (g : Generator) (o : RunOptions) : Prop :=
  g.ShowsIntegers o ∧ ∀ path ∈ o.paths, path.IsText

theorem Accepts.exists_paths {g : Generator} {o : RunOptions} (h : Accepts g o) :
    ∃ paths : List String, o.paths = paths.map ofString := by
  refine ⟨o.paths.map fun path => String.ofList (path.map Char.ofNat), ?_⟩
  rw [List.map_map]
  refine ((List.map_congr_left fun path hpath => ?_).trans (List.map_id o.paths)).symm
  exact CodePoints.ofString_ofList (h.2 path hpath)

theorem IsTestTable.asTexts_nonempty (h : IsTestTable t) : (asTexts t).isEmpty = false ∧
    ∀ (m : String) (names : TextSet), (asTexts t)[m]? = some names → ∃ n, n ∈ names := by
  constructor
  · rw [← h.nonempty, Bool.eq_iff_iff, Std.ExtTreeMap.isEmpty_iff, Std.ExtTreeMap.isEmpty_iff,
      asTexts, Std.ExtTreeMap.map_eq_empty_iff]
  · intro m names hnames
    rw [asTexts, Std.ExtTreeMap.getElem?_map, Option.map_eq_some_iff] at hnames
    obtain ⟨given, hgiven, rfl⟩ := hnames
    obtain ⟨n, rest, heq⟩ := List.exists_cons_of_ne_nil (h.tests m given hgiven)
    exact ⟨ofString n, by simp [TextSet.ofStrings, heq]⟩

theorem isPlain_asTexts {o : RunOptions} (h : ∀ path ∈ o.paths, path.IsText) :
    Generator.IsPlain (asTexts t) o where
  names m names hnames n hn := by
    rw [asTexts, Std.ExtTreeMap.getElem?_map, Option.map_eq_some_iff] at hnames
    obtain ⟨given, -, rfl⟩ := hnames
    rw [TextSet.ofStrings, TextSet.mem_ofList, List.mem_map] at hn
    obtain ⟨s, -, rfl⟩ := hn
    exact CodePoints.isText_ofString s
  paths := h

/-- A program is generated for a table of tests and options that can be shown and encoded. -/
theorem generate_asTexts {g : Generator} (h : IsTestTable t) {o : RunOptions} (ho : Accepts g o)
    {paths : List String} (hpaths : o.paths = paths.map ofString) :
    g.generate (asTexts t) o = .ok (g.programOf (plainBody t o paths)) := by
  have hgenerates := Generator.generates_generate (g := g) (o := o) h.asTexts_nonempty.1
    h.asTexts_nonempty.2
  generalize hresult : g.generate (asTexts t) o = result at hgenerates
  cases hgenerates with
  | generated _ _ htext =>
    rw [bodyOf_asTexts t hpaths, CodePoints.ofString_inj] at htext
    rw [htext]
  | longInteger hlong => exact absurd ho.1 hlong
  | unencodable _ hlone => exact absurd (isPlain_asTexts ho.2) hlone

theorem accepts_of_generate {g : Generator} (h : IsTestTable t) {o : RunOptions} {program : Program}
    (hprogram : g.generate (asTexts t) o = .ok program) : Accepts g o := by
  have hgenerates := Generator.generates_generate (g := g) (o := o) h.asTexts_nonempty.1
    h.asTexts_nonempty.2
  rw [hprogram] at hgenerates
  cases hgenerates with
  | generated hshown hplain _ => exact ⟨hshown, hplain.paths⟩

/-- Without that, the generator fails with one of two faults. -/
theorem generate_of_not_accepts {g : Generator} (h : IsTestTable t) {o : RunOptions}
    (ho : ¬Accepts g o) : g.generate (asTexts t) o = .error .longInteger ∧ ¬g.ShowsIntegers o ∨
      ∃ flaw, g.generate (asTexts t) o = .error (.unencodable flaw) ∧
        ¬∀ path ∈ o.paths, path.IsText := by
  have hgenerates := Generator.generates_generate (g := g) (o := o) h.asTexts_nonempty.1
    h.asTexts_nonempty.2
  generalize hresult : g.generate (asTexts t) o = result at hgenerates
  cases hgenerates with
  | generated hshown hplain _ => exact absurd ⟨hshown, hplain.paths⟩ ho
  | longInteger hlong => exact .inl ⟨rfl, hlong⟩
  | unencodable hshown hlone => exact .inr ⟨_, rfl, fun hpaths => ho ⟨hshown, hpaths⟩⟩

theorem plainBody_eq_unlines (h : IsTestTable t) (o : RunOptions) (paths : List String) :
    (plainBody t o paths).toList = unlines (frontLines (listing t)) ++ closing o paths := by
  have hlisting : ((asSets t).map fun _ names => names.toList).toList = listing t :=
    Std.ExtTreeMap.toList_map
  rw [plainBody, String.toList_ofList, ← hlisting]
  apply body_eq_unlines
  · rw [hlisting]
    exact h.listing_ne_nil
  · rw [hlisting]
    exact fun g hg => (h.of_mem_listing hg).1

/-! ## Reading a program -/

theorem IsTestTable.newline_not_mem_frontLines (h : IsTestTable t) :
    ∀ line ∈ frontLines (listing t), '\n' ∉ line := by
  have hmiddle : ∀ line ∈ middleLines, '\n' ∉ line := by decide +kernel
  have hgroups := newline_not_mem_groupsLines (by decide : '\n' ∉ firstGroup)
    fun g hg => (h.of_mem_listing hg).2
  intro line hline
  simp only [frontLines, List.mem_append, List.mem_map, List.mem_cons, List.not_mem_nil,
    or_false] at hline
  rcases hline with ⟨g, hg, rfl⟩ | hline | rfl | hline | rfl
  · exact List.not_mem_append (by decide) (h.of_mem_listing hg).2.1
  · exact hmiddle line hline
  · decide
  · exact hgroups line hline
  · decide

/-- A program starts with its header, a blank line and the lines for its table. -/
theorem linesOf_source {g : Generator} (hname : '\n' ∉ g.nameSpace.toList) (h : IsTestTable t)
    (o : RunOptions) (paths : List String) :
    linesOf (g.programOf (plainBody t o paths)).source =
      g.header (plainBody t o paths) :: [] ::
        (frontLines (listing t) ++ (closing o paths).splitOn '\n') := by
  have hheader : ∀ line ∈ [g.header (plainBody t o paths), []], '\n' ∉ line := by
    have hfirst := Generator.newline_not_mem_header hname (plainBody t o paths)
    simp [hfirst]
  have hbody : (plainBody t o paths).toList.splitOn '\n' =
      frontLines (listing t) ++ (closing o paths).splitOn '\n' := by
    rw [plainBody_eq_unlines h]
    exact Text.splitOn_unlines_append h.newline_not_mem_frontLines _
  rw [linesOf, Generator.source_programOf, Text.splitOn_unlines_append hheader, hbody]
  rfl

theorem importLine_ne_nil (m : String) : importLine m ≠ [] :=
  List.append_ne_nil_of_left_ne_nil (by decide) _

/-- The first block of a program imports the modules of its table. -/
theorem importBlock_source {g : Generator} (hname : '\n' ∉ g.nameSpace.toList) (h : IsTestTable t)
    (o : RunOptions) (paths : List String) :
    importBlock (g.programOf (plainBody t o paths)).source =
      (listing t).map (importLine ·.1) := by
  have hblank : [] ∉ (listing t).map (importLine ·.1) := by
    intro hmem
    obtain ⟨g, -, hg⟩ := List.mem_map.mp hmem
    exact importLine_ne_nil g.1 hg
  rw [importBlock, linesOf_source hname h, List.drop_succ_cons, List.drop_succ_cons, List.drop_zero,
    frontLines, middleLines, List.append_assoc]
  exact Text.takeWhile_ne_append hblank _

/-- The line before the groups does not occur before. -/
theorem mainLine_not_mem (g : Generator) (body : String) (groups : List (String × List String)) :
    mainLine ∉ g.header body :: [] :: (groups.map (importLine ·.1) ++ middleLines) := by
  simp only [List.mem_cons, List.mem_append, List.mem_map, not_or, not_exists, not_and]
  refine ⟨fun heq => ?_, by decide, fun g _ heq => ?_, by decide +kernel⟩
  · have hsecond : some 'a' = some 'o' := congrArg (fun line => line.tail.head?) heq
    exact absurd hsecond (by decide)
  · have hfirst : some 'i' = some 'm' := congrArg List.head? heq
    exact absurd hfirst (by decide)

/-- The groups of a program are those of its table. -/
theorem groupsOf_source {g : Generator} (hname : '\n' ∉ g.nameSpace.toList) (h : IsTestTable t)
    (o : RunOptions) (paths : List String) :
    groupsOf (g.programOf (plainBody t o paths)).source =
      (listing t).map fun (m, names) => (m, names.map (reference m)) := by
  have hlines : linesOf (g.programOf (plainBody t o paths)).source =
      (g.header (plainBody t o paths) :: [] ::
        ((listing t).map (importLine ·.1) ++ middleLines)) ++ mainLine ::
          (groupsLines firstGroup (listing t) ++ groupsEnd :: (closing o paths).splitOn '\n') := by
    rw [linesOf_source hname h, frontLines]
    simp only [List.append_assoc, List.cons_append, List.nil_append]
  have hmark : firstGroup.length = 6 := by decide
  rw [groupsOf, hlines, Text.dropWhile_ne_append (mainLine_not_mem g _ _), List.drop_succ_cons,
    List.drop_zero, Text.takeWhile_ne_append (groupsEnd_not_mem hmark _), groupsIn_groupsLines hmark]
  apply List.map_congr_left
  rintro ⟨m, names⟩ hmem
  obtain ⟨given, -, rfl⟩ := mem_listing.mp hmem
  dsimp only
  rw [sortedNames_toList]

/-! ## Equal programs -/

/-- A group shows its module and its tests. -/
theorem groups_inj {a b : List (String × List String)}
    (h : (a.map fun (m, names) => (m, names.map (reference m))) =
      b.map fun (m, names) => (m, names.map (reference m))) : a = b := by
  have hreference : ∀ m n k : String, reference m n = reference m k → n = k := by
    intro m n k hnk
    have hcons := List.append_cancel_left hnk
    exact String.toList_inj.mp (List.cons.inj hcons).2
  refine (List.map_inj_right ?_).mp h
  rintro ⟨m, names⟩ ⟨k, others⟩ heq
  obtain ⟨rfl, hnames⟩ := Prod.mk.inj heq
  rw [(List.map_inj_right (hreference m)).mp hnames]

/-- Tables have the same sets of tests if they have the same modules with the same tests. -/
theorem asSets_eq_iff {t₁ t₂ : NameMap (List String)} :
    asSets t₁ = asSets t₂ ↔
      (∀ m, m ∈ t₁ ↔ m ∈ t₂) ∧ ∀ m n, n ∈ t₁.getD m [] ↔ n ∈ t₂.getD m [] := by
  have hentry : ∀ a b : Option (List String), a.map NameSet.ofList = b.map NameSet.ofList ↔
      (a.isSome = true ↔ b.isSome = true) ∧ ∀ n, n ∈ a.getD [] ↔ n ∈ b.getD [] := by
    intro a b
    cases a with
    | none => cases b <;> simp
    | some a =>
      cases b with
      | none => simp
      | some b => simp [NameSet.ofList_eq_iff]
  have hget : ∀ (t : NameMap (List String)) (m : String),
      (asSets t)[m]? = t[m]?.map NameSet.ofList := fun t m => Std.ExtTreeMap.getElem?_map
  simp only [Std.ExtTreeMap.mem_iff_isSome_getElem?, Std.ExtTreeMap.getD_eq_getD_getElem?]
  constructor
  · intro h
    have hall : ∀ m : String, t₁[m]?.map NameSet.ofList = t₂[m]?.map NameSet.ofList := fun m => by
      rw [← hget, ← hget, h]
    exact ⟨fun m => ((hentry _ _).mp (hall m)).1, fun m => ((hentry _ _).mp (hall m)).2⟩
  · rintro ⟨hmodules, hnames⟩
    apply Std.ExtTreeMap.ext_getElem?
    intro m
    rw [hget, hget]
    exact (hentry _ _).mpr ⟨hmodules m, hnames m⟩

theorem listing_inj {t₁ t₂ : NameMap (List String)} (h : listing t₁ = listing t₂) :
    asSets t₁ = asSets t₂ := by
  apply Std.ExtTreeMap.toList_inj.mp
  refine (List.map_inj_right ?_).mp h
  rintro ⟨m, names⟩ ⟨k, others⟩ heq
  obtain ⟨rfl, hnames⟩ := Prod.mk.inj heq
  rw [Std.ExtTreeSet.toList_inj.mp hnames]

/-- Bodies show their tables and the options. -/
theorem plainBody_eq_iff {g : Generator} (hname : '\n' ∉ g.nameSpace.toList)
    {t₁ t₂ : NameMap (List String)} (h₁ : IsTestTable t₁) (h₂ : IsTestTable t₂)
    {o₁ o₂ : RunOptions} {ps qs : List String} (ho₁ : o₁.paths = ps.map ofString)
    (ho₂ : o₂.paths = qs.map ofString) :
    plainBody t₁ o₁ ps = plainBody t₂ o₂ qs ↔ asSets t₁ = asSets t₂ ∧ SameOptions o₁ o₂ := by
  constructor
  · intro h
    have hgroups := groupsOf_source hname h₁ o₁ ps
    rw [h, groupsOf_source hname h₂ o₂ qs] at hgroups
    have hlisting := groups_inj hgroups
    have hbodies := congrArg String.toList h
    rw [plainBody_eq_unlines h₁, plainBody_eq_unlines h₂, hlisting] at hbodies
    have hclosing := List.append_cancel_left (List.append_cancel_left hbodies)
    exact ⟨listing_inj hlisting.symm,
      optionsRecord_inj ho₁ ho₂ (List.append_cancel_right hclosing)⟩
  · rintro ⟨htests, hoptions⟩
    have hrecord := hoptions.optionsRecord_eq
    rw [optionsRecord_eq_ofChars ho₁, optionsRecord_eq_ofChars ho₂, CodePoints.ofChars_inj]
      at hrecord
    rw [plainBody, plainBody, bodyText, bodyText, htests, hrecord]

end Table

/-- The imports and the groups of a program list the modules of a table, once each and in ascending
order, and each group refers to the tests of its module, once each and in ascending order. -/
structure Shows (source : String) (t : NameMap (List String))
    (modules : List (String × List String)) : Prop where
  imports : importBlock source = modules.map (importLine ·.1)
  groups : groupsOf source = modules.map fun (m, names) => (m, names.map (reference m))
  modules_ascending : modules.Pairwise fun a b => a.1 < b.1
  mem_modules : ∀ m, m ∈ modules.map (·.1) ↔ m ∈ t
  names_ascending : ∀ g ∈ modules, g.2.Pairwise (· < ·)
  mem_names : ∀ g ∈ modules, ∀ n, n ∈ g.2 ↔ n ∈ t.getD g.1 []

theorem shows_source {g : Generator} (hname : '\n' ∉ g.nameSpace.toList)
    {t : NameMap (List String)} (h : IsTestTable t) (o : RunOptions) (paths : List String) :
    Shows (g.programOf (plainBody t o paths)).source t (listing t) where
  imports := importBlock_source hname h o paths
  groups := groupsOf_source hname h o paths
  modules_ascending := by
    rw [listing, List.pairwise_map]
    exact Std.ExtTreeMap.ordered_keys_toList.imp lt_of_compare
  mem_modules m := by
    rw [List.mem_map, Std.ExtTreeMap.mem_iff_isSome_getElem?, Option.isSome_iff_exists]
    constructor
    · rintro ⟨⟨m, names⟩, hmem, rfl⟩
      obtain ⟨given, hgiven, -⟩ := mem_listing.mp hmem
      exact ⟨given, hgiven⟩
    · rintro ⟨given, hgiven⟩
      exact ⟨(m, _), mem_listing.mpr ⟨given, hgiven, rfl⟩, rfl⟩
  names_ascending := by
    rintro ⟨m, names⟩ hmem
    obtain ⟨given, -, rfl⟩ := mem_listing.mp hmem
    exact NameSet.toList_ascending (NameSet.ofList given)
  mem_names := by
    rintro ⟨m, names⟩ hmem n
    obtain ⟨given, hgiven, rfl⟩ := mem_listing.mp hmem
    rw [Std.ExtTreeSet.mem_toList, NameSet.mem_ofList, Std.ExtTreeMap.getD_eq_getD_getElem?, hgiven,
      Option.getD_some]

theorem SameOptions.accepts {g : Generator} {a b : RunOptions} (h : SameOptions a b)
    (ha : Accepts g a) : Accepts g b := by
  rw [Accepts, Generator.ShowsIntegers, Generator.integers] at ha ⊢
  rwa [← h.fuzz, ← h.seed, ← h.processes, ← h.paths]

/-- **A program determines its tests and options**: two tables and options give one program exactly if
they have the same modules with the same tests and options that do not differ, the colour of reports
apart that have none, and if the integers can be shown and the paths encoded. The modules and tests of
a program are listed in its text. Where an integer is too long or a surrogate stands alone in a path
there is no program. -/
theorem generate_eq_iff_same {g : Generator} (hname : '\n' ∉ g.nameSpace.toList)
    {t₁ t₂ : NameMap (List String)} (h₁ : IsTestTable t₁) (h₂ : IsTestTable t₂) (o₁ o₂ : RunOptions) :
    ((∃ program, g.generate (asTexts t₁) o₁ = .ok program ∧
        g.generate (asTexts t₂) o₂ = .ok program) ↔
      Accepts g o₁ ∧ (∀ m, m ∈ t₁ ↔ m ∈ t₂) ∧ (∀ m n, n ∈ t₁.getD m [] ↔ n ∈ t₂.getD m []) ∧
        SameOptions o₁ o₂) ∧
    (Accepts g o₁ → ∃ program modules, g.generate (asTexts t₁) o₁ = .ok program ∧
      Shows program.source t₁ modules) ∧
    (¬Accepts g o₁ → g.generate (asTexts t₁) o₁ = .error .longInteger ∧ ¬g.ShowsIntegers o₁ ∨
      ∃ flaw, g.generate (asTexts t₁) o₁ = .error (.unencodable flaw) ∧
        ¬∀ path ∈ o₁.paths, path.IsText) := by
  refine ⟨?_, fun ho => ?_, generate_of_not_accepts h₁⟩
  · rw [← and_assoc (a := ∀ m, m ∈ t₁ ↔ m ∈ t₂), ← asSets_eq_iff]
    constructor
    · rintro ⟨program, hfirst, hsecond⟩
      have ho₁ := accepts_of_generate h₁ hfirst
      have ho₂ := accepts_of_generate h₂ hsecond
      obtain ⟨ps, hps⟩ := ho₁.exists_paths
      obtain ⟨qs, hqs⟩ := ho₂.exists_paths
      rw [generate_asTexts h₁ ho₁ hps] at hfirst
      rw [generate_asTexts h₂ ho₂ hqs] at hsecond
      have hbodies := Generator.programOf_inj (Except.ok.inj (hfirst.trans hsecond.symm))
      exact ⟨ho₁, (plainBody_eq_iff hname h₁ h₂ hps hqs).mp hbodies⟩
    · rintro ⟨ho₁, hsame⟩
      obtain ⟨ps, hps⟩ := ho₁.exists_paths
      have ho₂ := hsame.2.accepts ho₁
      obtain ⟨qs, hqs⟩ := ho₂.exists_paths
      refine ⟨_, generate_asTexts h₁ ho₁ hps, ?_⟩
      rw [generate_asTexts h₂ ho₂ hqs, (plainBody_eq_iff hname h₁ h₂ hps hqs).mpr hsame]
  · obtain ⟨paths, hpaths⟩ := ho.exists_paths
    exact ⟨_, _, generate_asTexts h₁ ho hpaths, shows_source hname h₁ o₁ paths⟩

/-- A table of two modules, the tests of the first one being given. -/
def pairTable (names : List String) : NameMap (List String) :=
  ((∅ : NameMap (List String)).insert "B" ["z"]).insert "A.C" names

theorem isTestTable_pairTable {names : List String} (hne : names ≠ [])
    (hnames : ∀ n ∈ names, IsLowerIdentifier n.toList) : IsTestTable (pairTable names) := by
  have hentry : ∀ (m : String) (tests : List String), (pairTable names)[m]? = some tests →
      (m = "A.C" ∧ tests = names) ∨ (m = "B" ∧ tests = ["z"]) := by
    intro m tests h
    rw [pairTable, Std.ExtTreeMap.getElem?_insert, Std.ExtTreeMap.getElem?_insert] at h
    split at h
    · next heq =>
      exact .inl ⟨(Std.LawfulEqCmp.compare_eq_iff_eq.mp heq).symm, (Option.some.inj h).symm⟩
    · split at h
      · next heq =>
        exact .inr ⟨(Std.LawfulEqCmp.compare_eq_iff_eq.mp heq).symm, (Option.some.inj h).symm⟩
      · simp at h
  have hupper : ∀ c : Char, c.isUpper = true → IsUpperIdentifier [c] := fun c hc =>
    ⟨c, [], rfl, hc, by simp⟩
  apply isTestTable_of_identifiers
  · simp [pairTable]
  · intro m tests h
    rcases hentry m tests h with ⟨-, rfl⟩ | ⟨-, rfl⟩
    · exact hne
    · simp
  · intro m tests h
    rcases hentry m tests h with ⟨rfl, -⟩ | ⟨rfl, -⟩
    · exact ⟨[['A'], ['C']], by simp, by simp [hupper], rfl⟩
    · exact ⟨[['B']], by simp, by simp [hupper], rfl⟩
  · intro m tests h
    rcases hentry m tests h with ⟨-, rfl⟩ | ⟨-, rfl⟩
    · exact hnames
    · exact List.forall_mem_singleton.mpr ⟨'z', [], rfl, rfl, by simp⟩

/-- Order and repetition of the tests do not matter, nor does a colour that is not used. -/
theorem generate_pairTable :
    (∃ program,
      Generator.generate {} (asTexts (pairTable ["y", "x", "y"])) { report := .json } = .ok program ∧
      Generator.generate {} (asTexts (pairTable ["x", "y"])) { report := .json, useColor := true } =
        .ok program) ∧
    ∃ program modules,
      Generator.generate {} (asTexts (pairTable ["y", "x", "y"])) { report := .json } = .ok program ∧
        Shows program.source (pairTable ["y", "x", "y"]) modules := by
  have hx : IsLowerIdentifier ['x'] := ⟨'x', [], rfl, rfl, by simp⟩
  have hy : IsLowerIdentifier ['y'] := ⟨'y', [], rfl, rfl, by simp⟩
  have hmany : IsTestTable (pairTable ["y", "x", "y"]) :=
    isTestTable_pairTable (by simp) (by simp [hx, hy])
  have hfew : IsTestTable (pairTable ["x", "y"]) := isTestTable_pairTable (by simp) (by simp [hx, hy])
  have hline : '\n' ∉ (Generator.nameSpace {}).toList := by decide
  have hjson : Accepts {} { report := .json } := ⟨by decide, List.forall_mem_nil _⟩
  have hsets : asSets (pairTable ["y", "x", "y"]) = asSets (pairTable ["x", "y"]) := by
    decide +kernel
  obtain ⟨hmodules, hnames⟩ := asSets_eq_iff.mp hsets
  obtain ⟨hsame, hshows, -⟩ := generate_eq_iff_same hline hmany hfew { report := .json }
    { report := .json, useColor := true }
  exact ⟨hsame.mpr ⟨hjson, hmodules, hnames, rfl, rfl, rfl, rfl, rfl, nofun⟩, hshows hjson⟩

/-- There is no program for a path in which a surrogate stands alone. -/
theorem generate_surrogatePath :
    Generator.generate {} (asTexts (pairTable ["x"])) { paths := [[0xDCFF]] } =
      .error (.unencodable ⟨553, 0xDCFF, []⟩) := by
  decide +kernel

end Program

end ElmSuite

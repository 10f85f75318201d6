import ElmSuite.Proofs.IntegerText
import ElmSuite.Proofs.Program.ModuleFile
import ElmSuite.Proofs.Program.Options

/-!
# Integers that are given, read and shown

The integers among the options of a run are read from arguments and stand in the record of the
generated program, each in a field of its own. What stands there is an argument for the same
integer.
-/

namespace ElmSuite.Program

open IntegerText (Gives)
open CodePoints (ofChars ofString)

/-! ## Fields of the record -/

/-- A text among others stands before the separator. -/
theorem append_separator_infix_joinWith (separator : List Char) (before : List (List Char))
    (text next : List Char) (after : List (List Char)) :
    text ++ separator <:+: joinWith separator (before ++ text :: next :: after) := by
  rw [joinWith]
  induction before with
  | nil =>
    rw [List.nil_append, List.intercalate_cons_cons]
    exact (List.prefix_append _ _).isInfix
  | cons first before ih =>
    obtain ⟨second, rest, hrest⟩ : ∃ second rest, before ++ text :: next :: after = second :: rest :=
      List.exists_cons_of_ne_nil (by simp)
    rw [List.cons_append, hrest, List.intercalate_cons_cons, ← hrest]
    exact ih.trans (List.suffix_append _ _).isInfix

/-- The options before the paths show each integer in its field, at the end of a line. -/
theorem shows_integers (o : RunOptions) :
    "runs = ".toList ++ maybeInteger o.fuzz ++ ['\n'] <:+: shownOptions o ∧
    "seed = ".toList ++ maybeInteger o.seed ++ ['\n'] <:+: shownOptions o ∧
    "processes = ".toList ++ (toString o.processes).toList ++ ['\n'] <:+: shownOptions o := by
  have hseparator : "\n            , ".toList = ['\n'] ++ "            , ".toList := rfl
  -- with an empty field behind them, all four fields stand before a separator
  have hshown : shownOptions o = "\x7b ".toList ++ joinWith "\n            , ".toList
      ["runs = ".toList ++ maybeInteger o.fuzz,
        "report = ".toList ++ (o.report.code o.useColor).toList,
        "seed = ".toList ++ maybeInteger o.seed,
        "processes = ".toList ++ (toString o.processes).toList, []] := by
    simp only [shownOptions, joinWith, List.intercalate_cons_cons, List.intercalate_singleton,
      List.append_assoc, List.append_nil]
  have hfield (field : List Char) {fields : List (List Char)} (before : List (List Char))
      (next : List Char) (after : List (List Char)) (h : fields = before ++ field :: next :: after) :
      field ++ ['\n'] <:+: "\x7b ".toList ++ joinWith "\n            , ".toList fields := by
    have hjoined := append_separator_infix_joinWith "\n            , ".toList before field next after
    rw [← h] at hjoined
    refine (List.IsInfix.trans ?_ hjoined).trans (List.suffix_append _ _).isInfix
    rw [hseparator, ← List.append_assoc]
    exact (List.prefix_append _ _).isInfix
  rw [hshown]
  exact ⟨hfield _ [] _ _ rfl, hfield _ [_, _] _ _ rfl, hfield _ [_, _, _] _ _ rfl⟩

/-- Characters that stand in a text have their code points there. -/
theorem infix_of_ofChars {part whole : List Char} (h : ofChars part <:+: ofChars whole) :
    part <:+: whole := by
  obtain ⟨front, back, heq⟩ := h
  obtain ⟨start, last, rfl, hstart, -⟩ := List.map_eq_append_iff.mp heq.symm
  obtain ⟨first, second, rfl, -, hsecond⟩ := List.map_eq_append_iff.mp hstart
  rw [CodePoints.ofChars_inj.mp hsecond]
  exact ⟨first, last, rfl⟩

/-- The options stand in the program. -/
theorem infix_source {g : Generator} {tests : NameMap TextSet} {o : RunOptions} {program : Program}
    (h : g.generate tests o = .ok program) : shownOptions o <:+: program.source.toList := by
  obtain ⟨text, htext, rfl⟩ := Generator.eq_programOf_of_generate h
  have hbody : ofChars (shownOptions o) <:+: optionsRecord o := by
    rw [optionsRecord, CodePoints.ofChars_append, List.append_assoc, List.append_assoc]
    exact (List.prefix_append _ _).isInfix
  have hrecord : ofChars (shownOptions o) <:+: ofString text := by
    rw [← htext, Generator.bodyOf, body]
    exact hbody.trans ⟨_, _, rfl⟩
  refine (infix_of_ofChars hrecord).trans ?_
  rw [Generator.programOf, String.toList_append]
  exact (List.suffix_append _ _).isInfix

/-- The numeral of an integer stands in a program at the end of a line, behind the name of the field
that the integer is for, and in the expression `(Just n)` if the field need not have one. -/
structure ShowsInteger (program : Program) (o : RunOptions) (n : Int) : Prop where
  fuzz : o.fuzz = some n →
    "runs = (Just ".toList ++ (toString n).toList ++ [')', '\n'] <:+: program.source.toList
  seed : o.seed = some n →
    "seed = (Just ".toList ++ (toString n).toList ++ [')', '\n'] <:+: program.source.toList
  processes : o.processes = n →
    "processes = ".toList ++ (toString n).toList ++ ['\n'] <:+: program.source.toList

theorem append_maybeInteger (field : List Char) (n : Int) :
    field ++ maybeInteger (some n) ++ ['\n'] =
      field ++ "(Just ".toList ++ (toString n).toList ++ [')', '\n'] := by
  change field ++ ("(Just ".toList ++ (toString n).toList ++ [')']) ++ ['\n'] = _
  generalize "(Just ".toList = opening
  simp

theorem showsInteger_of_generate {g : Generator} {tests : NameMap TextSet} {o : RunOptions}
    {program : Program} (h : g.generate tests o = .ok program) (n : Int) :
    ShowsInteger program o n := by
  obtain ⟨hfuzz, hseed, hprocesses⟩ := shows_integers o
  constructor
  · intro hn
    rw [hn, append_maybeInteger] at hfuzz
    exact hfuzz.trans (infix_source h)
  · intro hn
    rw [hn, append_maybeInteger] at hseed
    exact hseed.trans (infix_source h)
  · rintro rfl
    exact hprocesses.trans (infix_source h)

/-- **Integers that are given, read and shown.** An integer is read from a value exactly if this is,
but for blank characters around it, a numeral of at most 4300 digits that denotes the integer, and
the integer is above zero where it has to be; every other value is reported as it was given, with
its flag. The numeral by which a program shows an integer that was read is itself a value from which
this integer is read, for whatever flag. -/
theorem integer_readAgain (flag value : String) (positive : Bool) :
    (∀ n, IntegerText.read flag value positive = .ok n ↔
      ∃ m : Numeral, Gives value m ∧ (positive = true → 0 < m.value) ∧ m.value = n) ∧
    (∀ p, IntegerText.read flag value positive = .error p ↔ p = .invalidInteger flag value ∧
      ¬∃ m : Numeral, Gives value m ∧ (positive = true → 0 < m.value)) ∧
    ∀ n, IntegerText.read flag value positive = .ok n →
      (∀ other, IntegerText.read other (toString n) positive = .ok n) ∧
      ∀ (g : Generator) (tests : NameMap TextSet) (o : RunOptions) (program : Program),
        g.generate tests o = .ok program → ShowsInteger program o n :=
  ⟨fun _ => IntegerText.read_eq_ok_iff, fun _ => IntegerText.read_eq_error_iff, fun n h =>
    ⟨IntegerText.read_toString h, fun _ _ _ _ hprogram => showsInteger_of_generate hprogram n⟩⟩

theorem integer_readAgain_groups :
    IntegerText.read "--seed" "\t-1_0٢ " false = .ok (-102) ∧
    IntegerText.read "--seed" "-102" false = .ok (-102) ∧
    ∃ program, Generator.generate {} Layout.singleTest { seed := some (-102) } = .ok program ∧
      ShowsInteger program { seed := some (-102) } (-102) := by
  have hread : IntegerText.read "--seed" "\t-1_0٢ " false = .ok (-102) := by decide +kernel
  obtain ⟨-, -, hagain⟩ := integer_readAgain "--seed" "\t-1_0٢ " false
  obtain ⟨hagain, hshown⟩ := hagain (-102) hread
  obtain ⟨program, hgenerate⟩ := Layout.generate_singleTest (g := {})
    (o := { seed := some (-102) }) (by decide) (List.forall_mem_nil _)
  exact ⟨hread, hagain "--seed", program, hgenerate, hshown _ _ _ _ hgenerate⟩

end ElmSuite.Program

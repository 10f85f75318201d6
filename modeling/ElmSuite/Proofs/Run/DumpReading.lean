import ElmSuite.Proofs.DumpRecords
import ElmSuite.Proofs.ReorderedDump
import ElmSuite.Proofs.Run.DumpRun

/-!
# What the dump tool is answered with

The dump tool is started once and awaited once. If it cannot be started or awaited, if what it
prints is no text, or if the text is no dump of records, this is reported as a problem of the
dump; else the tests of the modules in the table are there. How the process ended, and what it
printed beside the dump, does not matter.

One kind of output is not reported on: a text with an integer that has too many digits.
-/

namespace ElmSuite

/-- The problems that are reported of the dump tool and of what it prints. -/
def Problem.isDumpProblem : Problem → Bool
  | .dumpNotStarted _ | .unreadableDump | .emptyDump | .malformedDump _ | .dumpNotArray _ => true
  | _ => false

namespace Dump

open InterfaceDump (Reads Collected)

/-- The answer to what became of a start of the dump tool. -/
inductive Answers (executable : String) (table : NameMap Path) (testType : String) :
    ToolOutcome → Except Fault (NameMap ModuleTests) → Prop
  | notStarted (reason : String) : Answers executable table testType (.notStarted reason)
      (.error (.problem (.dumpNotStarted executable)))
  | lost (reason : String) :
      Answers executable table testType (.lost reason) (.error (.problem .unreadableDump))
  | garbled (flaw : Utf8.Flaw) :
      Answers executable table testType (.garbled flaw) (.error (.problem .unreadableDump))
  | refused {r : ProcessResult} {fault : Fault} (h : Reads r.stdout (.error fault)) :
      Answers executable table testType (.ended r) (.error fault)
  | collected {r : ProcessResult} {records : List ModuleRecord} {found : NameMap ModuleTests}
      (h : Reads r.stdout (.ok records)) (hfound : Collected table testType records found) :
      Answers executable table testType (.ended r) (.ok found)

/-! ## The answer -/

section Answer

variable {executable : String} {table : NameMap Path} {testType : String} {outcome : ToolOutcome}
  {result : Except Fault (NameMap ModuleTests)}

theorem answers_answer (executable : String) (table : NameMap Path) (testType : String)
    (outcome : ToolOutcome) :
    Answers executable table testType outcome (answer executable table testType outcome) := by
  cases outcome with
  | notStarted reason => exact .notStarted reason
  | lost reason => exact .lost reason
  | garbled flaw => exact .garbled flaw
  | ended r =>
    have hreads := InterfaceDump.reads_read r.stdout
    rw [answer]
    cases hread : InterfaceDump.read r.stdout with
    | error fault =>
      rw [hread] at hreads
      exact .refused hreads
    | ok records =>
      rw [hread] at hreads
      exact .collected hreads (InterfaceDump.collected_collect table testType records)

theorem Answers.answer_eq (h : Answers executable table testType outcome result) :
    answer executable table testType outcome = result := by
  cases h with
  | notStarted | lost | garbled => rfl
  | refused h => rw [answer, h.read_eq, Except.map]
  | @collected r records found h hfound =>
    rw [answer, h.read_eq, Except.map]
    exact congrArg Except.ok ((InterfaceDump.collected_collect table testType records).eq_of_isTest
      hfound fun _ _ => Iff.rfl)

/-- Each outcome has one answer. -/
theorem answers_iff :
    Answers executable table testType outcome result ↔
      result = answer executable table testType outcome := by
  constructor
  · intro h
    exact h.answer_eq.symm
  · rintro rfl
    exact answers_answer ..

/-- An output that is refused is refused with a problem of the dump, or holds an integer with too many
digits. -/
theorem fault_of_reads {stdout : String} {fault : Fault} (h : Reads stdout (.error fault)) :
    (∃ p, fault = .problem p ∧ p.isDumpProblem = true) ∨
      ∃ n, fault = .tooManyDigits n ∧ JsonReader.HoldsLong stdout.toList n := by
  cases h with
  | blank | notJson | notArray | faulty => exact .inl ⟨_, rfl, rfl⟩
  | longInteger hlong h => exact .inr ⟨_, rfl, hlong⟩

theorem fault_of_answers {fault : Fault}
    (h : Answers executable table testType outcome (.error fault)) :
    (∃ p, fault = .problem p ∧ p.isDumpProblem = true) ∨
      ∃ n r, fault = .tooManyDigits n ∧ outcome = .ended r ∧
        JsonReader.HoldsLong r.stdout.toList n := by
  cases h with
  | notStarted | lost | garbled => exact .inl ⟨_, rfl, rfl⟩
  | @refused r _ h =>
    rcases fault_of_reads h with hproblem | ⟨n, hn, hlong⟩
    · exact .inl hproblem
    · exact .inr ⟨n, r, hn, rfl, hlong⟩

end Answer

/-- **Reading a dump starts the tool once and has one answer**, by what became of the tool; to a
process that ended, by its output and the table alone. What fails is reported as a problem of the
dump, but for an output with more digits in a row than an integer may have. -/
theorem readTests_answers (tools : Toolbox) (root : Path) (table : NameMap Path) (testType : String)
    (s : Session) : ∃ (result : Except Fault (NameMap ModuleTests)) (notes : List LogRecord),
    (readTests tools root table testType).run s =
        (result, s.record (.start .dump (arguments root) (some root) ::
          (awaited (s.starts .dump) ((tools .dump).outcome (s.starts .dump)) ++
            notes.map .note))) ∧
      (∀ other, Answers (tools .dump).executable table testType
        ((tools .dump).outcome (s.starts .dump)) other ↔ other = result) ∧
      (∀ fault, result = .error fault → (∃ p, fault = .problem p ∧ p.isDumpProblem = true) ∨
        ∃ n r, fault = .tooManyDigits n ∧ (tools .dump).outcome (s.starts .dump) = .ended r ∧
          JsonReader.HoldsLong r.stdout.toList n) ∧
      ∀ (others : Toolbox) (place : Path) (t : Session) (r r' : ProcessResult),
        (tools .dump).outcome (s.starts .dump) = .ended r →
        (others .dump).outcome (t.starts .dump) = .ended r' → r'.stdout = r.stdout →
          ((readTests others place table testType).run t).1 = result := by
  obtain ⟨notes, hrun⟩ := run_readTests tools root table testType s
  refine ⟨_, notes, hrun, fun other => answers_iff, fun fault hfault => ?_, ?_⟩
  · exact fault_of_answers (answers_iff.mpr hfault.symm)
  · intro others place t r r' hended hended' hstdout
    obtain ⟨_, hother⟩ := run_readTests others place table testType t
    rw [hother, hended, hended', answer, answer, hstdout]

/-- A list of one integer, which is written with `n + 1` digits. -/
def onesText (n : Nat) : List Char := '[' :: ('1' :: List.replicate n '1' ++ [']'])

theorem read_onesText {n : Nat} (h : JsonReader.maxDigits ≤ n) :
    InterfaceDump.read (String.ofList (onesText n)) = .error (.tooManyDigits (n + 1)) := by
  have hwhole : JsonReader.IsWhole ('1' :: List.replicate n '1') := by
    refine .digits (by decide) fun c hc => ?_
    rw [← List.replicate_succ] at hc
    rw [List.eq_of_mem_replicate hc]
    rfl
  have hlength : ('1' :: List.replicate n '1').length = n + 1 := by simp
  have hdocument := JsonReader.document_of_longItem hwhole (by omega)
  rw [hlength, ← String.toList_ofList (l := '[' :: ('1' :: List.replicate n '1' ++ [']']))]
    at hdocument
  exact (Reads.longInteger (JsonReader.faultIn_of_document hdocument) hdocument).read_eq

/-- A dump tool that prints a list of one integer. -/
def onesTool (n : Nat) : Toolbox := fun _ =>
  ⟨"elm-interface-to-json", fun _ =>
    .ended { exitCode := 0, stdout := String.ofList (onesText n) }⟩

/-- An integer with too many digits is never reported as a problem of the dump. -/
theorem run_readTests_onesTool {n : Nat} (h : JsonReader.maxDigits ≤ n) (root : Path)
    (table : NameMap Path) (testType : String) (s : Session) :
    ((readTests (onesTool n) root table testType).run s).1 = .error (.tooManyDigits (n + 1)) := by
  obtain ⟨_, hrun⟩ := run_readTests (onesTool n) root table testType s
  rw [hrun]
  simp only [onesTool, answer, read_onesText h, Except.map]

/-- No problem is reported for an integer of 4301 digits. -/
theorem readTests_longInteger :
    ((readTests (onesTool 4300) ⟨.root, []⟩ ∅ InterfaceDump.testType).run
      { files := ⟨.dir [], some []⟩ }).1 = .error (.tooManyDigits 4301) :=
  run_readTests_onesTool (by decide) ⟨.root, []⟩ ∅ InterfaceDump.testType
    { files := ⟨.dir [], some []⟩ }

end Dump

end ElmSuite

import ElmSuite.Proofs.Results
import ElmSuite.Run.Process

/-!
# Starting processes

Whether a process can be started is settled in steps: by the words and variables that it is to get,
by its directory, and by the programs that are tried one after the other.
-/

namespace ElmSuite

/-! ## Variables -/

namespace ProcessCommand

variable {values : List (String × String)} {name : String}

theorem lookup_singleton (binding : String × String) :
    [binding].lookup name = if name = binding.1 then some binding.2 else none := by
  rw [List.lookup_cons, List.lookup_nil]
  by_cases h : name = binding.1
  · rw [if_pos h, h, beq_self_eq_true]
  · rw [if_neg h, beq_false_of_ne h]

/-- A variable that is set has its new value, and the others have theirs. -/
theorem lookup_setVariable (values : List (String × String)) (binding : String × String) :
    (setVariable values binding).lookup name =
      if name = binding.1 then some binding.2 else values.lookup name := by
  have hkept : (values.filter (·.1 ≠ binding.1)).lookup name =
      if name = binding.1 then none else values.lookup name := by
    induction values with
    | nil => simp
    | cons entry values ih =>
      by_cases hentry : entry.1 = binding.1
      · rw [List.filter_cons_of_neg (by simpa using hentry), ih]
        split
        · rfl
        · next hne => rw [List.lookup_cons, beq_false_of_ne (hentry ▸ hne)]
      · rw [List.filter_cons_of_pos (by simpa using hentry), List.lookup_cons, List.lookup_cons, ih]
        by_cases hname : name = entry.1
        · rw [hname, beq_self_eq_true]
          exact (if_neg hentry).symm
        · rw [beq_false_of_ne hname]
  rw [setVariable, List.lookup_append, hkept, lookup_singleton]
  split <;> simp

/-- **The variables of a process** are those it is started with, the last value of each counting, and
beside them those of the environment. -/
theorem lookup_environment (c : ProcessCommand) (inherited : List (String × String)) :
    (c.environment inherited).lookup name =
      (c.bindings.reverse.lookup name).or (inherited.lookup name) := by
  rw [environment]
  induction c.bindings generalizing inherited with
  | nil => rfl
  | cons binding bindings ih =>
    rw [List.foldl_cons, ih, lookup_setVariable, List.reverse_cons, List.lookup_append, Option.or_assoc,
      lookup_singleton]
    congr 1
    split <;> simp

end ProcessCommand

/-! ## Programs -/

namespace Machine

variable {execute : String → Except FileErrorReason Execution} {texts : List String}
  {obstacle : FileErrorReason} {e : Execution}

/-- What is executed is the first program that can be. -/
theorem executeFirst_eq_ok_iff : executeFirst execute texts obstacle = .ok e ↔
    ∃ front text back, texts = front ++ text :: back ∧ execute text = .ok e ∧
      ∀ other ∈ front, ∃ reason, execute other = .error reason := by
  induction texts generalizing obstacle with
  | nil => simp [executeFirst]
  | cons first texts ih =>
    rw [executeFirst]
    cases hfirst : execute first with
    | ok e' =>
      constructor
      · intro h
        exact ⟨[], first, texts, rfl, hfirst.trans (congrArg Except.ok (Except.ok.inj h)),
          List.forall_mem_nil _⟩
      · rintro ⟨_ | ⟨other, front⟩, text, back, heq, htext, hfront⟩
        · obtain ⟨rfl, -⟩ := List.cons.inj heq
          exact hfirst.symm.trans htext
        · obtain ⟨rfl, -⟩ := List.cons.inj heq
          obtain ⟨reason, hreason⟩ := hfront first (List.mem_cons_self ..)
          cases hfirst.symm.trans hreason
    | error reason =>
      rw [ih]
      constructor
      · rintro ⟨front, text, back, rfl, htext, hfront⟩
        exact ⟨first :: front, text, back, rfl, htext,
          List.forall_mem_cons.mpr ⟨⟨reason, hfirst⟩, hfront⟩⟩
      · rintro ⟨_ | ⟨other, front⟩, text, back, heq, htext, hfront⟩
        · obtain ⟨rfl, -⟩ := List.cons.inj heq
          cases hfirst.symm.trans htext
        · obtain ⟨-, rfl⟩ := List.cons.inj heq
          exact ⟨front, text, back, rfl, htext, (List.forall_mem_cons.mp hfront).2⟩

/-! ## The start -/

/-- **A process runs** if its words and variables are such as a process can have, its directory can
be entered, and one of the programs to try can be executed, none before it being one. -/
theorem start_eq_ok_iff {m : Machine} {fs : FileSystem} {inherited : List (String × String)}
    {c : ProcessCommand} : m.start fs inherited c = .ok e ↔
      c.check = .ok () ∧ ∃ files, c.files fs = .ok files ∧
        ∃ front text back, c.places (c.environment inherited) = front ++ text :: back ∧
          m.execute files text (c.executable :: c.arguments) (c.environment inherited) = .ok e ∧
          ∀ other ∈ front, ∃ reason,
            m.execute files other (c.executable :: c.arguments) (c.environment inherited) =
              .error reason := by
  rw [start]
  cases hcheck : c.check with
  | error fault => exact iff_of_false nofun fun h => nomatch h.1
  | ok =>
    cases hfiles : c.files fs with
    | error fault => exact iff_of_false nofun fun ⟨_, _, h, _⟩ => nomatch h
    | ok files =>
      simp only [bind, Except.bind, mapError_eq_ok_iff, executeFirst_eq_ok_iff,
        Except.ok.injEq, exists_eq_left', true_and]

end Machine

end ElmSuite

import ElmSuite.Proofs.Program.LiteralList
import ElmSuite.Proofs.Text.Lines
import Std.Data.String.ToInt

/-!
# The record of the options

Each field of the record stands on a line of its own, so that the record shows the
options of a run: all of them but the colour, which counts for console reports only.
-/

namespace ElmSuite.Program

open CodePoints (ofChars ofString)

/-- Whether two runs have the same options, as far as a program depends on them. -/
structure SameOptions (a b : RunOptions) : Prop where
  fuzz : a.fuzz = b.fuzz
  seed : a.seed = b.seed
  processes : a.processes = b.processes
  report : a.report = b.report
  paths : a.paths = b.paths
  useColor : a.report = .console → a.useColor = b.useColor

/-! ## Fields -/

theorem newline_not_mem_toString (n : Int) : '\n' ∉ (toString n).toList := by
  have hnat : ∀ k : Nat, '\n' ∉ (Nat.repr k).toList := by
    intro k hmem
    rw [Nat.repr, String.toList_ofList] at hmem
    have hdigit := Nat.isDigit_of_mem_toDigits (by decide) (by decide) hmem
    exact absurd hdigit (by decide)
  change '\n' ∉ (Int.repr n).toList
  cases n with
  | ofNat k => exact hnat k
  | negSucc k =>
    have hneg : (Int.repr (.negSucc k)).toList = '-' :: (Nat.repr (k + 1)).toList := by
      rw [Int.repr, String.toList_append]
      rfl
    rw [hneg, List.mem_cons, not_or]
    exact ⟨by decide, hnat (k + 1)⟩

theorem toString_inj {a b : Int} (h : (toString a).toList = (toString b).toList) : a = b :=
  Int.repr_injective (String.toList_inj.mp h)

theorem newline_not_mem_maybeInteger (n : Option Int) : '\n' ∉ maybeInteger n := by
  cases n with
  | none => decide
  | some n =>
    exact List.not_mem_append (List.not_mem_append (by decide) (newline_not_mem_toString n))
      (by decide)

theorem maybeInteger_inj {a b : Option Int} (h : maybeInteger a = maybeInteger b) : a = b := by
  have hother : ∀ n : Int, maybeInteger none ≠ maybeInteger (some n) := by
    intro n h
    have hhead : some 'N' = some '(' := congrArg List.head? h
    exact absurd hhead (by decide)
  cases a with
  | none =>
    cases b with
    | none => rfl
    | some b => exact absurd h (hother b)
  | some a =>
    cases b with
    | none => exact absurd h.symm (hother a)
    | some b =>
      have hnumber := List.append_cancel_left (List.append_cancel_right h)
      rw [toString_inj hnumber]

theorem newline_not_mem_code (r : Report) (colour : Bool) : '\n' ∉ (r.code colour).toList := by
  cases r <;> cases colour <;> decide

theorem code_eq_iff {r s : Report} {c d : Bool} :
    (r.code c).toList = (s.code d).toList ↔ r = s ∧ (r = .console → c = d) := by
  rw [String.toList_inj]
  cases r <;> cases s <;> cases c <;> cases d <;> simp [Report.code]

/-! ## The record -/

/-- The record, line by line. -/
theorem recordText_eq (o : RunOptions) (paths : List String) :
    recordText o paths =
      "\x7b runs = ".toList ++ (maybeInteger o.fuzz ++ '\n' ::
        ("            , report = ".toList ++ ((o.report.code o.useColor).toList ++ '\n' ::
          ("            , seed = ".toList ++ (maybeInteger o.seed ++ '\n' ::
            ("            , processes = ".toList ++ ((toString o.processes).toList ++ '\n' ::
              ("            , paths = [".toList ++ (joinWith [',', ' '] (paths.map Literal.literal) ++
                ']' :: "\n            \x7d".toList))))))))) := by
  rw [recordText, shownOptions, joinWith, List.intercalate_cons_cons, List.intercalate_cons_cons,
    List.intercalate_cons_cons, List.intercalate_singleton, literalList]
  simp only [List.append_assoc, List.cons_append]
  rfl

/-- A record shows the options. -/
theorem optionsRecord_inj {a b : RunOptions} {ps qs : List String}
    (ha : a.paths = ps.map ofString) (hb : b.paths = qs.map ofString)
    (h : recordText a ps = recordText b qs) : SameOptions a b := by
  rw [recordText_eq, recordText_eq] at h
  obtain ⟨hfuzz, h⟩ := Text.line_append_inj (newline_not_mem_maybeInteger _)
    (newline_not_mem_maybeInteger _) (List.append_cancel_left h)
  obtain ⟨hreport, h⟩ := Text.line_append_inj (newline_not_mem_code _ _)
    (newline_not_mem_code _ _) (List.append_cancel_left h)
  obtain ⟨hseed, h⟩ := Text.line_append_inj (newline_not_mem_maybeInteger _)
    (newline_not_mem_maybeInteger _) (List.append_cancel_left h)
  obtain ⟨hprocesses, h⟩ := Text.line_append_inj (newline_not_mem_toString _)
    (newline_not_mem_toString _) (List.append_cancel_left h)
  obtain ⟨hsame, hcolour⟩ := code_eq_iff.mp hreport
  obtain ⟨rfl, -⟩ :=
    literals_append_inj (forall₂_literal ps) (forall₂_literal qs) (List.append_cancel_left h)
  exact ⟨maybeInteger_inj hfuzz, maybeInteger_inj hseed, toString_inj hprocesses, hsame,
    ha.trans hb.symm, hcolour⟩

/-- What a record does not show does not matter. -/
theorem SameOptions.optionsRecord_eq {a b : RunOptions} (h : SameOptions a b) :
    optionsRecord a = optionsRecord b := by
  have hcode : (a.report.code a.useColor).toList = (b.report.code b.useColor).toList :=
    code_eq_iff.mpr ⟨h.report, h.useColor⟩
  rw [optionsRecord, optionsRecord, shownOptions, shownOptions, h.fuzz, h.seed, h.processes,
    h.paths, hcode]

/-! ## Strings in a record -/

/-- **Literals are read back as what they were written for.** The literal of a string is one
literal, with no control character in it, of this string and of no other, so that different strings
have different literals. The list of the paths in a record is the list of no other strings. -/
theorem literals_readBack :
    (∀ s : String, Literal.IsLiteralOf (Literal.literal s) s ∧
      (∀ text t rest, Literal.IsLiteralOf text t → Literal.literal s = text ++ rest →
        t = s ∧ rest = []) ∧
      (∀ c ∈ Literal.literal s, ¬Literal.IsControl c) ∧
      (∀ rest, Literal.read? (Literal.literal s ++ rest) = some (s, rest)) ∧
      Literal.ofText (ofString s) = ofChars (Literal.literal s)) ∧
    Function.Injective Literal.literal ∧
    (∀ strings others, IsListOf (literalList strings) others ↔ others = strings) ∧
    ∀ (o : RunOptions) (paths : List String), ∃ front,
      optionsRecord { o with paths := paths.map ofString } =
        ofChars (front ++ "paths = ".toList ++ literalList paths ++ "\n            \x7d".toList) := by
  have hliteral := Literal.isLiteralOf_literal
  refine ⟨fun s => ⟨hliteral s, ?_, (hliteral s).not_isControl, Literal.read?_literal s,
    Literal.ofText_ofString s⟩, ?_, fun _ _ => isListOf_literalList_iff,
    fun o paths => ⟨shownOptions o, optionsRecord_eq_ofChars rfl⟩⟩
  · intro text t rest ht htext
    obtain ⟨hstring, hrest⟩ :=
      ht.append_inj (hliteral s) (htext.symm.trans (List.append_nil _).symm)
    exact ⟨hstring, hrest⟩
  · intro s t h
    exact ((hliteral s).append_inj (hliteral t) (congrArg (· ++ []) h)).1

end ElmSuite.Program

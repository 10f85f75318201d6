import Mathlib.Data.List.Basic
import ElmSuite.Text.Line

/-!
# Where texts are cut into lines

The lines of a text held in memory follow from its lines one by one: those that are
joined by line feeds are cut apart again, and what stands behind a line feed is cut by
itself. Where a text has no line ends but those of a file, its lines are those that are
read from the file.
-/

namespace ElmSuite.Text

/-! ## Lines behind lines -/

theorem splitLinesFrom_nil (line : List Char) :
    splitLinesFrom line [] = if line.isEmpty then [] else [line.reverse] := rfl

theorem splitLinesFrom_lineFeed (line rest : List Char) :
    splitLinesFrom line ('\n' :: rest) = line.reverse :: splitLines rest := rfl

theorem splitLinesFrom_pair (line rest : List Char) :
    splitLinesFrom line ('\r' :: '\n' :: rest) = line.reverse :: splitLines rest := rfl

theorem splitLinesFrom_cons {c : Char} {rest : List Char}
    (h : ∀ more, c = '\r' → rest ≠ '\n' :: more) (line : List Char) :
    splitLinesFrom line (c :: rest) =
      if isLineEnd c then line.reverse :: splitLines rest else splitLinesFrom (c :: line) rest := by
  generalize htext : c :: rest = text
  fun_cases splitLinesFrom line text with
  | case1 | case2 => cases htext
  | case3 tail =>
    obtain ⟨rfl, rfl⟩ := List.cons.inj htext
    exact absurd rfl (h tail rfl)
  | case4 d tail _ hend | case5 d tail _ hend =>
    obtain ⟨rfl, rfl⟩ := List.cons.inj htext
    simp only [hend, if_true, if_false, Bool.false_eq_true, splitLines]

/-- A line without line ends is the first of a text that goes on behind it. -/
theorem splitLinesFrom_append {line : List Char} (h : ∀ c ∈ line, isLineEnd c = false)
    (before rest : List Char) :
    splitLinesFrom before (line ++ rest) = splitLinesFrom (line.reverse ++ before) rest := by
  induction line generalizing before with
  | nil => rfl
  | cons c line ih =>
    rw [List.forall_mem_cons] at h
    have hreturn : c ≠ '\r' := by
      rintro rfl
      exact absurd h.1 (by decide)
    rw [List.cons_append, splitLinesFrom_cons fun _ hc => absurd hc hreturn, if_neg (by simp [h.1]),
      ih h.2, List.reverse_cons, List.append_assoc, List.singleton_append]

/-- Lines that are joined by line feeds are cut apart again. -/
theorem splitLines_intercalate {lines : List (List Char)}
    (h : ∀ line ∈ lines, line ≠ [] ∧ ∀ c ∈ line, isLineEnd c = false) :
    splitLines (['\n'].intercalate lines) = lines := by
  induction lines with
  | nil => rfl
  | cons line lines ih =>
    rw [List.forall_mem_cons] at h
    obtain ⟨⟨hne, hline⟩, hrest⟩ := h
    have hfirst := fun rest => splitLinesFrom_append hline [] rest
    cases lines with
    | nil =>
      have hone := hfirst []
      rw [List.append_nil, List.append_nil] at hone
      rw [List.intercalate_singleton, splitLines, hone]
      simp [splitLinesFrom_nil, hne]
    | cons next lines =>
      have hmore := hfirst ('\n' :: ['\n'].intercalate (next :: lines))
      rw [List.append_nil, splitLinesFrom_lineFeed, List.reverse_reverse] at hmore
      rw [List.intercalate_cons_cons, List.append_assoc, List.singleton_append, splitLines, hmore,
        ih hrest]

/-- Behind a line feed a text is cut by itself. -/
theorem splitLinesFrom_append_of_lineFeed {front : List Char} (h : front.getLast? = some '\n')
    (line rest : List Char) :
    splitLinesFrom line (front ++ rest) = splitLinesFrom line front ++ splitLines rest := by
  fun_induction splitLinesFrom line front with
  | case1 line hempty | case2 line hempty => cases h
  | case3 line more ih =>
    rw [List.cons_append, List.cons_append, splitLinesFrom_pair, List.cons_append]
    cases more with
    | nil => rfl
    | cons d more => rw [splitLines, ih (by simpa using h)]
  | case4 line c more hreturn hend ih =>
    have hreturn' : ∀ tail, c = '\r' → more ++ rest ≠ '\n' :: tail := by
      rintro tail rfl heq
      cases more with
      | nil => cases h
      | cons d more => exact hreturn more rfl (by rw [(List.cons.inj heq).1])
    rw [List.cons_append, splitLinesFrom_cons hreturn', if_pos hend, List.cons_append]
    cases more with
    | nil => rfl
    | cons d more => rw [splitLines, ih (by simpa using h)]
  | case5 line c more hreturn hend ih =>
    cases more with
    | nil =>
      obtain rfl : c = '\n' := by simpa using h
      exact absurd (by decide) hend
    | cons d more =>
      have hreturn' : ∀ tail, c = '\r' → (d :: more) ++ rest ≠ '\n' :: tail :=
        fun tail hc heq => hreturn more hc (by rw [(List.cons.inj heq).1])
      rw [List.cons_append, splitLinesFrom_cons hreturn', if_neg hend, ih (by simpa using h)]

theorem splitLines_append_of_lineFeed {front : List Char} (h : front.getLast? = some '\n')
    (rest : List Char) : splitLines (front ++ rest) = splitLines front ++ splitLines rest :=
  splitLinesFrom_append_of_lineFeed h [] rest

/-! ## The lines of files -/

theorem unifyLineEnds_cons_of_ne {c : Char} (h : c ≠ '\r') (rest : List Char) :
    unifyLineEnds (c :: rest) = c :: unifyLineEnds rest := by
  rw [unifyLineEnds, if_neg h]
  exact fun tail hc => absurd hc h

/-- A carriage return that no line feed belongs to is a line end. -/
theorem unifyLineEnds_return {rest : List Char} (h : ∀ tail, rest ≠ '\n' :: tail) :
    unifyLineEnds ('\r' :: rest) = '\n' :: unifyLineEnds rest := by
  rw [unifyLineEnds, if_pos rfl]
  exact fun tail _ heq => h tail heq

/-- The lines of a text that is read from a file, the last of which may be empty. -/
def fileLines (text : List Char) : List (List Char) := (unifyLineEnds text).splitOn '\n'

/-- Lines with a text in front of the first of them. -/
def continueFirst (front : List Char) (lines : List (List Char)) : List (List Char) :=
  lines.modifyHead (front ++ ·)

@[simp] theorem continueFirst_nil (lines : List (List Char)) : continueFirst [] lines = lines := by
  cases lines <;> rfl

@[simp] theorem continueFirst_cons (front line : List Char) (lines : List (List Char)) :
    continueFirst front (line :: lines) = (front ++ line) :: lines := rfl

theorem continueFirst_continueFirst (s t : List Char) (lines : List (List Char)) :
    continueFirst s (continueFirst t lines) = continueFirst (s ++ t) lines := by
  cases lines <;> simp [continueFirst]

@[simp] theorem fileLines_nil : fileLines [] = [[]] := rfl

theorem fileLines_of_unify {text rest : List Char}
    (h : unifyLineEnds text = '\n' :: unifyLineEnds rest) :
    fileLines text = [] :: fileLines rest := by
  rw [fileLines, h, List.splitOn_cons_eq_if_modifyHead, if_pos (by decide), fileLines]

theorem fileLines_lineFeed (rest : List Char) : fileLines ('\n' :: rest) = [] :: fileLines rest :=
  fileLines_of_unify (unifyLineEnds_cons_of_ne (by decide) rest)

theorem fileLines_pair (rest : List Char) :
    fileLines ('\r' :: '\n' :: rest) = [] :: fileLines rest :=
  fileLines_of_unify (by rw [unifyLineEnds])

theorem fileLines_return {rest : List Char} (h : ∀ tail, rest ≠ '\n' :: tail) :
    fileLines ('\r' :: rest) = [] :: fileLines rest :=
  fileLines_of_unify (unifyLineEnds_return h)

theorem fileLines_cons {c : Char} (hfeed : c ≠ '\n') (hreturn : c ≠ '\r') (rest : List Char) :
    fileLines (c :: rest) = continueFirst [c] (fileLines rest) := by
  rw [fileLines, unifyLineEnds_cons_of_ne hreturn, List.splitOn_cons_eq_if_modifyHead,
    if_neg (by simpa using hfeed)]
  rfl

/-- A line feed at the end of a text is not changed by what follows. -/
theorem exists_unifyLineEnds_append {front : List Char} (h : front.getLast? = some '\n') :
    ∃ before, ∀ rest, unifyLineEnds (front ++ rest) = before ++ '\n' :: unifyLineEnds rest := by
  fun_induction unifyLineEnds front with
  | case1 => cases h
  | case2 more ih =>
    cases more with
    | nil => exact ⟨[], fun rest => by simp [unifyLineEnds]⟩
    | cons d more =>
      obtain ⟨before, hbefore⟩ := ih (by simpa using h)
      exact ⟨'\n' :: before, fun rest => by
        rw [List.cons_append, List.cons_append, unifyLineEnds, hbefore, List.cons_append]⟩
  | case3 c more hreturn ih =>
    cases more with
    | nil =>
      obtain rfl : c = '\n' := by simpa using h
      exact ⟨[], fun rest => unifyLineEnds_cons_of_ne (by decide) rest⟩
    | cons d more =>
      obtain ⟨before, hbefore⟩ := ih (by simpa using h)
      refine ⟨(if c = '\r' then '\n' else c) :: before, fun rest => ?_⟩
      rw [List.cons_append, unifyLineEnds, hbefore, List.cons_append]
      exact fun tail hc heq => hreturn more hc (by rw [(List.cons.inj heq).1])

/-- Behind a line feed the lines of a file are those of what stands there. -/
theorem exists_fileLines_append {front : List Char} (h : front.getLast? = some '\n') :
    ∃ lines, fileLines front = lines ++ [[]] ∧
      ∀ rest, fileLines (front ++ rest) = lines ++ fileLines rest := by
  obtain ⟨before, hbefore⟩ := exists_unifyLineEnds_append h
  have hfront := hbefore []
  rw [List.append_nil] at hfront
  refine ⟨before.splitOn '\n', ?_, fun rest => ?_⟩
  · rw [fileLines, hfront, List.splitOn_append_cons_self]
    rfl
  · rw [fileLines, hbefore, List.splitOn_append_cons_self, fileLines]

/-- Lines that are the same but for an empty one at the end. -/
inductive UpToEmptyLast (lines : List (List Char)) : List (List Char) → Prop
  | same : UpToEmptyLast lines lines
  | empty : UpToEmptyLast lines (lines ++ [[]])

theorem UpToEmptyLast.cons {lines more : List (List Char)} (h : UpToEmptyLast lines more)
    (line : List Char) : UpToEmptyLast (line :: lines) (line :: more) := by
  cases h with
  | same => exact .same
  | empty => exact .empty

/-- Without other line ends, the lines of a text are those of a file. `line` is what was read of the
current line, backwards. -/
theorem splitLinesFrom_upToEmptyLast (line : List Char) {text : List Char}
    (h : ∀ c ∈ text, isLineEnd c = true → c = '\n' ∨ c = '\r') :
    UpToEmptyLast (splitLinesFrom line text) (continueFirst line.reverse (fileLines text)) := by
  fun_induction splitLinesFrom line text with
  | case1 line hempty =>
    rw [List.isEmpty_iff.mp hempty]
    exact .empty
  | case2 line hempty => simpa using .same
  | case3 line rest ih =>
    have ih := ih fun c hc => h c (List.mem_cons_of_mem _ (List.mem_cons_of_mem _ hc))
    rw [fileLines_pair]
    simpa using ih.cons line.reverse
  | case4 line c rest hreturn hend ih =>
    have ih := ih fun d hd => h d (List.mem_cons_of_mem c hd)
    have hcut : fileLines (c :: rest) = [] :: fileLines rest := by
      rcases h c (List.mem_cons_self ..) hend with rfl | rfl
      · exact fileLines_lineFeed rest
      · exact fileLines_return fun tail heq => hreturn tail rfl heq
    rw [hcut]
    simpa using ih.cons line.reverse
  | case5 line c rest hreturn hend ih =>
    have ih := ih fun d hd => h d (List.mem_cons_of_mem c hd)
    have hfeed : c ≠ '\n' := by
      rintro rfl
      exact hend (by decide)
    have hback : c ≠ '\r' := by
      rintro rfl
      exact hend (by decide)
    rwa [fileLines_cons hfeed hback, continueFirst_continueFirst, ← List.reverse_cons]

end ElmSuite.Text

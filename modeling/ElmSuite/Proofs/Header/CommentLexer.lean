import ElmSuite.Proofs.Header.Gap

/-!
# Comments read in one pass

Comments are dropped line by line, and only the number of open block comments is
carried from a line to the next. A lexer that passes once over the whole text, line
ends included, finds the same comments: no marker reaches over a line end, and a
line end closes line comments only.
-/

namespace ElmSuite.Comment

/-! ## The lexer -/

/-- Where a lexer stands in a text. -/
inductive Mode where
  /-- Outside comments. -/
  | code
  /-- In a line comment. -/
  | lineComment
  /-- In a block comment and in `outer` more that it is nested in. `here` tells whether the outermost
  of them was opened on this line. -/
  | blockComment (outer : Nat) (here : Bool)
  deriving DecidableEq, Repr

namespace Mode

/-- How many block comments are open. -/
def depth : Mode → Nat
  | code | lineComment => 0
  | blockComment outer _ => outer + 1

/-- The mode at the start of a line, with `n` block comments open from the lines before. -/
def atStart : Nat → Mode
  | 0 => code
  | outer + 1 => blockComment outer false

@[simp] theorem depth_atStart (n : Nat) : (atStart n).depth = n := by
  cases n <;> rfl

end Mode

/-- Drops the comments from a text in one pass. The two characters of a marker are read together.
Line ends are kept, wherever they stand; a block comment that is opened outside comments and closed
on the same line leaves a space. -/
def lex : Mode → List Char → List Char × Mode
  | mode, [] => ([], mode)
  | .code, '-' :: '-' :: rest => lex .lineComment rest
  | .code, '{' :: '-' :: rest => lex (.blockComment 0 true) rest
  | .code, c :: rest => (lex .code rest).map (c :: ·) id
  | .lineComment, '\n' :: rest => (lex .code rest).map ('\n' :: ·) id
  | .lineComment, _ :: rest => lex .lineComment rest
  | .blockComment outer here, '{' :: '-' :: rest => lex (.blockComment (outer + 1) here) rest
  | .blockComment outer here, '-' :: '}' :: rest =>
    match outer with
    | 0 => (lex .code rest).map ((if here then [' '] else []) ++ ·) id
    | outer + 1 => lex (.blockComment outer here) rest
  | .blockComment outer _, '\n' :: rest => (lex (.blockComment outer false) rest).map ('\n' :: ·) id
  | .blockComment outer here, _ :: rest => lex (.blockComment outer here) rest

-- A marker is read as a whole, so that the brace of `{-}` closes nothing.
example : lex .code "a\x7b-\x7db-\x7dc\x7b-d\ne-\x7df--g\nh".toList = ("a c\nf\nh".toList, .code) := by decide

section Steps

variable {m n c : Char} {rest : List Char}

theorem startsMarker_iff : [m, n] <+: c :: rest ↔ c = m ∧ n ∈ rest.head? := by
  cases rest with
  | nil => simp
  | cons d rest => simp [eq_comm]

theorem not_startsMarker (h : ∀ more, c = m → rest = n :: more → False) :
    ¬ [m, n] <+: c :: rest := by
  rw [startsMarker_iff, Option.mem_def, List.head?_eq_some_iff]
  rintro ⟨hc, more, hrest⟩
  exact h more hc hrest

/-- A character that no marker ends with completes none of the markers before it. -/
theorem not_startsMarker_append {e : Char} (hn : n ≠ e) (more : List Char)
    (h : ¬ [m, n] <+: c :: rest) : ¬ [m, n] <+: c :: (rest ++ e :: more) := by
  cases rest with
  | nil => simp [hn]
  | cons d rest => exact Header.not_startsMarker h

/-- Outside comments a character that begins no marker is kept. -/
theorem lex_outside (hline : ¬ ['-', '-'] <+: c :: rest) (hopen : ¬ ['\x7b', '-'] <+: c :: rest) :
    lex .code (c :: rest) = (lex .code rest).map (c :: ·) id := by
  rw [lex]
  · rintro more rfl rfl
    simp at hline
  · rintro more rfl rfl
    simp at hopen

/-- Inside a block comment a character that begins no marker is dropped, unless it ends a line. -/
theorem lex_inside (hopen : ¬ ['\x7b', '-'] <+: c :: rest) (hclose : ¬ ['-', '\x7d'] <+: c :: rest)
    (hend : c ≠ '\n') (outer : Nat) (here : Bool) :
    lex (.blockComment outer here) (c :: rest) = lex (.blockComment outer here) rest := by
  rw [lex]
  · rintro more rfl rfl
    simp at hopen
  · rintro more rfl rfl
    simp at hclose
  · exact hend

theorem stripFrom_outside (hline : ¬ ['-', '-'] <+: c :: rest) (hopen : ¬ ['\x7b', '-'] <+: c :: rest)
    (opened : Bool) :
    stripFrom opened 0 (c :: rest) = (stripFrom opened 0 rest).map (c :: ·) id := by
  cases rest with
  | nil => simp [stripFrom]
  | cons d rest =>
    simp only [List.cons_prefix_cons, List.nil_prefix, and_true, not_and] at hline hopen
    rw [stripFrom, if_neg fun h => hline h.2.1.symm h.2.2.symm,
      if_neg fun h => hopen h.1.symm h.2.symm, if_neg (by simp)]
    rfl

theorem stripFrom_open (opened : Bool) :
    stripFrom opened 0 ('\x7b' :: '-' :: rest) = stripFrom true 1 rest := by
  simp [stripFrom]

theorem stripFrom_open_nested (opened : Bool) {depth : Int} (hdepth : 0 < depth) :
    stripFrom opened depth ('\x7b' :: '-' :: rest) = stripFrom opened (depth + 1) rest := by
  have hne : depth ≠ 0 := by omega
  simp [stripFrom, hne]

theorem stripFrom_close (opened : Bool) :
    stripFrom opened 1 ('-' :: '\x7d' :: rest) =
      (stripFrom false 0 rest).map ((if opened then [' '] else []) ++ ·) id := by
  cases opened <;> simp [stripFrom, Prod.map]

theorem stripFrom_close_nested (opened : Bool) {depth : Int} (hdepth : 1 < depth) :
    stripFrom opened depth ('-' :: '\x7d' :: rest) = stripFrom opened (depth - 1) rest := by
  have hzero : depth ≠ 0 := by omega
  have hone : depth ≠ 1 := by omega
  have hpos : 0 < depth := by omega
  simp [stripFrom, hzero, hone, hpos]

end Steps

/-! ## Texts with line ends -/

/-- A line end is kept, and ends a line comment. -/
theorem lex_newline (mode : Mode) (more : List Char) :
    lex mode ('\n' :: more) = (lex (.atStart mode.depth) more).map ('\n' :: ·) id := by
  cases mode with
  | code => exact lex_outside (by simp) (by simp)
  | lineComment => rfl
  | blockComment outer here => rfl

/-- The lexer may be stopped before a line end. -/
theorem lex_append_newline (mode : Mode) (s more : List Char) :
    lex mode (s ++ '\n' :: more) =
      (lex (lex mode s).2 ('\n' :: more)).map ((lex mode s).1 ++ ·) id := by
  fun_induction lex mode s with
  | case1 mode => rfl
  | case2 rest ih | case3 rest ih => exact ih
  | case4 c rest hline hopen ih =>
    have hline := not_startsMarker_append (by decide : '-' ≠ '\n') more (not_startsMarker hline)
    have hopen := not_startsMarker_append (by decide : '-' ≠ '\n') more (not_startsMarker hopen)
    rw [List.cons_append, lex_outside hline hopen, ih]
    rfl
  | case5 rest ih =>
    rw [List.cons_append, lex, ih]
    rfl
  | case6 c rest hend ih =>
    rw [List.cons_append, lex]
    · exact ih
    · exact hend
  | case7 outer here rest ih => exact ih
  | case8 here rest ih =>
    simp [lex, ih, Prod.map]
  | case9 here rest outer ih => exact ih
  | case10 outer here rest ih =>
    rw [List.cons_append, lex, ih]
    rfl
  | case11 outer here c rest hopen hclose hend ih =>
    have hopen := not_startsMarker_append (by decide : '-' ≠ '\n') more (not_startsMarker hopen)
    have hclose := not_startsMarker_append (by decide : '\x7d' ≠ '\n') more (not_startsMarker hclose)
    rw [List.cons_append, lex_inside hopen hclose hend]
    exact ih

/-! ## One line -/

/-- What stripping a line gives from a mode on. -/
def stripIn : Mode → List Char → List Char × Int
  | .code, line => strip 0 line
  | .lineComment, _ => ([], 0)
  | .blockComment outer here, line => stripFrom here (outer + 1) line

/-- On one line the lexer keeps what stripping keeps. -/
theorem stripIn_eq_lex (mode : Mode) (line : List Char) (h : '\n' ∉ line) :
    stripIn mode line = ((lex mode line).1, ((lex mode line).2.depth : Int)) := by
  fun_induction lex mode line with
  | case1 mode => cases mode <;> rfl
  | case2 rest ih =>
    simp only [List.mem_cons, not_or] at h
    rw [← ih h.2.2]
    rfl
  | case3 rest ih =>
    simp only [List.mem_cons, not_or] at h
    rw [← ih h.2.2]
    exact stripFrom_open false
  | case4 c rest hline hopen ih =>
    simp only [List.mem_cons, not_or] at h
    have ih := ih h.2
    rw [stripIn, strip] at ih ⊢
    rw [stripFrom_outside (not_startsMarker hline) (not_startsMarker hopen), ih]
    rfl
  | case5 rest ih => simp at h
  | case6 c rest hend ih =>
    simp only [List.mem_cons, not_or] at h
    exact ih h.2
  | case7 outer here rest ih =>
    simp only [List.mem_cons, not_or] at h
    rw [← ih h.2.2]
    exact stripFrom_open_nested here (by omega)
  | case8 here rest ih =>
    simp only [List.mem_cons, not_or] at h
    have ih := ih h.2.2
    rw [stripIn, strip] at ih
    rw [stripIn, Int.natCast_zero, Int.zero_add, stripFrom_close, ih]
    rfl
  | case9 here rest outer ih =>
    simp only [List.mem_cons, not_or] at h
    rw [← ih h.2.2, stripIn, stripFrom_close_nested here (by omega)]
    simp [stripIn]
  | case10 outer here rest ih => simp at h
  | case11 outer here c rest hopen hclose hend ih =>
    simp only [List.mem_cons, not_or] at h
    rw [← ih h.2]
    exact Header.stripFrom_inside (by omega) (not_startsMarker hopen) (not_startsMarker hclose) here

/-! ## All lines -/

/-- Drops the comments from lines, the first of which starts `depth` block comments deep. The result
is the text kept of each line, and the depth behind the last. -/
def stripLines (depth : Int) : List (List Char) → List (List Char) × Int
  | [] => ([], depth)
  | line :: rest =>
    let (kept, after) := strip depth line
    (stripLines after rest).map (kept :: ·) id

/-- Lines as one text. -/
def joinLines (lines : List (List Char)) : List Char := ['\n'].intercalate lines

theorem joinLines_cons (line : List Char) {rest : List (List Char)} (h : rest ≠ []) :
    joinLines (line :: rest) = line ++ '\n' :: joinLines rest := by
  cases rest with
  | nil => exact absurd rfl h
  | cons next rest => simp [joinLines, List.intercalate_cons_cons]

theorem stripLines_ne_nil {lines : List (List Char)} (h : lines ≠ []) (depth : Int) :
    (stripLines depth lines).1 ≠ [] := by
  cases lines with
  | nil => exact absurd rfl h
  | cons line rest => simp [stripLines]

theorem strip_eq_lex (depth : Nat) {line : List Char} (h : '\n' ∉ line) :
    strip depth line =
      ((lex (.atStart depth) line).1, ((lex (.atStart depth) line).2.depth : Int)) := by
  rw [← stripIn_eq_lex _ line h]
  cases depth <;> rfl

/-- **Dropping comments line by line is reading the text in one pass**: what is kept of the lines,
joined by line ends, is what the lexer keeps of the joined lines, and as many block comments are open
at the end, never less than none. -/
theorem stripLines_eq_lex (lines : List (List Char)) (h : ∀ line ∈ lines, '\n' ∉ line) (depth : Nat) :
    joinLines (stripLines depth lines).1 = (lex (.atStart depth) (joinLines lines)).1 ∧
      (stripLines depth lines).2 = (lex (.atStart depth) (joinLines lines)).2.depth ∧
      0 ≤ (stripLines depth lines).2 := by
  induction lines generalizing depth with
  | nil => simp [stripLines, joinLines, lex]
  | cons line rest ih =>
    have hline := strip_eq_lex depth (h line (List.mem_cons_self ..))
    obtain ⟨hkept, hdepth, hnonneg⟩ := ih (fun other hother => h other (List.mem_cons_of_mem line hother))
      (lex (.atStart depth) line).2.depth
    rw [stripLines, hline]
    by_cases hrest : rest = []
    · subst hrest
      simp [stripLines, joinLines]
    · refine ⟨?_, ?_, hnonneg⟩
      · rw [joinLines_cons line hrest, lex_append_newline, lex_newline]
        simp only [Prod.map_fst, joinLines_cons _ (stripLines_ne_nil hrest _), hkept]
      · rw [joinLines_cons line hrest, lex_append_newline, lex_newline]
        exact hdepth

/-- Lines on which markers overlap. The first starts in a comment, and the third ends in two. -/
def overlapping : List (List Char) :=
  ["\x7b-\x7d-\x7d-\x7da-\x7b--\x7db\x7b-\x7d-\x7d".toList, "-\x7dc--\x7b-".toList, "d\x7b\x7b--\x7d\x7b-\x7b-e".toList]

theorem stripLines_overlapping :
    (∀ line ∈ overlapping, '\n' ∉ line) ∧
      joinLines (stripLines 1 overlapping).1 = "a- b \n-\x7dc\nd\x7b ".toList ∧
      (stripLines 1 overlapping).2 = 2 := by
  have hlines : ∀ line ∈ overlapping, '\n' ∉ line := by decide
  obtain ⟨hkept, hdepth, -⟩ := stripLines_eq_lex overlapping hlines 1
  refine ⟨hlines, hkept.trans ?_, hdepth.trans ?_⟩
  · decide
  · decide

end ElmSuite.Comment

import ElmSuite.Proofs.Header.WholeText

/-!
# The kept lines of a text

A text is cut at every line end, each line is stripped of its comments, and the
first line of what is kept may be continued to the left. In this form the lines
of a text follow from its characters one by one, so that a text can be read piece
by piece from its left end. A line end of two characters makes one empty line
more, which counts for nothing.
-/

namespace ElmSuite.Header

/-- The lines of a text, of which there is always one. -/
structure Lines where
  first : List Char
  rest : List (List Char)
  deriving DecidableEq

namespace Lines

/-- The lines from the first to the last. -/
def toList (l : Lines) : List (List Char) := l.first :: l.rest

/-- The lines with `text` before the first of them. -/
def prepend (text : List Char) (l : Lines) : Lines := ⟨text ++ l.first, l.rest⟩

/-- The lines below `n` empty ones. -/
def below : Nat → Lines → Lines
  | 0, l => l
  | n + 1, l => ⟨[], (below n l).toList⟩

/-- The lines of a text, which is cut at every line end. -/
def ofText : List Char → Lines
  | [] => ⟨[], []⟩
  | c :: rest =>
    if Text.isLineEnd c then below 1 (ofText rest) else (ofText rest).prepend [c]

@[simp] theorem prepend_nil (l : Lines) : l.prepend [] = l := rfl

@[simp] theorem prepend_prepend (s t : List Char) (l : Lines) :
    (l.prepend t).prepend s = l.prepend (s ++ t) := by
  simp [prepend]

@[simp] theorem first_prepend (s : List Char) (l : Lines) : (l.prepend s).first = s ++ l.first :=
  rfl

@[simp] theorem rest_prepend (s : List Char) (l : Lines) : (l.prepend s).rest = l.rest := rfl

@[simp] theorem below_below (m n : Nat) (l : Lines) : (l.below n).below m = l.below (m + n) := by
  induction m with
  | zero => rw [Nat.zero_add]; rfl
  | succ m ih => rw [Nat.succ_add, below, below, ih]

end Lines

/-- What is kept of lines, the first of which starts `depth` block comments deep. -/
def keepLines (depth : Int) : List (List Char) → List (List Char)
  | [] => []
  | line :: rest => (Comment.strip depth line).1 :: keepLines (Comment.strip depth line).2 rest

/-- What is kept of the lines of a text. `opened` tells whether the outermost open comment began on
the first line. -/
def keptLines (opened : Bool) (depth : Int) (text : List Char) : Lines :=
  let lines := Lines.ofText text
  let (kept, after) := Comment.stripFrom opened depth lines.first
  ⟨kept, keepLines after lines.rest⟩

/-- The lines that have content. -/
def withContent (lines : List (List Char)) : List (List Char) := lines.filter (!Text.allBlank ·)

/-! ## Lines with content -/

@[simp] theorem withContent_cons_of_blank {line : List Char} (h : Text.allBlank line = true)
    (rest : List (List Char)) : withContent (line :: rest) = withContent rest := by
  simp [withContent, h]

theorem withContent_cons_of_content {line : List Char} (h : Text.allBlank line = false)
    (rest : List (List Char)) : withContent (line :: rest) = line :: withContent rest := by
  simp [withContent, h]

theorem withContent_cons_congr {a b : List (List Char)} (h : withContent a = withContent b)
    (line : List Char) : withContent (line :: a) = withContent (line :: b) := by
  simp only [withContent, List.filter_cons] at h ⊢
  rw [h]

/-- Empty lines have no content. -/
theorem withContent_below (n : Nat) (l : Lines) :
    withContent (l.below n).toList = withContent l.toList := by
  induction n with
  | zero => rfl
  | succ n ih => rw [Lines.below, Lines.toList, withContent_cons_of_blank rfl, ih]

theorem contentLines_eq (depth : Int) (lines : List (List Char)) :
    contentLines depth lines = withContent (keepLines depth (lines.map Text.dropLineEnd)) := by
  induction lines generalizing depth with
  | nil => rfl
  | cons line rest ih =>
    simp only [contentLines, List.map_cons, keepLines, ih]
    cases h : Text.allBlank (Comment.strip depth (Text.dropLineEnd line)).1 with
    | true => rw [withContent_cons_of_blank h, if_pos rfl]
    | false => rw [withContent_cons_of_content h, if_neg Bool.false_ne_true]

/-! ## Cutting into lines -/

/-- A line of a text has no line end to drop. -/
theorem dropLineEnd_eq {line : List Char} (h : ∀ c ∈ line, Text.isLineEnd c = false) :
    Text.dropLineEnd line = line := by
  have hdrop : line.reverse.dropWhile (fun c => c == '\n' || c == '\r') = line.reverse := by
    cases hrev : line.reverse with
    | nil => rfl
    | cons c rest =>
      have hc := h c (by rw [← List.mem_reverse, hrev]; exact List.mem_cons_self ..)
      simp only [Text.isLineEnd, Bool.or_eq_false_iff] at hc
      rw [List.dropWhile_cons, hc.1.1.1.1.1.1.1.1.1, hc.1.1.1.1.1.1.1.1.2]
      rfl
  rw [Text.dropLineEnd, hdrop, List.reverse_reverse]

/-- A line of a text holds no line end. -/
theorem isLineEnd_of_mem_splitLinesFrom {line text : List Char}
    (hline : ∀ c ∈ line, Text.isLineEnd c = false) :
    ∀ l ∈ Text.splitLinesFrom line text, ∀ c ∈ l, Text.isLineEnd c = false := by
  fun_induction Text.splitLinesFrom line text with
  | case1 line => simp
  | case2 line => simpa using hline
  | case3 line rest ih | case4 line c rest _ _ ih =>
    exact List.forall_mem_cons.mpr ⟨by simpa using hline, ih (by simp)⟩
  | case5 line c rest _ hend ih =>
    exact ih (List.forall_mem_cons.mpr ⟨by simpa using hend, hline⟩)

theorem strip_nil (depth : Int) : Comment.strip depth [] = ([], depth) := rfl

theorem withContent_keepLines_nil (depth : Int) (rest : List (List Char)) :
    withContent (keepLines depth ([] :: rest)) = withContent (keepLines depth rest) := by
  rw [keepLines, strip_nil, withContent_cons_of_blank rfl]

/-- Cut at every line end or by the rules for lines held in memory, a text has the same lines with
content. `line` is what was read of the current line, backwards. -/
theorem withContent_splitLinesFrom (depth : Int) (line text : List Char)
    (h : ∀ c ∈ line, Text.isLineEnd c = false) :
    withContent (keepLines depth ((Text.splitLinesFrom line text).map Text.dropLineEnd)) =
      withContent (keepLines depth ((Lines.ofText text).prepend line.reverse).toList) := by
  have hline : ∀ {line : List Char}, (∀ c ∈ line, Text.isLineEnd c = false) →
      Text.dropLineEnd line.reverse = line.reverse := fun h =>
    dropLineEnd_eq fun c hc => h c (List.mem_reverse.mp hc)
  fun_induction Text.splitLinesFrom line text generalizing depth with
  | case1 line hempty =>
    rw [List.isEmpty_iff.mp hempty]
    rfl
  | case2 line hempty =>
    simp [hline h, Lines.ofText, Lines.prepend, Lines.toList]
  | case3 line rest ih =>
    have hends : Lines.ofText ('\r' :: '\n' :: rest) = (Lines.ofText rest).below 2 := by
      rw [Lines.ofText, Lines.ofText, if_pos (by decide), if_pos (by decide), Lines.below_below]
    rw [hends, List.map_cons, hline h]
    change withContent (keepLines depth (line.reverse :: _)) =
      withContent (keepLines depth ((line.reverse ++ []) :: [] :: (Lines.ofText rest).toList))
    have ih := ih (Comment.strip depth line.reverse).2 (by simp)
    rw [List.reverse_nil, Lines.prepend_nil] at ih
    rw [List.append_nil, keepLines, keepLines]
    exact withContent_cons_congr (by rw [withContent_keepLines_nil, ih]) _
  | case4 line c rest hcr hend ih =>
    rw [Lines.ofText, if_pos hend, List.map_cons, hline h]
    change withContent (keepLines depth (line.reverse :: _)) =
      withContent (keepLines depth ((line.reverse ++ []) :: (Lines.ofText rest).toList))
    have ih := ih (Comment.strip depth line.reverse).2 (by simp)
    rw [List.reverse_nil, Lines.prepend_nil] at ih
    rw [List.append_nil, keepLines, keepLines]
    exact withContent_cons_congr ih _
  | case5 line c rest hcr hend ih =>
    rw [Lines.ofText, if_neg hend, Lines.prepend_prepend, ih depth ?_, List.reverse_cons]
    intro d hd
    rcases List.mem_cons.mp hd with rfl | hd
    · exact Bool.not_eq_true _ ▸ hend
    · exact h d hd

/-- The lines with content of a text are those of what is kept of it. -/
theorem contentLines_splitLines (text : List Char) :
    contentLines 0 (Text.splitLines text) = withContent (keptLines false 0 text).toList := by
  rw [contentLines_eq, Text.splitLines, withContent_splitLinesFrom 0 [] text (by simp)]
  rfl

/-! ## Reading from the left -/

/-- A character that starts no comment and ends no line. -/
structure IsPlain (c : Char) : Prop where
  ne_dash : c ≠ '-'
  ne_brace : c ≠ '\x7b'
  not_end : Text.isLineEnd c = false

/-- Behind a line end a new line begins, at the depth of the old one. -/
theorem keptLines_lineEnd {c : Char} (h : Text.isLineEnd c = true) (opened : Bool) (depth : Int)
    (rest : List Char) :
    keptLines opened depth (c :: rest) = (keptLines false depth rest).below 1 := by
  rw [keptLines, Lines.ofText, if_pos h]
  rfl

/-- Outside comments a plain character is kept. -/
theorem keptLines_plain {c : Char} (h : IsPlain c) (opened : Bool) (rest : List Char) :
    keptLines opened 0 (c :: rest) = (keptLines opened 0 rest).prepend [c] := by
  rw [keptLines, Lines.ofText, if_neg (by simp [h.not_end])]
  cases hfirst : (Lines.ofText rest).first with
  | nil => simp [keptLines, hfirst, Comment.stripFrom, Lines.prepend]
  | cons d more =>
    simp [keptLines, hfirst, Comment.stripFrom, Lines.prepend, h.ne_dash, h.ne_brace]

theorem keptLines_plain_append {s : List Char} (h : ∀ c ∈ s, IsPlain c) (opened : Bool)
    (rest : List Char) :
    keptLines opened 0 (s ++ rest) = (keptLines opened 0 rest).prepend s := by
  induction s with
  | nil => rfl
  | cons c s ih =>
    rw [List.cons_append, keptLines_plain (h c (List.mem_cons_self ..)),
      ih fun d hd => h d (List.mem_cons_of_mem c hd)]
    rfl

end ElmSuite.Header

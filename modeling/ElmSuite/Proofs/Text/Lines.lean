/-!
# Texts made of lines

A text that is made of lines is cut into these lines at its line feeds, and so is
the front of a text whose front is made of lines.
-/

namespace ElmSuite.Text

/-- The text of some lines, each ended by a line feed. -/
def unlines (lines : List (List Char)) : List Char := lines.flatMap fun line => line ++ ['\n']

@[simp] theorem unlines_nil : unlines [] = [] := rfl

theorem unlines_cons (line : List Char) (lines : List (List Char)) :
    unlines (line :: lines) = line ++ '\n' :: unlines lines := by
  simp [unlines]

theorem unlines_append (a b : List (List Char)) : unlines (a ++ b) = unlines a ++ unlines b :=
  List.flatMap_append

/-- The lines that a text starts with are cut off. -/
theorem splitOn_unlines_append {lines : List (List Char)} (h : ∀ line ∈ lines, '\n' ∉ line)
    (rest : List Char) :
    (unlines lines ++ rest).splitOn '\n' = lines ++ rest.splitOn '\n' := by
  induction lines with
  | nil => rfl
  | cons line lines ih =>
    have hline := h line (List.mem_cons_self ..)
    have htail := ih fun l hl => h l (List.mem_cons_of_mem line hl)
    rw [unlines_cons, List.append_assoc, List.cons_append,
      List.splitOn_append_cons_self_of_not_mem hline, htail, List.cons_append]

/-- Where the first line of a text ends is seen from the text. -/
theorem line_append_inj {a b s t : List Char} (ha : '\n' ∉ a) (hb : '\n' ∉ b)
    (h : a ++ '\n' :: s = b ++ '\n' :: t) : a = b ∧ s = t := by
  induction a generalizing b with
  | nil =>
    cases b with
    | nil => simpa using h
    | cons c b =>
      simp only [List.nil_append, List.cons_append, List.cons.injEq] at h
      exact absurd (h.1 ▸ List.mem_cons_self ..) hb
  | cons c a ih =>
    cases b with
    | nil =>
      simp only [List.nil_append, List.cons_append, List.cons.injEq] at h
      exact absurd (h.1 ▸ List.mem_cons_self ..) ha
    | cons d b =>
      rw [List.mem_cons, not_or] at ha hb
      simp only [List.cons_append, List.cons.injEq] at h
      obtain ⟨rfl, hs⟩ := ih ha.2 hb.2 h.2
      exact ⟨by rw [h.1], hs⟩

/-! ## Lines up to a mark -/

section Mark

variable {mark : List Char} {front : List (List Char)}

theorem ne_mark (h : mark ∉ front) : ∀ line ∈ front, decide (line ≠ mark) = true := by
  intro line hline
  rw [decide_eq_true_eq]
  rintro rfl
  exact h hline

/-- The lines up to a mark that does not occur before are those in front of it. -/
theorem takeWhile_ne_append (h : mark ∉ front) (rest : List (List Char)) :
    (front ++ mark :: rest).takeWhile (· ≠ mark) = front := by
  rw [List.takeWhile_append_of_pos (ne_mark h)]
  simp

theorem dropWhile_ne_append (h : mark ∉ front) (rest : List (List Char)) :
    (front ++ mark :: rest).dropWhile (· ≠ mark) = mark :: rest := by
  rw [List.dropWhile_append_of_pos (ne_mark h)]
  simp

end Mark

/-! ## Items of a list -/

/-- Items with one text before the first of them and another before the others. -/
def bulleted (first other : List Char) : List (List Char) → List (List Char)
  | [] => []
  | item :: items => (first ++ item) :: items.map (other ++ ·)

theorem bulleted_nil_nil (items : List (List Char)) : bulleted [] [] items = items := by
  cases items with
  | nil => rfl
  | cons item items => simp [bulleted]

theorem mem_bulleted {first other : List Char} {items : List (List Char)} {line : List Char}
    (h : line ∈ bulleted first other items) :
    ∃ item ∈ items, line = first ++ item ∨ line = other ++ item := by
  cases items with
  | nil => cases h
  | cons item items =>
    rcases List.mem_cons.mp h with rfl | h
    · exact ⟨item, List.mem_cons_self .., .inl rfl⟩
    · obtain ⟨other, hother, rfl⟩ := List.mem_map.mp h
      exact ⟨other, List.mem_cons_of_mem item hother, .inr rfl⟩

/-- Items that are joined by line feeds stand on lines of their own. -/
theorem bullets_eq_unlines (first other : List Char) {items : List (List Char)} (hne : items ≠ [])
    (rest : List Char) :
    first ++ (('\n' :: other).intercalate items ++ '\n' :: rest) =
      unlines (bulleted first other items) ++ rest := by
  obtain ⟨item, items, rfl⟩ := List.exists_cons_of_ne_nil hne
  clear hne
  induction items generalizing first item with
  | nil => simp [bulleted, unlines_cons]
  | cons next items ih =>
    have htail := ih other next
    rw [bulleted, unlines_cons] at htail ⊢
    rw [List.intercalate_cons_cons, List.map_cons, unlines_cons]
    simp only [List.append_assoc, List.cons_append] at htail ⊢
    rw [htail]

end ElmSuite.Text

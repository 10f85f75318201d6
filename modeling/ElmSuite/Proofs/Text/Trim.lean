import ElmSuite.Text.Blank

/-!
# Trimming

Trimming takes away the blank characters at the ends of a text and nothing else.
-/

namespace ElmSuite.Text

/-- Blank characters before a character that is not blank are what trimming takes away. -/
theorem trimLeft_append {blanks text : List Char} (hblank : ∀ c ∈ blanks, isBlank c = true)
    (htext : ∀ c ∈ text.head?, isBlank c = false) : trimLeft (blanks ++ text) = text := by
  rw [trimLeft, List.dropWhile_append_of_pos hblank]
  cases text with
  | nil => rfl
  | cons c rest => rw [List.dropWhile_cons_of_neg (by simp [htext c rfl])]

theorem trimRight_eq (text : List Char) : trimRight text = (trimLeft text.reverse).reverse := rfl

theorem trimRight_append {text blanks : List Char} (htext : ∀ c ∈ text.getLast?, isBlank c = false)
    (hblank : ∀ c ∈ blanks, isBlank c = true) : trimRight (text ++ blanks) = text := by
  have hleft : trimLeft (blanks.reverse ++ text.reverse) = text.reverse :=
    trimLeft_append (fun c hc => hblank c (List.mem_reverse.mp hc))
      (fun c hc => htext c (by rwa [List.head?_reverse] at hc))
  rw [trimRight_eq, List.reverse_append, hleft, List.reverse_reverse]

/-- A text without blank characters at its ends. -/
structure Trimmed (text : List Char) : Prop where
  start : ∀ c ∈ text.head?, isBlank c = false
  stop : ∀ c ∈ text.getLast?, isBlank c = false

/-- A trimmed text that is padded with blank characters is trimmed to what it was. -/
theorem Trimmed.trim_padded {text before after : List Char} (h : Trimmed text) (hne : text ≠ [])
    (hbefore : ∀ c ∈ before, isBlank c = true) (hafter : ∀ c ∈ after, isBlank c = true) :
    trim (before ++ (text ++ after)) = text := by
  obtain ⟨c, rest, rfl⟩ := List.exists_cons_of_ne_nil hne
  rw [trim, trimLeft_append hbefore, trimRight_append h.stop hafter]
  intro d hd
  exact h.start d (by simpa using hd)

theorem Trimmed.trim_eq {text : List Char} (h : Trimmed text) : trim text = text := by
  by_cases hne : text = []
  · rw [hne, trim_nil]
  · simpa using h.trim_padded hne (List.forall_mem_nil _) (List.forall_mem_nil _)

/-- So is a text without any blank characters. -/
theorem trim_padded {text before after : List Char} (hbefore : ∀ c ∈ before, isBlank c = true)
    (hafter : ∀ c ∈ after, isBlank c = true) (hne : text ≠ [])
    (htext : ∀ c ∈ text, isBlank c = false) : trim (before ++ (text ++ after)) = text := by
  have htrimmed : Trimmed text :=
    ⟨fun c hc => htext c (List.mem_of_head? hc), fun c hc => htext c (List.mem_of_getLast? hc)⟩
  exact htrimmed.trim_padded hne hbefore hafter

theorem head?_trimLeft (text : List Char) : ∀ c ∈ (trimLeft text).head?, isBlank c = false := by
  intro c hc
  have hnot := List.head?_dropWhile_not isBlank text
  rwa [← trimLeft, Option.mem_def.mp hc] at hnot

theorem exists_trimLeft (text : List Char) :
    ∃ before, (∀ c ∈ before, isBlank c = true) ∧ text = before ++ trimLeft text :=
  ⟨text.takeWhile isBlank, fun c hc => List.all_eq_true.mp List.all_takeWhile c hc,
    List.takeWhile_append_dropWhile.symm⟩

theorem exists_trimRight (text : List Char) :
    ∃ after, (∀ c ∈ after, isBlank c = true) ∧ text = trimRight text ++ after := by
  obtain ⟨before, hbefore, htext⟩ := exists_trimLeft text.reverse
  refine ⟨before.reverse, fun c hc => hbefore c (List.mem_reverse.mp hc), ?_⟩
  rw [trimRight_eq, ← List.reverse_append, ← htext, List.reverse_reverse]

/-- What is trimmed off is blank. -/
theorem exists_trim (text : List Char) :
    ∃ before after, (∀ c ∈ before, isBlank c = true) ∧ (∀ c ∈ after, isBlank c = true) ∧
      text = before ++ (trim text ++ after) := by
  obtain ⟨before, hbefore, hleft⟩ := exists_trimLeft text
  obtain ⟨after, hafter, hright⟩ := exists_trimRight (trimLeft text)
  exact ⟨before, after, hbefore, hafter, by rw [trim, ← hright, ← hleft]⟩

/-- Trimming leaves no blank characters at the ends. -/
theorem trimmed_trim (text : List Char) : Trimmed (trim text) := by
  obtain ⟨after, -, htext⟩ := exists_trimRight (trimLeft text)
  constructor
  · intro c hc
    refine head?_trimLeft text c ?_
    rw [trim] at hc
    rw [htext, List.head?_append, Option.mem_def.mp hc]
    rfl
  · intro c hc
    rw [trim, trimRight_eq, List.getLast?_reverse] at hc
    exact head?_trimLeft _ c hc

theorem mem_trimLeft {text : List Char} {c : Char} (hc : c ∈ text) (hblank : isBlank c = false) :
    c ∈ trimLeft text := by
  rw [← @List.takeWhile_append_dropWhile _ isBlank text] at hc
  rcases List.mem_append.mp hc with hfront | hrest
  · have hpad : isBlank c = true := List.all_eq_true.mp List.all_takeWhile c hfront
    rw [hblank] at hpad
    exact absurd hpad Bool.false_ne_true
  · exact hrest

/-- No character is taken away that is not blank. -/
theorem mem_trim {text : List Char} {c : Char} (hc : c ∈ text) (hblank : isBlank c = false) :
    c ∈ trim text := by
  have hleft := mem_trimLeft hc hblank
  rw [trim, trimRight_eq, List.mem_reverse]
  exact mem_trimLeft (List.mem_reverse.mpr hleft) hblank

end ElmSuite.Text

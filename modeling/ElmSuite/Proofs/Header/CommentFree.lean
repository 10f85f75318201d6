import ElmSuite.Proofs.Header.CommentLexer

/-!
# Texts without comments

A text in which no comment begins is left as it is when comments are dropped. What is
kept of a line is such a text: where a comment is taken out between two kept
characters a space comes in, so that they make no new marker.
-/

namespace ElmSuite.Comment

/-- A text that holds no marker with which a comment begins. -/
structure Unmarked (s : List Char) : Prop where
  noLineComment : ¬ ['-', '-'] <:+: s
  noBlockComment : ¬ ['\x7b', '-'] <:+: s

/-! ## Markers in a text -/

section Unmarked

variable {c : Char} {s : List Char}

theorem unmarked_nil : Unmarked [] := ⟨by simp, by simp⟩

theorem unmarked_cons_iff :
    Unmarked (c :: s) ↔ ¬ ['-', '-'] <+: c :: s ∧ ¬ ['\x7b', '-'] <+: c :: s ∧ Unmarked s := by
  constructor
  · intro h
    refine ⟨fun hs => h.noLineComment hs.isInfix, fun hs => h.noBlockComment hs.isInfix, ?_, ?_⟩
    · exact fun hs => h.noLineComment (hs.trans (List.suffix_cons c s).isInfix)
    · exact fun hs => h.noBlockComment (hs.trans (List.suffix_cons c s).isInfix)
  · rintro ⟨hline, hblock, h⟩
    constructor
    · rw [List.infix_cons_iff]
      exact not_or_intro hline h.noLineComment
    · rw [List.infix_cons_iff]
      exact not_or_intro hblock h.noBlockComment

theorem Unmarked.of_part {t : List Char} (h : Unmarked s) (ht : t <:+: s) : Unmarked t :=
  ⟨fun hline => h.noLineComment (hline.trans ht), fun hblock => h.noBlockComment (hblock.trans ht)⟩

/-- Texts that are parted by a character of no marker make no new marker. -/
theorem Unmarked.append_cons {t : List Char} (hs : Unmarked s) (ht : Unmarked t) (hdash : c ≠ '-')
    (hbrace : c ≠ '\x7b') : Unmarked (s ++ c :: t) := by
  induction s with
  | nil => exact unmarked_cons_iff.mpr ⟨by simp [hdash.symm], by simp [hbrace.symm], ht⟩
  | cons d s ih =>
    obtain ⟨hline, hopen, hs⟩ := unmarked_cons_iff.mp hs
    rw [List.cons_append]
    exact unmarked_cons_iff.mpr ⟨not_startsMarker_append hdash.symm t hline,
      not_startsMarker_append hdash.symm t hopen, ih hs⟩

theorem unmarked_of_not_mem (h : '-' ∉ s) : Unmarked s :=
  ⟨fun hline => h (hline.subset (by simp)), fun hblock => h (hblock.subset (by simp))⟩

/-- A text without markers is left as it is. -/
theorem strip_of_unmarked (h : Unmarked s) : strip 0 s = (s, 0) := by
  induction s with
  | nil => rfl
  | cons c s ih =>
    obtain ⟨hline, hopen, hs⟩ := unmarked_cons_iff.mp h
    have ih := ih hs
    rw [strip] at ih ⊢
    rw [stripFrom_outside hline hopen, ih]
    rfl

end Unmarked

/-! ## What is kept of a line -/

/-- Inside a comment that began on this line, the first character to be kept is the space for it. -/
theorem head?_stripFrom_inside {opened : Bool} {depth : Int} {line : List Char}
    (hopened : opened = true) (hdepth : 0 < depth) :
    ∀ c ∈ (stripFrom opened depth line).1.head?, c = ' ' := by
  have hne : depth ≠ 0 := by omega
  fun_induction stripFrom opened depth line with
  | case1 | case3 => simp
  | case2 opened depth c => simp [hne]
  | case4 opened depth c d rest _ _ ih => exact ih (by simp [hopened]) (by omega) (by omega)
  | case5 opened depth c d rest _ _ _ closes kept after hrest ih =>
    rw [hrest] at ih
    by_cases hone : depth = 1
    · simp [closes, hopened, hone]
    · simpa [closes, hopened, hone] using ih (by simp [closes, hone, hopened]) (by omega) (by omega)
  | case6 opened depth c d rest _ _ _ kept after hrest ih =>
    simpa [hne, hrest] using ih hopened hdepth hne

/-- Outside comments, the first character to be kept is the first one there is, or a space. -/
theorem head?_stripFrom_outside (opened : Bool) (line : List Char) :
    ∀ c ∈ (stripFrom opened 0 line).1.head?, c = ' ' ∨ c ∈ line.head? := by
  intro e he
  cases line with
  | nil => simp [stripFrom] at he
  | cons c rest =>
    by_cases hline : ['-', '-'] <+: c :: rest
    · obtain ⟨more, hmore⟩ := hline
      simp [← hmore, stripFrom] at he
    · by_cases hopen : ['\x7b', '-'] <+: c :: rest
      · obtain ⟨more, hmore⟩ := hopen
        rw [← hmore, List.cons_append, List.cons_append, stripFrom_open] at he
        exact .inl (head?_stripFrom_inside rfl (by omega) e he)
      · rw [stripFrom_outside hline hopen] at he
        exact .inr he

/-- What is kept of a line holds no marker. -/
theorem unmarked_stripFrom (opened : Bool) (depth : Int) (line : List Char) :
    Unmarked (stripFrom opened depth line).1 := by
  fun_induction stripFrom opened depth line with
  | case1 | case3 => exact unmarked_nil
  | case2 opened depth c =>
    split
    · exact unmarked_cons_iff.mpr ⟨by simp, by simp, unmarked_nil⟩
    · exact unmarked_nil
  | case4 opened depth c d rest _ _ ih => exact ih
  | case5 opened depth c d rest _ _ _ closes kept after hrest ih =>
    rw [hrest] at ih
    split
    · exact unmarked_cons_iff.mpr ⟨by simp, by simp, ih⟩
    · exact ih
  | case6 opened depth c d rest hline hopen _ kept after hrest ih =>
    rw [hrest] at ih
    split
    · next hdepth =>
      subst hdepth
      have hhead := head?_stripFrom_outside opened (d :: rest)
      rw [hrest] at hhead
      -- A dash behind `c` would be the character that stood there in the line.
      have hdash : '-' ∈ kept.head? → d = '-' := fun h => by simpa [eq_comm] using hhead '-' h
      refine unmarked_cons_iff.mpr ⟨?_, ?_, ih⟩
      · rw [startsMarker_iff]
        exact fun h => hline ⟨rfl, h.1, hdash h.2⟩
      · rw [startsMarker_iff]
        exact fun h => hopen ⟨h.1, hdash h.2⟩
    · exact ih

/-- Nothing is kept but characters of the line, and spaces for comments. -/
theorem mem_stripFrom {opened : Bool} {depth : Int} {line : List Char} {e : Char}
    (h : e ∈ (stripFrom opened depth line).1) : e = ' ' ∨ e ∈ line := by
  fun_induction stripFrom opened depth line with
  | case1 | case3 => cases h
  | case2 opened depth c =>
    split at h
    · exact .inr h
    · cases h
  | case4 opened depth c d rest _ _ ih =>
    exact (ih h).imp id fun hrest => List.mem_cons_of_mem c (List.mem_cons_of_mem d hrest)
  | case5 opened depth c d rest _ _ _ closes kept after hrest ih =>
    rw [hrest] at ih
    have hkept : e = ' ' ∨ e ∈ kept := by
      split at h
      · exact List.mem_cons.mp h
      · exact .inr h
    refine hkept.elim .inl fun hkept => (ih hkept).imp id fun hmem => ?_
    exact List.mem_cons_of_mem c (List.mem_cons_of_mem d hmem)
  | case6 opened depth c d rest _ _ _ kept after hrest ih =>
    rw [hrest] at ih
    have hkept : e = c ∨ e ∈ kept := by
      split at h
      · exact List.mem_cons.mp h
      · exact .inr h
    rcases hkept with rfl | hkept
    · exact .inr (List.mem_cons_self ..)
    · exact (ih hkept).imp id (List.mem_cons_of_mem c)

/-- **Dropping comments twice is dropping them once.** Wherever a line starts and ends, within comments
or not, no comment begins in what is kept of it. -/
theorem strip_strip (depth : Int) (line : List Char) :
    Unmarked (strip depth line).1 ∧ strip 0 (strip depth line).1 = ((strip depth line).1, 0) := by
  have h := unmarked_stripFrom false depth line
  exact ⟨h, strip_of_unmarked h⟩

end ElmSuite.Comment

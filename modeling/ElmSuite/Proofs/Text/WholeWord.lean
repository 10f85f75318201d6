import ElmSuite.Text.Word

/-!
# Whole words in a text

A word stands in a text as a whole word when no word character stands next to
either of its ends. The search from the left finds the first such place, and
finds one whenever there is one. A character that is no part of a word and not
in the word that is searched for parts a text: the search may stop there and go
on behind it.
-/

namespace ElmSuite.Text

/-- `word` stands between `before` and `after` as a whole word. `preceded` tells whether a word
character stands just before the text. -/
structure WholeWordAt (preceded : Bool) (word text before after : List Char) : Prop where
  text_eq : text = before ++ word ++ after
  start : (before.getLast?.map isWordChar).getD preceded = false
  stop : ∀ c ∈ after.head?, isWordChar c = false

/-- The first place of a whole word. -/
structure FirstWholeWord (preceded : Bool) (word text before after : List Char) : Prop
    extends WholeWordAt preceded word text before after where
  first : ∀ before' after', WholeWordAt preceded word text before' after' →
    before.length ≤ before'.length

/-- Whether `word` stands as a whole word right at the start of `text`, as the search decides it. -/
def standsAtStart (preceded : Bool) (word text : List Char) : Bool :=
  !preceded && word.isPrefixOf text && !((text.drop word.length).head?.any isWordChar)

variable {preceded : Bool} {word text before after : List Char}

/-! ## One character on -/

theorem afterWord?_cons {c : Char} {rest : List Char} :
    afterWord? word preceded (c :: rest) =
      if standsAtStart preceded word (c :: rest) then some ((c :: rest).drop word.length)
      else afterWord? word (isWordChar c) rest := by
  rw [afterWord?]
  rfl

theorem wholeWordAt_nil :
    WholeWordAt preceded word text [] after ↔
      standsAtStart preceded word text = true ∧ after = text.drop word.length := by
  simp only [standsAtStart, Bool.and_eq_true, Bool.not_eq_true', Option.any_eq_false,
    List.isPrefixOf_iff_prefix]
  constructor
  · rintro ⟨rfl, hs, he⟩
    simp only [List.nil_append, List.drop_left, List.prefix_append, and_true]
    exact ⟨hs, fun c hc => by simp [he c hc]⟩
  · rintro ⟨⟨⟨hs, more, rfl⟩, he⟩, rfl⟩
    rw [List.drop_left] at he ⊢
    exact ⟨by simp, hs, fun c hc => by simpa using he c hc⟩

/-- A place behind the first character is a place in what follows it. -/
theorem wholeWordAt_cons {c d : Char} :
    WholeWordAt preceded word (c :: text) (d :: before) after ↔
      c = d ∧ WholeWordAt (isWordChar c) word text before after := by
  have hstart : ∀ p : Bool, (((d :: before).getLast?).map isWordChar).getD p =
      (before.getLast?.map isWordChar).getD (isWordChar d) := by
    intro p
    rw [List.getLast?_cons]
    cases before.getLast? <;> rfl
  constructor
  · rintro ⟨heq, hs, he⟩
    obtain ⟨rfl, htext⟩ := List.cons.inj heq
    exact ⟨rfl, htext, by rwa [hstart] at hs, he⟩
  · rintro ⟨rfl, htext, hs, he⟩
    exact ⟨by rw [htext]; rfl, by rwa [hstart], he⟩

/-! ## The search -/

/-- The search stops at the first whole word, and fails only where there is none. -/
theorem afterWord?_spec (preceded : Bool) (text : List Char) (hword : word ≠ []) :
    match afterWord? word preceded text with
    | some after => ∃ before, FirstWholeWord preceded word text before after
    | none => ∀ before after, ¬ WholeWordAt preceded word text before after := by
  induction text generalizing preceded with
  | nil =>
    rintro before after ⟨heq, -, -⟩
    have hlen := congrArg List.length heq
    simp only [List.length_nil, List.length_append] at hlen
    exact hword (List.eq_nil_of_length_eq_zero (by omega))
  | cons c rest ih =>
    rw [afterWord?_cons]
    by_cases hhere : standsAtStart preceded word (c :: rest) = true
    · rw [if_pos hhere]
      exact ⟨[], wholeWordAt_nil.mpr ⟨hhere, rfl⟩, fun _ _ _ => Nat.zero_le _⟩
    · rw [if_neg hhere]
      have hlater : ∀ before after, WholeWordAt preceded word (c :: rest) before after →
          ∃ more, before = c :: more ∧ WholeWordAt (isWordChar c) word rest more after := by
        intro before after h
        cases before with
        | nil => exact absurd (wholeWordAt_nil.mp h).1 hhere
        | cons d more =>
          obtain ⟨rfl, hrest⟩ := wholeWordAt_cons.mp h
          exact ⟨more, rfl, hrest⟩
      have ih := ih (isWordChar c)
      revert ih
      cases afterWord? word (isWordChar c) rest with
      | none =>
        intro ih before after h
        obtain ⟨more, -, h⟩ := hlater before after h
        exact ih more after h
      | some after =>
        rintro ⟨before, hw, hfirst⟩
        refine ⟨c :: before, wholeWordAt_cons.mpr ⟨rfl, hw⟩, fun before' after' h => ?_⟩
        obtain ⟨more, rfl, hrest⟩ := hlater before' after' h
        exact Nat.succ_le_succ (hfirst more after' hrest)

/-- The first whole word ends where the search says. -/
theorem FirstWholeWord.afterWord?_eq (h : FirstWholeWord preceded word text before after)
    (hword : word ≠ []) : afterWord? word preceded text = some after := by
  have hspec := afterWord?_spec preceded text hword
  revert hspec
  cases afterWord? word preceded text with
  | none => intro hnone; exact absurd h.toWholeWordAt (hnone before after)
  | some found =>
    rintro ⟨before', hw, hfirst⟩
    have hlen : before.length = before'.length := by
      have h₁ := h.first before' found hw
      have h₂ := hfirst before after h.toWholeWordAt
      omega
    have heq : before ++ word ++ after = before' ++ word ++ found := h.text_eq ▸ hw.text_eq
    rw [(List.append_inj heq (by simp [hlen])).2]

/-- A character that the word does not begin with is passed over. -/
theorem afterWord?_cons_of_ne {c d : Char} {more rest : List Char} (h : c ≠ d) :
    afterWord? (d :: more) preceded (c :: rest) = afterWord? (d :: more) (isWordChar c) rest := by
  rw [afterWord?_cons, if_neg]
  simp [standsAtStart, Ne.symm h]

/-- So is a character inside a word. -/
theorem afterWord?_cons_of_preceded {c : Char} {rest : List Char} :
    afterWord? word true (c :: rest) = afterWord? word (isWordChar c) rest := by
  rw [afterWord?_cons, if_neg]
  simp [standsAtStart]

/-- A whole word at the start of a text is found. -/
theorem afterWord?_append_self (hword : word ≠ [])
    (hafter : ∀ c ∈ after.head?, isWordChar c = false) :
    afterWord? word false (word ++ after) = some after := by
  have hhere : WholeWordAt false word (word ++ after) [] after := ⟨rfl, rfl, hafter⟩
  obtain ⟨hstart, hdrop⟩ := wholeWordAt_nil.mp hhere
  obtain ⟨c, more, rfl⟩ := List.exists_cons_of_ne_nil hword
  rw [List.cons_append, afterWord?_cons, ← List.cons_append, if_pos hstart, ← hdrop]

/-- The search fails where there is no whole word. -/
theorem afterWord?_eq_none (hword : word ≠ [])
    (h : ∀ before after, ¬ WholeWordAt preceded word text before after) :
    afterWord? word preceded text = none := by
  have hspec := afterWord?_spec preceded text hword
  revert hspec
  cases afterWord? word preceded text with
  | none => intro _; rfl
  | some found =>
    rintro ⟨before, hw⟩
    exact absurd hw.toWholeWordAt (h before found)

/-! ## Parting a text -/

/-- A word without the character `c` is not cut by one. -/
theorem isPrefixOf_append_cons {c : Char} (hc : c ∉ word) (text more : List Char) :
    word.isPrefixOf (text ++ c :: more) = word.isPrefixOf text := by
  rw [Bool.eq_iff_iff, List.isPrefixOf_iff_prefix, List.isPrefixOf_iff_prefix]
  constructor
  · intro h
    rcases List.prefix_or_prefix_of_prefix h (List.prefix_append text (c :: more)) with h' | h'
    · exact h'
    · obtain ⟨q, rfl⟩ := h'
      rcases List.prefix_cons_iff.mp ((List.prefix_append_right_inj text).mp h) with rfl | ⟨t, rfl, -⟩
      · simp
      · simp at hc
  · intro h
    exact h.trans (List.prefix_append _ _)

/-- What stands at the start of a text stands there whatever follows the character that parts it. -/
theorem standsAtStart_append_cons {c : Char} (hc : c ∉ word) (hblank : isWordChar c = false)
    (text more : List Char) :
    standsAtStart preceded word (text ++ c :: more) = standsAtStart preceded word text := by
  unfold standsAtStart
  rw [isPrefixOf_append_cons hc]
  by_cases hpre : word.isPrefixOf text = true
  · have hlen := (List.isPrefixOf_iff_prefix.mp hpre).length_le
    rw [List.drop_append_of_le_length hlen]
    cases text.drop word.length <;> simp [hblank]
  · rw [Bool.not_eq_true] at hpre
    simp [hpre]

theorem length_le_of_standsAtStart (h : standsAtStart preceded word text = true) :
    word.length ≤ text.length := by
  simp only [standsAtStart, Bool.and_eq_true, List.isPrefixOf_iff_prefix] at h
  exact h.1.2.length_le

/-- A word that is found is found whatever follows the character that parts the text. -/
theorem afterWord?_append_of_some {c : Char} (hc : c ∉ word) (hblank : isWordChar c = false)
    (h : afterWord? word preceded text = some after) (more : List Char) :
    afterWord? word preceded (text ++ c :: more) = some (after ++ c :: more) := by
  induction text generalizing preceded with
  | nil => simp [afterWord?] at h
  | cons d rest ih =>
    rw [List.cons_append, afterWord?_cons, ← List.cons_append, standsAtStart_append_cons hc hblank]
    rw [afterWord?_cons] at h
    by_cases hhere : standsAtStart preceded word (d :: rest) = true
    · rw [if_pos hhere] at h ⊢
      rw [List.drop_append_of_le_length (length_le_of_standsAtStart hhere), Option.some.inj h]
    · rw [if_neg hhere] at h ⊢
      exact ih h

/-- A word that is not found in front is looked for behind the character that parts the text. -/
theorem afterWord?_append_of_none {c : Char} (hword : word ≠ []) (hc : c ∉ word)
    (hblank : isWordChar c = false) (h : afterWord? word preceded text = none) (more : List Char) :
    afterWord? word preceded (text ++ c :: more) = afterWord? word false more := by
  induction text generalizing preceded with
  | nil =>
    have hnot : standsAtStart preceded word ([] ++ c :: more) = false := by
      rw [standsAtStart_append_cons hc hblank]
      cases word with
      | nil => exact absurd rfl hword
      | cons => simp [standsAtStart]
    rw [List.nil_append] at hnot ⊢
    rw [afterWord?_cons, hnot, hblank]
    rfl
  | cons d rest ih =>
    rw [List.cons_append, afterWord?_cons, ← List.cons_append, standsAtStart_append_cons hc hblank]
    rw [afterWord?_cons] at h
    by_cases hhere : standsAtStart preceded word (d :: rest) = true
    · rw [if_pos hhere] at h
      exact absurd h (by simp)
    · rw [if_neg hhere] at h ⊢
      exact ih h

end ElmSuite.Text

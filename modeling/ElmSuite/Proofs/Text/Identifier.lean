import ElmSuite.ModuleTable
import ElmSuite.Text.Line
import ElmSuite.Text.Word

/-!
# Identifiers

Identifiers of ASCII letters, digits and underscores, and the names that
capitalised ones make when they are joined by dots. Where such a character stands
in the code chart decides what the classes of blank characters, of word characters
and of line ends say of it.
-/

namespace ElmSuite

/-- An identifier whose first character is an upper case letter. -/
def IsUpperIdentifier (s : List Char) : Prop :=
  ∃ c rest, s = c :: rest ∧ c.isUpper = true ∧ ∀ d ∈ rest, isIdentifierChar d = true

/-- An identifier whose first character is a lower case letter. -/
def IsLowerIdentifier (s : List Char) : Prop :=
  ∃ c rest, s = c :: rest ∧ c.isLower = true ∧ ∀ d ∈ rest, isIdentifierChar d = true

/-- Capitalised identifiers joined by dots. -/
def IsDottedName (s : List Char) : Prop :=
  ∃ segments : List (List Char), segments ≠ [] ∧ (∀ t ∈ segments, IsUpperIdentifier t) ∧
    s = ['.'].intercalate segments

/-! ## Places in the code chart -/

theorem isUpper_iff {c : Char} : c.isUpper = true ↔ 65 ≤ c.toNat ∧ c.toNat ≤ 90 := by
  have hupper : c.isUpper = decide (c.val ≥ 65 ∧ c.val ≤ 90) := rfl
  simp [hupper, UInt32.le_iff_toNat_le, ← Char.toNat_val]

theorem isLower_iff {c : Char} : c.isLower = true ↔ 97 ≤ c.toNat ∧ c.toNat ≤ 122 := by
  have hlower : c.isLower = (decide (c.val ≥ 97) && decide (c.val ≤ 122)) := rfl
  simp [hlower, UInt32.le_iff_toNat_le, ← Char.toNat_val]

theorem isDigit_iff {c : Char} : c.isDigit = true ↔ 48 ≤ c.toNat ∧ c.toNat ≤ 57 := by
  have hdigit : c.isDigit = (decide (c.val ≥ 48) && decide (c.val ≤ 57)) := rfl
  simp [hdigit, UInt32.le_iff_toNat_le, ← Char.toNat_val]

theorem isAlpha_eq {c : Char} : c.isAlpha = (c.isUpper || c.isLower) := rfl

theorem eq_iff_toNat_eq {c d : Char} : c = d ↔ c.toNat = d.toNat :=
  ⟨fun h => h ▸ rfl, fun h => Char.toNat_inj.mp h⟩

theorem isIdentifierChar_iff {c : Char} :
    isIdentifierChar c = true ↔
      (48 ≤ c.toNat ∧ c.toNat ≤ 57) ∨ (65 ≤ c.toNat ∧ c.toNat ≤ 90) ∨ c.toNat = 95 ∨
        (97 ≤ c.toNat ∧ c.toNat ≤ 122) := by
  have hline : c = '_' ↔ c.toNat = 95 := eq_iff_toNat_eq
  simp only [isIdentifierChar, isAlpha_eq, Bool.or_eq_true, beq_iff_eq, isUpper_iff, isLower_iff,
    isDigit_iff, hline]
  omega

theorem isIdentifierChar_of_isUpper {c : Char} (h : c.isUpper = true) :
    isIdentifierChar c = true := by
  simp [isIdentifierChar, isAlpha_eq, h]

theorem isIdentifierChar_of_isLower {c : Char} (h : c.isLower = true) :
    isIdentifierChar c = true := by
  simp [isIdentifierChar, isAlpha_eq, h]

namespace Text

/-- Visible characters of ASCII are not blank. -/
theorem isBlank_of_ascii {c : Char} (hlo : 33 ≤ c.toNat) (hhi : c.toNat ≤ 126) :
    isBlank c = false := by
  rw [Bool.eq_false_iff]
  intro h
  simp only [isBlank, inRanges, blankRanges, List.any_cons, List.any_nil, Bool.or_eq_true,
    Bool.and_eq_true, decide_eq_true_eq, Bool.false_eq_true, or_false] at h
  omega

/-- Line ends are blank. -/
theorem isBlank_of_isLineEnd {c : Char} (h : isLineEnd c = true) : isBlank c = true := by
  simp only [isLineEnd, Bool.or_eq_true, beq_iff_eq] at h
  rcases h with ((((((((rfl | rfl) | rfl) | rfl) | rfl) | rfl) | rfl) | rfl) | rfl) | rfl <;> decide

theorem isLineEnd_of_ascii {c : Char} (hlo : 33 ≤ c.toNat) (hhi : c.toNat ≤ 126) :
    isLineEnd c = false := by
  rw [Bool.eq_false_iff]
  intro h
  have hblank := isBlank_of_isLineEnd h
  rw [isBlank_of_ascii hlo hhi] at hblank
  exact Bool.false_ne_true hblank

theorem isWordChar_of_isIdentifierChar {c : Char} (h : isIdentifierChar c = true) :
    isWordChar c = true := by
  have hdigit : (0x30, 0x39) ∈ wordRanges := .head _
  have hupper : (0x41, 0x5A) ∈ wordRanges := .tail _ (.head _)
  have hline : (0x5F, 0x5F) ∈ wordRanges := .tail _ (.tail _ (.head _))
  have hlower : (0x61, 0x7A) ∈ wordRanges := .tail _ (.tail _ (.tail _ (.head _)))
  have hrange : ∀ {lo hi : Nat}, (lo, hi) ∈ wordRanges → lo ≤ c.toNat → c.toNat ≤ hi →
      isWordChar c = true := fun hmem hlo hhi =>
    List.any_eq_true.mpr ⟨_, hmem, by simp [hlo, hhi]⟩
  rcases isIdentifierChar_iff.mp h with h | h | h | h
  · exact hrange hdigit h.1 h.2
  · exact hrange hupper h.1 h.2
  · exact hrange hline (by omega) (by omega)
  · exact hrange hlower h.1 h.2

/-- Whether two ranges have no code point in common. -/
def apart (r s : Nat × Nat) : Bool := Nat.blt r.2 s.1 || Nat.blt s.2 r.1

theorem blankRanges_apart_wordRanges : (blankRanges.all fun r => wordRanges.all (apart r)) = true := by
  decide +kernel

/-- No blank character is part of a word. -/
theorem isWordChar_of_isBlank {c : Char} (h : isBlank c = true) : isWordChar c = false := by
  rw [Bool.eq_false_iff]
  intro hword
  obtain ⟨r, hr, hrc⟩ := List.any_eq_true.mp h
  obtain ⟨s, hs, hsc⟩ := List.any_eq_true.mp hword
  have hapart := List.all_eq_true.mp (List.all_eq_true.mp blankRanges_apart_wordRanges r hr) s hs
  simp only [apart, Bool.or_eq_true, Nat.blt_eq, Bool.and_eq_true, decide_eq_true_eq] at hapart hrc hsc
  omega

end Text

/-! ## Identifiers and names -/

theorem IsUpperIdentifier.all {s : List Char} (h : IsUpperIdentifier s) :
    ∀ c ∈ s, isIdentifierChar c = true := by
  obtain ⟨c, rest, rfl, hc, hrest⟩ := h
  exact List.forall_mem_cons.mpr ⟨isIdentifierChar_of_isUpper hc, hrest⟩

theorem IsLowerIdentifier.all {s : List Char} (h : IsLowerIdentifier s) :
    ∀ c ∈ s, isIdentifierChar c = true := by
  obtain ⟨c, rest, rfl, hc, hrest⟩ := h
  exact List.forall_mem_cons.mpr ⟨isIdentifierChar_of_isLower hc, hrest⟩

theorem IsUpperIdentifier.ne_nil {s : List Char} (h : IsUpperIdentifier s) : s ≠ [] := by
  obtain ⟨c, rest, rfl, -, -⟩ := h
  simp

theorem IsLowerIdentifier.ne_nil {s : List Char} (h : IsLowerIdentifier s) : s ≠ [] := by
  obtain ⟨c, rest, rfl, -, -⟩ := h
  simp

theorem IsDottedName.all {name : List Char} (h : IsDottedName name) :
    ∀ c ∈ name, isIdentifierChar c = true ∨ c = '.' := by
  obtain ⟨segments, hne, hsegments, rfl⟩ := h
  clear hne
  induction segments with
  | nil => simp
  | cons s segments ih =>
    have hs := (hsegments s (List.mem_cons_self ..)).all
    have htail := ih fun t ht => hsegments t (List.mem_cons_of_mem s ht)
    cases segments with
    | nil =>
      rw [List.intercalate_singleton]
      exact fun c hc => .inl (hs c hc)
    | cons t segments =>
      intro c hc
      rw [List.intercalate_cons_cons] at hc
      simp only [List.mem_append, List.mem_singleton] at hc
      rcases hc with (hc | rfl) | hc
      · exact .inl (hs c hc)
      · exact .inr rfl
      · exact htail c hc

theorem IsDottedName.ne_nil {name : List Char} (h : IsDottedName name) : name ≠ [] := by
  obtain ⟨segments, hne, hsegments, rfl⟩ := h
  obtain ⟨s, more, rfl⟩ := List.exists_cons_of_ne_nil hne
  have hs := (hsegments s (List.mem_cons_self ..)).ne_nil
  cases more with
  | nil => rwa [List.intercalate_singleton]
  | cons t more => simp [List.intercalate_cons_cons]

end ElmSuite

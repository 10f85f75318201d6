import ElmSuite.Text.CodePoints

/-!
# Texts and their code points

The code points of a string are characters, and code points that are characters make
one string. These are the texts that can be encoded. Strings are ordered as their code
points are.
-/

namespace ElmSuite.CodePoints

/-! ## Code points of strings -/

@[simp] theorem ofChars_nil : ofChars [] = [] := rfl

theorem ofChars_cons (c : Char) (chars : List Char) :
    ofChars (c :: chars) = c.toNat :: ofChars chars := rfl

theorem ofChars_append (a b : List Char) : ofChars (a ++ b) = ofChars a ++ ofChars b :=
  List.map_append

theorem toNat_injective : Function.Injective Char.toNat :=
  fun _ _ h => Char.ext (UInt32.toNat_inj.mp h)

theorem ofChars_inj {a b : List Char} : ofChars a = ofChars b ↔ a = b :=
  List.map_inj_right fun _ _ h => toNat_injective h

theorem ofString_inj {a b : String} : ofString a = ofString b ↔ a = b :=
  ofChars_inj.trans String.toList_inj

theorem isText_ofChars (chars : List Char) : IsText (ofChars chars) := by
  intro n hn
  obtain ⟨c, -, rfl⟩ := List.mem_map.mp hn
  exact c.valid

theorem isText_ofString (s : String) : (ofString s).IsText := isText_ofChars s.toList

theorem map_ofNat_ofChars (chars : List Char) : (ofChars chars).map Char.ofNat = chars := by
  rw [ofChars, List.map_map]
  exact List.map_id'' Char.ofNat_toNat chars

/-- Code points that are characters are those of these characters. -/
theorem ofChars_map_ofNat {codes : CodePoints} (h : codes.IsText) :
    ofChars (codes.map Char.ofNat) = codes := by
  rw [ofChars, List.map_map]
  refine (List.map_congr_left fun n hn => ?_).trans (List.map_id codes)
  rw [Function.comp_apply, Char.ofNat, dif_pos (h n hn)]
  rfl

theorem isText_nil : IsText [] := fun _ h => absurd h List.not_mem_nil

theorem isText_cons (c : Char) {codes : CodePoints} :
    IsText (c.toNat :: codes) ↔ IsText codes :=
  List.forall_mem_cons.trans (and_iff_right c.valid)

theorem isText_append {a b : CodePoints} : IsText (a ++ b) ↔ IsText a ∧ IsText b :=
  List.forall_mem_append

theorem ofString_ofList {codes : CodePoints} (h : codes.IsText) :
    ofString (String.ofList (codes.map Char.ofNat)) = codes := by
  rw [ofString, String.toList_ofList, ofChars_map_ofNat h]

theorem isText_iff_exists {codes : CodePoints} : codes.IsText ↔ ∃ s, codes = ofString s := by
  constructor
  · intro h
    exact ⟨_, (ofString_ofList h).symm⟩
  · rintro ⟨s, rfl⟩
    exact isText_ofString s

theorem text?_eq_some_iff {codes : CodePoints} {s : String} :
    codes.text? = some s ↔ codes = ofString s := by
  rw [text?]
  constructor
  · intro h
    split at h
    · next htext =>
      rw [← Option.some.inj h, ofString_ofList htext]
    · cases h
  · rintro rfl
    rw [if_pos (isText_ofString s), ofString, map_ofNat_ofChars, String.ofList_toList]

@[simp] theorem text?_ofString (s : String) : (ofString s).text? = some s :=
  text?_eq_some_iff.mpr rfl

/-! ## Encoding -/

theorem flawFrom_eq_none_iff {escaped : Nat → Bool} {position : Nat} {codes : CodePoints} :
    flawFrom escaped position codes = none ↔ ∀ n ∈ codes, n.isValidChar ∨ escaped n = true := by
  induction codes generalizing position with
  | nil => simp [flawFrom]
  | cons n rest ih =>
    rw [flawFrom, List.forall_mem_cons]
    split
    · next h => rw [ih, and_iff_right h]
    · next h => simp [h]

/-- A text is encoded exactly if no surrogate stands alone in it. -/
theorem encode_eq_ok_iff {position : Nat} {codes : CodePoints} {s : String} :
    encode position codes = .ok s ↔ codes = ofString s := by
  rw [encode]
  constructor
  · intro h
    split at h
    · cases h
    · next hnone =>
      have htext : codes.IsText := fun n hn =>
        (flawFrom_eq_none_iff.mp hnone n hn).resolve_right Bool.false_ne_true
      rw [← Except.ok.inj h, ofString_ofList htext]
  · rintro rfl
    have hnone : flawFrom (fun _ => false) position (ofString s) = none :=
      flawFrom_eq_none_iff.mpr fun n hn => .inl (isText_ofString s n hn)
    rw [hnone, ofString, map_ofNat_ofChars, String.ofList_toList]

theorem exists_encode_eq_error_iff {position : Nat} {codes : CodePoints} :
    (∃ flaw, encode position codes = .error flaw) ↔ ¬codes.IsText := by
  rw [isText_iff_exists]
  cases h : encode position codes with
  | ok s =>
    rw [encode_eq_ok_iff.mp h]
    simp only [reduceCtorEq, exists_false, false_iff, Classical.not_not]
    exact ⟨s, rfl⟩
  | error flaw =>
    simp only [Except.error.injEq, exists_eq', true_iff, not_exists]
    rintro s rfl
    rw [encode_eq_ok_iff.mpr rfl] at h
    cases h

/-! ## Order -/

/-- Texts are ordered as their code points are. -/
theorem compare_ofChars (a b : List Char) :
    compare (ofChars a) (ofChars b) = compareOfLessAndEq a b := by
  induction a generalizing b with
  | nil => cases b <;> rfl
  | cons c a ih =>
    cases b with
    | nil => rfl
    | cons d b =>
      rw [ofChars_cons, ofChars_cons, List.compare_cons_cons, ih, Nat.compare_eq_ite_lt]
      have hlt : ∀ x y : Char, x < y ↔ x.toNat < y.toNat := fun x y => UInt32.lt_iff_toNat_lt
      unfold compareOfLessAndEq
      simp only [List.cons_lt_cons_iff, List.cons.injEq, hlt]
      by_cases hcd : c = d
      · subst hcd
        simp
      · have hne : c.toNat ≠ d.toNat := toNat_injective.ne hcd
        rcases Nat.lt_or_gt_of_ne hne with h | h
        · simp [h]
        · simp [h, Nat.lt_asymm h, hcd]

theorem compare_ofString (a b : String) : compare (ofString a) (ofString b) = compare a b := by
  rw [ofString, ofString, compare_ofChars]
  change _ = compareOfLessAndEq a b
  unfold compareOfLessAndEq
  simp only [String.lt_iff, String.toList_inj]

end ElmSuite.CodePoints

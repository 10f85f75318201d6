import ElmSuite.Proofs.Json.Rereading

/-!
# How far reading JSON goes

Reading takes a text from its start: what remains is an end of the text, and where it fails is
a place in the text. An integer is refused for its length only where the text holds that many
digits in a row.
-/

namespace ElmSuite.JsonReader

/-- A text that holds `n` digits in a row, which are more than an integer may have. -/
def HoldsLong (text : List Char) (n : Nat) : Prop :=
  ∃ ds, ds <:+: text ∧ Digits ds ∧ ds.length = n ∧ maxDigits < n

/-- A fault that lies in a text. -/
def FaultIn (text : List Char) : JsonFault → Prop
  | .malformed _ remaining => remaining ≤ text.length
  | .tooManyDigits n => HoldsLong text n

/-- What is read from a text leaves an end of it, or fails in it. -/
def Within {α : Type} (text : List Char) : Reads α → Prop
  | .ok (_, rest) => rest <:+ text
  | .error fault => FaultIn text fault

variable {α β : Type} {text rest whole : List Char} {read : Reads α}

theorem FaultIn.mono {fault : JsonFault} (h : FaultIn text fault) (htext : text <:+ whole) :
    FaultIn whole fault := by
  cases fault with
  | malformed mistake remaining => exact Nat.le_trans h htext.length_le
  | tooManyDigits n =>
    obtain ⟨ds, hds, hdigits⟩ := h
    exact ⟨ds, hds.trans htext.isInfix, hdigits⟩

theorem Within.mono (h : Within text read) (htext : text <:+ whole) : Within whole read := by
  cases read with
  | error fault => exact FaultIn.mono h htext
  | ok result => exact List.IsSuffix.trans h htext

theorem within_fault (mistake : JsonMistake) (h : rest <:+ text) :
    Within text (fault mistake rest : Reads α) :=
  h.length_le

/-- What is made of the result does not matter. -/
theorem Within.map (h : Within text read) {f : α × List Char → β × List Char}
    (hf : ∀ p, (f p).2 = p.2) : Within text (read.map f) := by
  cases read with
  | error fault => exact h
  | ok result =>
    change (f result).2 <:+ text
    rw [hf]
    exact h

theorem skipSpace_suffix (text : List Char) : skipSpace text <:+ text :=
  List.dropWhile_suffix _

/-- What stands behind the first character that is not blank. -/
theorem suffix_of_skipSpace {c : Char} (h : skipSpace text = c :: rest) : rest <:+ text := by
  have hskip := skipSpace_suffix text
  rw [h] at hskip
  exact (List.suffix_cons c rest).trans hskip

/-! ## Numbers -/

theorem append_of_wholeDigits? {ds : List Char} (h : wholeDigits? text = some (ds, rest)) :
    text = ds ++ rest := by
  unfold wholeDigits? at h
  split at h
  · obtain ⟨rfl, rfl⟩ := Prod.mk.inj (Option.some.inj h)
    rfl
  · split at h
    · obtain ⟨rfl, rfl⟩ := Prod.mk.inj (Option.some.inj h)
      exact List.takeWhile_append_dropWhile.symm
    · cases h
  · cases h

theorem fractionDigits_suffix (text : List Char) : (fractionDigits text).2 <:+ text := by
  unfold fractionDigits
  split
  · next rest =>
    split
    · exact List.suffix_refl _
    · exact (List.dropWhile_suffix _).trans (List.suffix_cons '.' rest)
  · exact List.suffix_refl _

theorem exponent?_suffix (text : List Char) : (exponent? text).2 <:+ text := by
  cases text with
  | nil => exact List.suffix_refl _
  | cons c rest =>
    have hdigits : ∀ (unsigned : List Char) (e : Int), unsigned <:+ rest →
        (if (digits unsigned).1.isEmpty then (none, c :: rest)
          else (some e, (digits unsigned).2)).2 <:+ c :: rest := by
      intro unsigned e h
      split
      · exact List.suffix_refl _
      · exact ((List.dropWhile_suffix _).trans h).trans (List.suffix_cons c rest)
    simp only [exponent?]
    split
    · split
      · exact hdigits _ _ (List.suffix_cons _ _)
      · exact hdigits _ _ (List.suffix_cons _ _)
      · exact hdigits _ _ (List.suffix_refl _)
    · exact List.suffix_refl _

theorem within_unsignedNumber (negative : Bool) (h : text <:+ whole) :
    Within whole (unsignedNumber negative whole text) := by
  unfold unsignedNumber
  split
  · exact within_fault _ (List.suffix_refl whole)
  · next ds rest hwhole =>
    have happend := append_of_wholeDigits? hwhole
    have hrest : rest <:+ whole := (happend ▸ List.suffix_append ds rest).trans h
    have hleft := ((exponent?_suffix _).trans (fractionDigits_suffix rest)).trans hrest
    dsimp only
    split
    · split
      · next hlong =>
        have hds : ds <:+: whole := (happend ▸ List.prefix_append ds rest).isInfix.trans h.isInfix
        exact ⟨ds, hds, (digits_of_wholeDigits? hwhole).1, rfl, hlong⟩
      · exact hleft
    · exact hleft

theorem within_scalar (text : List Char) : Within text (scalar text) := by
  rw [scalar.eq_def]
  split
  · exact List.drop_suffix _ _
  · split
    · exact within_unsignedNumber true (List.suffix_cons '-' _)
    · exact within_unsignedNumber false (List.suffix_refl text)

/-! ## Strings -/

theorem suffix_of_hexQuad? {n : Nat} (h : hexQuad? text = some (n, rest)) : rest <:+ text := by
  unfold hexQuad? at h
  split at h
  · next a b c d next rest' =>
    simp only [Option.bind_eq_bind, Option.bind_eq_some_iff, Option.pure_def, Option.some.injEq,
      Prod.mk.injEq] at h
    obtain ⟨-, -, -, -, -, -, -, -, -, rfl⟩ := h
    exact List.suffix_append [a, b, c, d] _
  · cases h

theorem within_unicodeEscape (text : List Char) : Within ('u' :: text) (unicodeEscape text) := by
  rw [unicodeEscape]
  split
  · exact Nat.le_refl _
  · next high after hquad =>
    have hafter : after <:+ 'u' :: text :=
      (suffix_of_hexQuad? hquad).trans (List.suffix_cons 'u' text)
    split
    · next more =>
      have hmore : 'u' :: more <:+ 'u' :: text := (List.suffix_cons '\\' _).trans hafter
      split
      · split
        · exact hmore.length_le
        · next low beyond hlow =>
          split
          · exact ((suffix_of_hexQuad? hlow).trans (List.suffix_cons 'u' more)).trans hmore
          · exact hafter
      · exact hafter
    · exact hafter

theorem within_stringBody {start fuel : Nat} {codes : CodePoints} (hstart : start ≤ whole.length)
    (h : text <:+ whole) : Within whole (stringBody start fuel codes text) := by
  fun_induction stringBody start fuel codes text with
  | case1 | case2 | case4 => exact hstart
  | case3 fuel codes rest => exact (List.suffix_cons _ _).trans h
  | case5 fuel codes more fault hescape =>
    have hwithin := within_unicodeEscape more
    rw [hescape] at hwithin
    exact FaultIn.mono hwithin ((List.suffix_cons '\\' _).trans h)
  | case6 fuel codes more code after hescape ih =>
    have hwithin := within_unicodeEscape more
    rw [hescape] at hwithin
    exact ih (hwithin.trans ((List.suffix_cons '\\' _).trans h))
  | case7 fuel codes c more => exact h.length_le
  | case8 fuel codes c more hu code hsimple ih =>
    exact ih (((List.suffix_cons c more).trans (List.suffix_cons '\\' _)).trans h)
  | case9 fuel codes c rest => exact h.length_le
  | case10 fuel codes c rest hquote hslash hcontrol ih => exact ih ((List.suffix_cons c rest).trans h)

theorem within_string (text : List Char) : Within ('"' :: text) (string text) :=
  within_stringBody (Nat.le_refl _) (List.suffix_cons '"' text)

/-! ## Values -/

/-- What is read with some fuel stays within the text. -/
structure ReadsWithin (fuel : Nat) : Prop where
  value : ∀ text, Within text (value fuel text)
  items : ∀ text, Within text (items fuel text)
  fields : ∀ before text, Within text (fields fuel before text)

theorem readsWithin_succ {fuel : Nat} (ih : ReadsWithin fuel) : ReadsWithin (fuel + 1) where
  value text := by
    rw [value.eq_def]
    dsimp only
    split
    · exact (within_string _).map fun _ => rfl
    · next rest =>
      have hrest : skipSpace rest <:+ '[' :: rest :=
        (skipSpace_suffix rest).trans (List.suffix_cons '[' rest)
      split
      · next after heq =>
        rw [heq] at hrest
        exact (List.suffix_cons ']' after).trans hrest
      · exact ((ih.items _).mono hrest).map fun _ => rfl
    · next rest =>
      have hrest : skipSpace rest <:+ '\x7b' :: rest :=
        (skipSpace_suffix rest).trans (List.suffix_cons '\x7b' rest)
      split
      · next after heq =>
        rw [heq] at hrest
        exact (List.suffix_cons '\x7d' after).trans hrest
      · exact ((ih.fields [] _).mono hrest).map fun _ => rfl
    · exact within_scalar text
  items text := by
    rw [items.eq_def]
    dsimp only
    have hvalue := ih.value text
    split
    · next fault heq =>
      rw [heq] at hvalue
      exact hvalue
    · next x rest heq =>
      rw [heq] at hvalue
      split
      · next after hskip => exact (suffix_of_skipSpace hskip).trans hvalue
      · next more hskip =>
        have hmore := (suffix_of_skipSpace hskip).trans hvalue
        exact ((ih.items _).mono ((skipSpace_suffix more).trans hmore)).map fun _ => rfl
      · exact within_fault _ ((skipSpace_suffix rest).trans hvalue)
  fields before text := by
    rw [fields.eq_def]
    dsimp only
    split
    · next keyText =>
      have hkey := within_string keyText
      split
      · next fault heq =>
        rw [heq] at hkey
        exact hkey
      · next key rest heq =>
        rw [heq] at hkey
        split
        · next valueText hskip =>
          have htext : skipSpace valueText <:+ '"' :: keyText :=
            (skipSpace_suffix valueText).trans ((suffix_of_skipSpace hskip).trans hkey)
          have hvalue := (ih.value (skipSpace valueText)).mono htext
          split
          · next fault heq =>
            rw [heq] at hvalue
            exact hvalue
          · next x rest heq =>
            rw [heq] at hvalue
            split
            · next after hskip => exact (suffix_of_skipSpace hskip).trans hvalue
            · next more hskip =>
              have hmore := (suffix_of_skipSpace hskip).trans hvalue
              exact (ih.fields _ _).mono ((skipSpace_suffix more).trans hmore)
            · exact within_fault _ ((skipSpace_suffix rest).trans hvalue)
        · exact within_fault _ ((skipSpace_suffix rest).trans hkey)
    · exact within_fault _ (List.suffix_refl text)

theorem readsWithin (fuel : Nat) : ReadsWithin fuel := by
  induction fuel with
  | zero =>
    refine ⟨fun text => ?_, fun text => ?_, fun before text => ?_⟩
    · exact within_fault _ (List.suffix_refl text)
    · exact within_fault _ (List.suffix_refl text)
    · exact within_fault _ (List.suffix_refl text)
  | succ fuel ih => exact readsWithin_succ ih

/-- **A text that cannot be read fails at a place in it**, or holds too many digits in a row. -/
theorem faultIn_of_document {fault : JsonFault} (h : document text = .error fault) :
    FaultIn text fault := by
  rw [document] at h
  split at h
  · obtain rfl := Except.error.inj h
    exact Nat.le_refl _
  · have hvalue := ((readsWithin (2 * text.length + 2)).value (skipSpace text)).mono
      (skipSpace_suffix text)
    split at h
    · next fault' heq =>
      obtain rfl := Except.error.inj h
      rw [heq] at hvalue
      exact hvalue
    · next x rest heq =>
      rw [heq] at hvalue
      split at h
      · cases h
      · obtain rfl := Except.error.inj h
        exact ((skipSpace_suffix rest).trans hvalue).length_le

/-! ## Texts without a value -/

/-- Whether a value can begin with a character. -/
def beginsValue (c : Char) : Bool := c ∈ ['"', '[', '\x7b'] || JsonPrinter.beginsScalar c

theorem scalar_of_stray {c : Char} (h : JsonPrinter.beginsScalar c = false) (text : List Char) :
    scalar (c :: text) = fault .value (c :: text) := by
  have hne : ∀ d : Char, JsonPrinter.beginsScalar d = true → d ≠ c := fun _ hd => ne_of_test hd h
  have hdigit : c.isDigit = false := by
    rw [JsonPrinter.beginsScalar, Bool.or_eq_false_iff] at h
    exact h.2
  have hwords : ∀ w ∈ words, ¬w.1.toList.isPrefixOf (c :: text) = true := by
    simp [words, hne 'n' rfl, hne 't' rfl, hne 'f' rfl, hne 'N' rfl, hne 'I' rfl, hne '-' rfl]
  have hwhole : wholeDigits? (c :: text) = none := by
    rw [wholeDigits?]
    · simp [hdigit]
    · exact (hne '0' rfl).symm
  rw [scalar, List.find?_eq_none.mpr hwords]
  · rw [unsignedNumber, hwhole]
  · exact fun rest heq => hne '-' rfl (List.cons.inj heq).1.symm

/-- A text in which nothing begins a value is no JSON. -/
theorem document_of_stray (h : ∀ c ∈ text, beginsValue c = false) :
    ∃ mistake remaining, document text = .error (.malformed mistake remaining) := by
  have hvalue (fuel : Nat) : ∃ mistake remaining,
      value (fuel + 1) (skipSpace text) = .error (.malformed mistake remaining) := by
    cases hskip : skipSpace text with
    | nil => exact ⟨.value, 0, rfl⟩
    | cons c rest =>
      have hc : beginsValue c = false :=
        h c ((skipSpace_suffix text).subset (by simp [hskip]))
      obtain ⟨hbracket, hscalar⟩ := Bool.or_eq_false_iff.mp hc
      simp only [List.mem_cons, List.not_mem_nil, or_false, decide_eq_false_iff_not, not_or]
        at hbracket
      obtain ⟨hquote, harray, hobject⟩ := hbracket
      refine ⟨.value, (c :: rest).length, ?_⟩
      rw [value, scalar_of_stray hscalar]
      · rfl
      · exact fun rest heq => hquote (List.cons.inj heq).1
      · exact fun rest heq => harray (List.cons.inj heq).1
      · exact fun rest heq => hobject (List.cons.inj heq).1
  rw [document]
  split
  · exact ⟨_, _, rfl⟩
  · obtain ⟨mistake, remaining, heq⟩ := hvalue (2 * text.length + 1)
    rw [heq]
    exact ⟨mistake, remaining, rfl⟩

/-! ## Integers that are too long -/

theorem scalar_of_long {ds : List Char} (h : IsWhole ds) (hlong : maxDigits < ds.length)
    (hrest : PastNumber rest) : scalar (ds ++ rest) = .error (.tooManyDigits ds.length) := by
  have hdot : ∀ c ∈ rest.head?, c ≠ '.' := fun c hc => (hrest c hc).2.1
  obtain ⟨c, more, hds, hc⟩ := h.exists_digit
  have hscalar : scalar (ds ++ rest) = unsignedNumber false (ds ++ rest) (ds ++ rest) := by
    rw [hds, List.cons_append]
    exact (scalar_of_digit hc _).1
  rw [hscalar, unsignedNumber, wholeDigits?_append h hrest.noDigit]
  simp only [fractionDigits_of_head hdot, exponent?_of_pastNumber hrest, List.isEmpty_nil,
    Option.isNone_none, Bool.and_self, if_true, hlong]

/-- An integer with too many digits is refused, although it is what JSON allows. -/
theorem document_of_longItem {ds : List Char} (h : IsWhole ds) (hlong : maxDigits < ds.length) :
    document ('[' :: (ds ++ [']'])) = .error (.tooManyDigits ds.length) := by
  have hscalar := scalar_of_long h hlong (pastNumber_cons [] (by decide) : PastNumber [']'])
  obtain ⟨c, more, hds, hc⟩ := h.exists_digit
  have hbegins : JsonPrinter.beginsScalar c = true := by simp [JsonPrinter.beginsScalar, hc]
  obtain ⟨hspace, hclose⟩ := JsonPrinter.outside_of_beginsScalar hbegins
  have hskip : skipSpace (ds ++ [']']) = ds ++ [']'] := by
    rw [hds]
    exact skipSpace_cons hspace _
  have hitem (fuel : Nat) : value (fuel + 1) (ds ++ [']']) = .error (.tooManyDigits ds.length) := by
    rw [← hscalar, hds]
    exact value_of_beginsScalar hbegins fuel _
  have harray (fuel : Nat) : value (fuel + 3) ('[' :: (ds ++ [']'])) =
      .error (.tooManyDigits ds.length) := by
    rw [value]
    split
    · next after heq =>
      rw [hskip, hds] at heq
      exact absurd (List.cons.inj heq).1 hclose
    · simp only [hskip, items, hitem]
      rfl
  have hfuel : 2 * ('[' :: (ds ++ [']'])).length + 2 = 2 * (ds ++ [']']).length + 1 + 3 := by
    simp only [List.length_cons]
    omega
  rw [document, if_neg (by simp), skipSpace_cons (by decide), hfuel, harray]

end ElmSuite.JsonReader

import ElmSuite.Proofs.Json.Rereading
import ElmSuite.Proofs.Text.Ascii

/-!
# The text of JSON that was written

The text of a value is in ASCII and has no carriage return, so that a file that holds it
is decoded to the text itself.
-/

namespace ElmSuite.JsonPrinter

open JsonReader

/-- A text that a file gives back as it was written: in ASCII, without carriage returns. -/
def Kept (text : List Char) : Prop := ∀ c ∈ text, c.toNat < 0x80 ∧ c ≠ '\r'

-- Given by name: characters are finitely many, so that going through all of them is an instance too.
instance (text : List Char) : Decidable (Kept text) := List.decidableBAll _ text

theorem kept_nil : Kept [] := by simp [Kept]

theorem Kept.cons {c : Char} {text : List Char} (hc : c.toNat < 0x80 ∧ c ≠ '\r') (h : Kept text) :
    Kept (c :: text) :=
  List.forall_mem_cons.mpr ⟨hc, h⟩

theorem Kept.append {a b : List Char} (ha : Kept a) (hb : Kept b) : Kept (a ++ b) :=
  fun c hc => (List.mem_append.mp hc).elim (ha c) (hb c)

theorem Kept.snoc {c : Char} {text : List Char} (h : Kept text) (hc : c.toNat < 0x80 ∧ c ≠ '\r') :
    Kept (text ++ [c]) :=
  h.append (kept_nil.cons hc)

theorem kept_digits {ds : List Char} (h : Digits ds) : Kept ds := by
  intro c hc
  obtain ⟨hlow, hhigh⟩ := Char.isDigit_iff_toNat.mp (h c hc)
  have : '0'.toNat = 48 := rfl
  have : '9'.toNat = 57 := rfl
  refine ⟨by omega, ?_⟩
  rintro rfl
  have : '\r'.toNat = 13 := rfl
  omega

theorem kept_whole {ds : List Char} (h : IsWhole ds) : Kept ds := by
  cases h with
  | zero => exact kept_digits (digits_replicate 1)
  | digits hc h => exact kept_digits h

theorem kept_exponent {sign : Char} {ds : List Char} (hsign : sign = '-' ∨ sign = '+')
    (h : Digits ds) : Kept ('e' :: sign :: ds) := by
  refine .cons (by decide) (.cons ?_ (kept_digits h))
  rcases hsign with rfl | rfl <;> decide

theorem kept_decimal {text : List Char} (h : IsDecimal text) : Kept text := by
  cases h with
  | positional hwhole hfraction =>
    exact (kept_whole hwhole).append ((kept_digits hfraction).cons (by decide))
  | markedWhole hwhole hsign hexponent =>
    exact (kept_whole hwhole).append (kept_exponent hsign hexponent)
  | marked hwhole hfraction _ hsign hexponent =>
    exact ((kept_whole hwhole).append ((kept_digits hfraction).cons (by decide))).append
      (kept_exponent hsign hexponent)

theorem kept_integer (n : Int) : Kept (toString n).toList := by
  cases n with
  | ofNat k => exact toList_ofNat k ▸ kept_digits (digits_toDigits k)
  | negSucc k => exact toList_negSucc k ▸ (kept_digits (digits_toDigits (k + 1))).cons (by decide)

theorem kept_double (x : Double) : Kept (x.text doubleLayout) := by
  cases x with
  | notANumber => decide
  | infinite negative => cases negative <;> decide
  | finite negative significand exponent =>
    obtain ⟨text, hdecimal, htext⟩ := text_finite negative significand exponent
    rw [htext]
    refine .append ?_ (kept_decimal hdecimal)
    cases negative with
    | false => exact kept_nil
    | true => exact kept_nil.cons (by decide)

theorem kept_unitEscape (n : Nat) : Kept (unitEscape n) := by
  have hall : ∀ d < 16, (Nat.digitChar d).toNat < 0x80 ∧ Nat.digitChar d ≠ '\r' := by decide
  have hdigit (n : Nat) : (hexDigit n).toNat < 0x80 ∧ hexDigit n ≠ '\r' :=
    hall _ (Nat.mod_lt n (by decide))
  exact .cons (by decide) (.cons (by decide) (.cons (hdigit _) (.cons (hdigit _) (.cons (hdigit _)
    (kept_nil.cons (hdigit _))))))

theorem kept_codePoint (n : Nat) : Kept (codePoint n) := by
  have hspelling := spelling_codePoint n
  generalize codePoint n = text at hspelling ⊢
  cases hspelling with
  | simple h =>
    unfold simpleEscape? at h
    split at h
    iterate 8 decide
    cases h
  | plain hc _ _ hlow hhigh =>
    subst hc
    refine kept_nil.cons ⟨by omega, ?_⟩
    rintro rfl
    exact absurd hlow (by decide)
  | single => exact kept_unitEscape n
  | pair => exact (kept_unitEscape _).append (kept_unitEscape _)

theorem kept_string (codes : CodePoints) : Kept (string codes) := by
  refine .cons (by decide) (.snoc (fun c hc => ?_) (by decide))
  obtain ⟨n, -, hn⟩ := List.mem_flatMap.mp hc
  exact kept_codePoint n c hn

theorem kept_newLine (level : Nat) : Kept (newLine level) := by
  refine .cons (by decide) fun c hc => ?_
  obtain rfl := List.eq_of_mem_replicate hc
  decide

theorem kept_items {level : Nat} {xs : List JsonValue} (h : ∀ x ∈ xs, Kept (value level x)) :
    Kept (items level xs) := by
  induction xs with
  | nil => exact kept_nil
  | cons x xs ih =>
    rw [items_cons]
    exact .cons (by decide) (((kept_newLine level).append (h x (List.mem_cons_self ..))).append
      (ih fun y hy => h y (List.mem_cons_of_mem x hy)))

theorem kept_key (key : CodePoints) : Kept (string key ++ [':', ' ']) :=
  (kept_string key).append (.cons (by decide) (kept_nil.cons (by decide)))

theorem kept_fields {level : Nat} {fs : List (CodePoints × JsonValue)}
    (h : ∀ f ∈ fs, Kept (value level f.2)) : Kept (fields level fs) := by
  induction fs with
  | nil => exact kept_nil
  | cons f fs ih =>
    rw [fields_cons, List.append_assoc (newLine level)]
    exact .cons (by decide) ((((kept_newLine level).append (kept_key f.1)).append
      (h f (List.mem_cons_self ..))).append (ih fun g hg => h g (List.mem_cons_of_mem f hg)))

theorem kept_value (v : JsonValue) (level : Nat) : Kept (value level v) := by
  induction v using JsonValue.induction generalizing level with
  | null =>
    rw [value_null]
    decide
  | bool b =>
    rw [value_bool]
    cases b <;> decide
  | integer n =>
    rw [value_integer]
    exact kept_integer n
  | double x =>
    rw [value_double]
    exact kept_double x
  | string s =>
    rw [value_string]
    exact kept_string s
  | array xs ih =>
    cases xs with
    | nil =>
      rw [value_emptyArray]
      exact .cons (by decide) (kept_nil.cons (by decide))
    | cons x xs =>
      rw [value_array]
      refine .cons (by decide) (.snoc ?_ (by decide))
      exact (((kept_newLine _).append (ih x (List.mem_cons_self ..) _)).append
        (kept_items fun y hy => ih y (List.mem_cons_of_mem x hy) _)).append (kept_newLine _)
  | object fs ih =>
    cases fs with
    | nil =>
      rw [value_emptyObject]
      exact .cons (by decide) (kept_nil.cons (by decide))
    | cons f fs =>
      rw [value_object, List.append_assoc (newLine (level + 1))]
      refine .cons (by decide) (.snoc ?_ (by decide))
      exact ((((kept_newLine _).append (kept_key f.1)).append (ih f (List.mem_cons_self ..) _)).append
        (kept_fields fun g hg => ih g (List.mem_cons_of_mem f hg) _)).append (kept_newLine _)

theorem kept_document (v : JsonValue) : Kept (document v ++ "\n").toList := by
  rw [String.toList_append, document, String.toList_ofList]
  exact (kept_value v 0).snoc (by decide)

end ElmSuite.JsonPrinter

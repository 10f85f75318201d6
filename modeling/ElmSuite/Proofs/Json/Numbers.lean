import Mathlib.Tactic.SplitIfs
import ElmSuite.Json.Printer
import ElmSuite.Json.Reader

/-!
# JSON numbers as they are written and read

An integer is read as it was written. The text of a double is always read as a double.
-/

namespace ElmSuite

/-- Characters that a test tells apart differ. -/
theorem ne_of_test {p : Char → Bool} {c d : Char} (hc : p c = true) (hd : p d = false) : c ≠ d := by
  rintro rfl
  rw [hc] at hd
  cases hd

/-! ## Decimal digits -/

/-- All characters are decimal digits. -/
def Digits (ds : List Char) : Prop := ∀ c ∈ ds, c.isDigit = true

theorem digits_toDigits (n : Nat) : Digits (Nat.toDigits 10 n) :=
  fun _ hc => Nat.isDigit_of_mem_toDigits (by decide) (by decide) hc

theorem digits_replicate (n : Nat) : Digits (List.replicate n '0') := by
  intro c hc
  obtain rfl := List.eq_of_mem_replicate hc
  rfl

theorem Digits.append {a b : List Char} (ha : Digits a) (hb : Digits b) : Digits (a ++ b) :=
  fun c hc => (List.mem_append.mp hc).elim (ha c) (hb c)

theorem Digits.of_subset {a b : List Char} (hb : Digits b) (h : a ⊆ b) : Digits a :=
  fun c hc => hb c (h hc)

theorem toList_ofNat (n : Nat) : (toString (Int.ofNat n)).toList = Nat.toDigits 10 n := by
  simp [toString, Int.repr, Nat.repr]

theorem toList_negSucc (n : Nat) :
    (toString (Int.negSucc n)).toList = '-' :: Nat.toDigits 10 (n + 1) := by
  simp [toString, Int.repr, Nat.repr]

/-- A number other than zero does not begin with a zero. -/
theorem toDigits_of_ne_zero {n : Nat} (h : n ≠ 0) :
    ∃ c ds, Nat.toDigits 10 n = c :: ds ∧ c ≠ '0' := by
  induction n using Nat.strongRecOn with
  | ind n ih =>
    by_cases hlt : n < 10
    · refine ⟨Nat.digitChar n, [], Nat.toDigits_of_lt_base hlt, ?_⟩
      have hall : ∀ d < 10, d ≠ 0 → Nat.digitChar d ≠ '0' := by decide
      exact hall n hlt h
    · obtain ⟨c, ds, hds, hc⟩ := ih (n / 10) (by omega) (by omega)
      exact ⟨c, ds ++ [Nat.digitChar (n % 10)],
        by rw [Nat.toDigits_of_base_le (by decide) (by omega), hds, List.cons_append], hc⟩

namespace JsonReader

theorem decimalValue_eq (ds : List Char) : decimalValue ds = Nat.ofDigitChars 10 ds 0 := by
  rw [decimalValue, Nat.ofDigitChars]
  congr 1
  funext n c
  rw [Nat.mul_comm]

theorem ofDigitChars_lt {ds : List Char} (h : Digits ds) (start : Nat) :
    Nat.ofDigitChars 10 ds start < (start + 1) * Nat.pow 10 ds.length := by
  induction ds generalizing start with
  | nil => simp
  | cons c ds ih =>
    have hc : c.toNat - '0'.toNat ≤ 9 := by
      have h9 := (Char.isDigit_iff_toNat.mp (h c (List.mem_cons_self ..))).2
      have : '0'.toNat = 48 := rfl
      have : '9'.toNat = 57 := rfl
      omega
    rw [Nat.ofDigitChars_cons, List.length_cons, Nat.pow_eq, Nat.pow_succ', ← Nat.mul_assoc]
    refine Nat.lt_of_lt_of_le (ih (fun d hd => h d (List.mem_cons_of_mem c hd)) _) ?_
    exact Nat.mul_le_mul_right _ (by omega)

/-- A number has no more digits than were read. -/
theorem length_toDigits_decimalValue {ds : List Char} (h : Digits ds) (hne : ds ≠ []) :
    (Nat.toDigits 10 (decimalValue ds)).length ≤ ds.length := by
  rw [Nat.length_toDigits_le_iff (by decide) (List.length_pos_iff.mpr hne), decimalValue_eq]
  simpa using ofDigitChars_lt h 0

/-! ## Parts of a number -/

/-- A text that does not go on with a digit. -/
def NoDigit (text : List Char) : Prop := ∀ c ∈ text.head?, c.isDigit = false

/-- A text that does not go on with a part of a number. -/
def PastNumber (text : List Char) : Prop :=
  ∀ c ∈ text.head?, c.isDigit = false ∧ c ≠ '.' ∧ c ≠ 'e' ∧ c ≠ 'E'

theorem PastNumber.noDigit {text : List Char} (h : PastNumber text) : NoDigit text :=
  fun c hc => (h c hc).1

theorem pastNumber_cons {c : Char} (text : List Char)
    (h : c.isDigit = false ∧ c ≠ '.' ∧ c ≠ 'e' ∧ c ≠ 'E') : PastNumber (c :: text) := by
  intro d hd
  obtain rfl : c = d := by simpa using hd
  exact h

theorem digits_append {ds rest : List Char} (h : Digits ds) (hrest : NoDigit rest) :
    digits (ds ++ rest) = (ds, rest) := by
  have hnone : rest.takeWhile Char.isDigit = [] ∧ rest.dropWhile Char.isDigit = rest := by
    cases rest with
    | nil => simp
    | cons c rest => simp [hrest c rfl]
  rw [digits, List.takeWhile_append_of_pos h, List.dropWhile_append_of_pos h, hnone.1, hnone.2,
    List.append_nil]

/-- The digits of an integer: a lone zero, or digits of which the first is not zero. -/
inductive IsWhole : List Char → Prop
  | zero : IsWhole ['0']
  | digits {c : Char} {ds : List Char} (hc : c ≠ '0') (h : Digits (c :: ds)) : IsWhole (c :: ds)

theorem isWhole_toDigits (n : Nat) : IsWhole (Nat.toDigits 10 n) := by
  by_cases h : n = 0
  · subst h
    exact .zero
  · obtain ⟨c, ds, hds, hc⟩ := toDigits_of_ne_zero h
    have hdigits := digits_toDigits n
    rw [hds] at hdigits ⊢
    exact .digits hc hdigits

theorem IsWhole.exists_digit {ds : List Char} (h : IsWhole ds) :
    ∃ c rest, ds = c :: rest ∧ c.isDigit = true := by
  cases h with
  | zero => exact ⟨'0', [], rfl, rfl⟩
  | digits hc h => exact ⟨_, _, rfl, h _ (List.mem_cons_self ..)⟩

theorem wholeDigits?_append {ds rest : List Char} (h : IsWhole ds) (hrest : NoDigit rest) :
    wholeDigits? (ds ++ rest) = some (ds, rest) := by
  cases h with
  | zero => rfl
  | digits hc h =>
    rw [List.cons_append, wholeDigits?]
    · rw [if_pos (h _ (List.mem_cons_self ..)), ← List.cons_append, digits_append h hrest]
    · exact hc

theorem fractionDigits_append {ds rest : List Char} (h : Digits ds) (hne : ds ≠ [])
    (hrest : NoDigit rest) : fractionDigits ('.' :: ds ++ rest) = (ds, rest) := by
  rw [List.cons_append, fractionDigits, digits_append h hrest, if_neg (by simpa using hne)]

theorem fractionDigits_of_head {text : List Char} (h : ∀ c ∈ text.head?, c ≠ '.') :
    fractionDigits text = ([], text) := by
  rw [fractionDigits.eq_def]
  split
  · exact absurd rfl (h '.' rfl)
  · rfl

theorem exponent?_append {sign : Char} {ds rest : List Char} (hsign : sign = '-' ∨ sign = '+')
    (h : Digits ds) (hne : ds ≠ []) (hrest : NoDigit rest) :
    ∃ e, exponent? ('e' :: sign :: ds ++ rest) = (some e, rest) := by
  have hempty : ¬ds.isEmpty = true := by simpa using hne
  rcases hsign with rfl | rfl
  · exact ⟨-(decimalValue ds : Int), by simp [exponent?, digits_append h hrest, hempty]⟩
  · exact ⟨decimalValue ds, by simp [exponent?, digits_append h hrest, hempty]⟩

theorem exponent?_of_pastNumber {text : List Char} (h : PastNumber text) :
    exponent? text = (none, text) := by
  cases text with
  | nil => rfl
  | cons c text =>
    obtain ⟨-, -, he, hE⟩ := h c rfl
    simp [exponent?, he, hE]

/-! ## Numbers -/

/-- The text of a number with a fraction or an exponent, but for its sign. -/
inductive IsDecimal : List Char → Prop
  | positional {whole fraction : List Char} (hwhole : IsWhole whole) (hfraction : Digits fraction)
      (hne : fraction ≠ []) : IsDecimal (whole ++ '.' :: fraction)
  | markedWhole {whole exponent : List Char} {sign : Char} (hwhole : IsWhole whole)
      (hsign : sign = '-' ∨ sign = '+') (hexponent : Digits exponent) (hne : exponent ≠ []) :
      IsDecimal (whole ++ 'e' :: sign :: exponent)
  | marked {whole fraction exponent : List Char} {sign : Char} (hwhole : IsWhole whole)
      (hfraction : Digits fraction) (hfne : fraction ≠ []) (hsign : sign = '-' ∨ sign = '+')
      (hexponent : Digits exponent) (hne : exponent ≠ []) :
      IsDecimal (whole ++ '.' :: fraction ++ 'e' :: sign :: exponent)

theorem IsDecimal.exists_digit {text : List Char} (h : IsDecimal text) :
    ∃ c rest, text = c :: rest ∧ c.isDigit = true := by
  have happend : ∀ {whole : List Char} (rest : List Char), IsWhole whole →
      ∃ c rest', whole ++ rest = c :: rest' ∧ c.isDigit = true := by
    intro whole rest h
    obtain ⟨c, ds, rfl, hc⟩ := h.exists_digit
    exact ⟨c, ds ++ rest, rfl, hc⟩
  cases h with
  | positional hwhole => exact happend _ hwhole
  | markedWhole hwhole => exact happend _ hwhole
  | marked hwhole =>
    rw [List.append_assoc]
    exact happend _ hwhole

theorem unsignedNumber_whole {n : Nat} (hdigits : (Nat.toDigits 10 n).length ≤ maxDigits)
    (negative : Bool) (whole : List Char) {rest : List Char} (hrest : PastNumber rest) :
    unsignedNumber negative whole (Nat.toDigits 10 n ++ rest) =
      .ok (.integer (if negative then -(n : Int) else n), rest) := by
  have hdot : ∀ c ∈ rest.head?, c ≠ '.' := fun c hc => (hrest c hc).2.1
  have hvalue : decimalValue (Nat.toDigits 10 n) = n := by
    rw [decimalValue_eq, Nat.ofDigitChars_toDigits (by decide) (by decide)]
  rw [unsignedNumber, wholeDigits?_append (isWhole_toDigits n) hrest.noDigit]
  simp only [fractionDigits_of_head hdot, exponent?_of_pastNumber hrest, List.isEmpty_nil,
    Option.isNone_none, Bool.and_self, if_true, hvalue]
  rw [if_neg (by omega)]

theorem unsignedNumber_decimal {text : List Char} (h : IsDecimal text) (negative : Bool)
    (whole : List Char) {rest : List Char} (hrest : PastNumber rest) :
    ∃ x, unsignedNumber negative whole (text ++ rest) = .ok (.double x, rest) := by
  have hpoint (t u : List Char) : NoDigit ('.' :: t ++ u) := by simp [NoDigit]
  have hmark (t u : List Char) : NoDigit ('e' :: t ++ u) := by simp [NoDigit]
  have hnone (t u : List Char) : fractionDigits ('e' :: t ++ u) = ([], 'e' :: t ++ u) :=
    fractionDigits_of_head (by simp)
  cases h with
  | positional hwhole hfraction hne =>
    rw [unsignedNumber, List.append_assoc, wholeDigits?_append hwhole (hpoint _ _)]
    simp only [fractionDigits_append hfraction hne hrest.noDigit, exponent?_of_pastNumber hrest]
    simp [hne]
  | markedWhole hwhole hsign hexponent hne =>
    obtain ⟨e, he⟩ := exponent?_append hsign hexponent hne hrest.noDigit
    rw [unsignedNumber, List.append_assoc, wholeDigits?_append hwhole (hmark _ _)]
    simp only [hnone, he]
    simp
  | marked hwhole hfraction hfne hsign hexponent hne =>
    obtain ⟨e, he⟩ := exponent?_append hsign hexponent hne hrest.noDigit
    rw [unsignedNumber, List.append_assoc, List.append_assoc, wholeDigits?_append hwhole (hpoint _ _)]
    simp only [fractionDigits_append hfraction hfne (hmark _ _), he]
    simp

/-- No word begins with a digit, be it after a sign. -/
theorem find?_words_of_digit {c : Char} (hc : c.isDigit = true) (text : List Char) :
    words.find? (fun (word, _) => word.toList.isPrefixOf (c :: text)) = none ∧
      words.find? (fun (word, _) => word.toList.isPrefixOf ('-' :: c :: text)) = none := by
  have hne : ∀ d : Char, d.isDigit = false → d ≠ c := fun _ hd => (ne_of_test hc hd).symm
  have hn := hne 'n' rfl
  have ht := hne 't' rfl
  have hf := hne 'f' rfl
  have hN := hne 'N' rfl
  have hI := hne 'I' rfl
  have hminus := hne '-' rfl
  constructor <;> simp [words, List.isPrefixOf, hn, ht, hf, hN, hI, hminus]

theorem scalar_word (word : String) (value : JsonValue) {rest : List Char}
    (h : words.find? (fun (w, _) => w.toList.isPrefixOf (word.toList ++ rest)) = some (word, value)) :
    scalar (word.toList ++ rest) = .ok (value, rest) := by
  rw [scalar.eq_def, h]
  dsimp only
  rw [← String.length_toList, List.drop_left]

theorem scalar_of_digit {c : Char} (hc : c.isDigit = true) (text : List Char) :
    scalar (c :: text) = unsignedNumber false (c :: text) (c :: text) ∧
      scalar ('-' :: c :: text) = unsignedNumber true ('-' :: c :: text) (c :: text) := by
  have hminus : c ≠ '-' := by
    rintro rfl
    cases hc
  constructor
  · rw [scalar, (find?_words_of_digit hc text).1]
    exact fun rest heq => hminus (List.cons.inj heq).1
  · rw [scalar, (find?_words_of_digit hc text).2]

/-- **An integer is read as it was written**, before a text that does not go on with the number. -/
theorem scalar_integer {n : Int} (hdigits : (Nat.toDigits 10 n.natAbs).length ≤ maxDigits)
    {rest : List Char} (hrest : PastNumber rest) :
    scalar ((toString n).toList ++ rest) = .ok (.integer n, rest) := by
  obtain ⟨c, ds, hds, hc⟩ := (isWhole_toDigits n.natAbs).exists_digit
  cases n with
  | ofNat k =>
    have hk : (Int.ofNat k).natAbs = k := rfl
    rw [hk] at hds hdigits
    rw [toList_ofNat, hds, List.cons_append, (scalar_of_digit hc _).1, ← List.cons_append, ← hds,
      unsignedNumber_whole hdigits false _ hrest]
    rfl
  | negSucc k =>
    have hk : (Int.negSucc k).natAbs = k + 1 := rfl
    rw [hk] at hds hdigits
    rw [toList_negSucc, hds, List.cons_append, List.cons_append, (scalar_of_digit hc _).2,
      ← List.cons_append, ← hds, unsignedNumber_whole hdigits true _ hrest]
    rfl

/-- The digits of an integer are digits, and there is one. -/
theorem digits_of_wholeDigits? {text ds rest : List Char} (h : wholeDigits? text = some (ds, rest)) :
    Digits ds ∧ ds ≠ [] := by
  unfold wholeDigits? at h
  split at h
  · obtain ⟨rfl, -⟩ := Prod.mk.inj (Option.some.inj h)
    exact ⟨digits_replicate 1, by simp⟩
  · next c more _ =>
    split at h
    · next hc =>
      obtain ⟨rfl, -⟩ := Prod.mk.inj (Option.some.inj h)
      exact ⟨List.all_eq_true.mp List.all_takeWhile, by simp [hc]⟩
    · cases h
  · cases h

/-- A number is a double, or an integer of no more digits than may be read. -/
theorem unsignedNumber_eq_ok {negative : Bool} {whole text rest : List Char} {v : JsonValue}
    (h : unsignedNumber negative whole text = .ok (v, rest)) :
    (∃ x, v = .double x) ∨
      ∃ n : Int, v = .integer n ∧ (Nat.toDigits 10 n.natAbs).length ≤ maxDigits := by
  rw [unsignedNumber] at h
  split at h
  · cases h
  · next ds after hwhole =>
    obtain ⟨hdigits, hne⟩ := digits_of_wholeDigits? hwhole
    dsimp only at h
    split at h
    · split at h
      · cases h
      · next hlen =>
        obtain ⟨rfl, -⟩ := Prod.mk.inj (Except.ok.inj h)
        refine .inr ⟨_, rfl, ?_⟩
        have habs : (if negative = true then -(decimalValue ds : Int) else decimalValue ds).natAbs =
            decimalValue ds := by
          split <;> simp
        rw [habs]
        have := length_toDigits_decimalValue hdigits hne
        omega
    · obtain ⟨rfl, -⟩ := Prod.mk.inj (Except.ok.inj h)
      exact .inl ⟨_, rfl⟩

/-! ## Doubles -/

/-- Of two neighbours on a grid, the lower one is taken only if it is positive. -/
theorem ne_zero_of_neighbour {upper lowerFits : Bool} {floor n : Nat}
    (h : (if upper = true then some (floor + 1)
      else if (decide (0 < floor) && lowerFits) = true then some floor else none) = some n) :
    n ≠ 0 := by
  split at h
  · obtain rfl := Option.some.inj h
    omega
  · split at h
    · next hfits =>
      obtain rfl := Option.some.inj h
      simp only [Bool.and_eq_true, decide_eq_true_eq] at hfits
      omega
    · cases h

theorem digits_of_nearestOnGrid? {significand n : Nat} {exponent grid : Int}
    (h : Double.nearestOnGrid? significand exponent grid = some n) : n ≠ 0 :=
  ne_zero_of_neighbour h

theorem digits_shortest {significand : Nat} (h : significand ≠ 0) (exponent : Int) :
    (Double.shortest significand exponent).digits ≠ 0 := by
  rw [Double.shortest]
  dsimp only
  cases hfound : (List.range 17).findSome? fun (n : Nat) =>
      (Double.nearestOnGrid? significand exponent
        (Double.leadingExponent significand exponent - n)).map fun digits =>
          (⟨digits, Double.leadingExponent significand exponent - n⟩ : Double.Decimal) with
  | none => exact h
  | some d =>
    obtain ⟨n, -, hn⟩ := List.exists_of_findSome?_eq_some hfound
    obtain ⟨digits, hdigits, rfl⟩ := Option.map_eq_some_iff.mp hn
    exact digits_of_nearestOnGrid? hdigits

/-- The digits of a decimal other than zero do not begin with a zero. -/
theorem significantDigits_of_ne_zero {d : Double.Decimal} (h : d.digits ≠ 0) :
    ∃ c ds, (Double.significantDigits d).1 = c :: ds ∧ c ≠ '0' ∧ Digits (c :: ds) := by
  obtain ⟨c, ds, hds, hc⟩ := toDigits_of_ne_zero h
  have hdigits := digits_toDigits d.digits
  have hkept : ((Nat.toDigits 10 d.digits).reverse.dropWhile (· = '0')).reverse =
      c :: (ds.reverse.dropWhile (· = '0')).reverse := by
    rw [hds, List.reverse_cons, List.dropWhile_append]
    split
    · next hempty =>
      have hnil : ds.reverse.dropWhile (· = '0') = [] := by simpa using hempty
      simp [hnil, hc]
    · simp
  refine ⟨c, (ds.reverse.dropWhile (· = '0')).reverse, ?_, hc, ?_⟩
  · rw [Double.significantDigits]
    dsimp only
    rw [hkept]
    rfl
  · rw [← hkept]
    refine hdigits.of_subset fun x hx => ?_
    exact List.mem_reverse.mp ((List.dropWhile_sublist _).subset (List.mem_reverse.mp hx))

theorem digits_padded (width n : Nat) :
    Digits (Double.padded width n) ∧ Double.padded width n ≠ [] := by
  rw [Double.padded]
  exact ⟨(digits_replicate _).append (digits_toDigits n), by simp⟩

theorem isDecimal_layOut {c : Char} {ds : List Char} (hc : c ≠ '0') (h : Digits (c :: ds))
    (leading : Int) : IsDecimal (Double.layOut JsonPrinter.doubleLayout (c :: ds) leading) := by
  have hexponent := digits_padded JsonPrinter.doubleLayout.exponentDigits leading.natAbs
  have hsign : (if leading < 0 then '-' else '+') = '-' ∨ (if leading < 0 then '-' else '+') = '+' := by
    split
    · exact .inl rfl
    · exact .inr rfl
  have hfirst : Digits [c] := h.of_subset (by simp)
  have hds : Digits ds := h.of_subset (by simp)
  unfold Double.layOut
  split
  · split
    · exact .positional .zero ((digits_replicate _).append h) (by simp)
    · -- The digits before the point are some of those given, with zeros after them.
      have hwhole : IsWhole ((c :: ds).take (leading.toNat + 1) ++
          List.replicate (leading.toNat + 1 - ((c :: ds).take (leading.toNat + 1)).length) '0') := by
        rw [List.take_succ_cons, List.cons_append]
        refine .digits hc ?_
        rw [← List.cons_append, ← List.take_succ_cons]
        exact (h.of_subset (List.take_subset _ _)).append (digits_replicate _)
      have hfraction : Digits ((c :: ds).drop (leading.toNat + 1)) :=
        h.of_subset (List.drop_subset _ _)
      dsimp only
      rw [List.append_assoc, List.singleton_append]
      split
      · exact .positional hwhole (digits_replicate 1) (by simp)
      · next hne => exact .positional hwhole hfraction (by simpa using hne)
  · dsimp only
    rw [List.take_succ_cons, List.take_zero, List.drop_succ_cons, List.drop_zero]
    split
    · exact .markedWhole (.digits hc hfirst) hsign hexponent.1 hexponent.2
    · next hne =>
      rw [List.append_assoc, List.append_assoc]
      exact .marked (.digits hc hfirst) hds (by simpa using hne) hsign hexponent.1 hexponent.2

/-- The text of a finite double is a number with a fraction or an exponent, or that with a sign. -/
theorem text_finite (negative : Bool) (significand : Nat) (exponent : Int) :
    ∃ text, IsDecimal text ∧
      Double.text JsonPrinter.doubleLayout (.finite negative significand exponent) =
        (if negative then ['-'] else []) ++ text := by
  rw [Double.text]
  dsimp only
  split
  · exact ⟨_, .positional .zero (digits_replicate 1) (by simp), rfl⟩
  · next hne =>
    obtain ⟨c, ds, hds, hc, hdigits⟩ :=
      significantDigits_of_ne_zero (digits_shortest hne exponent)
    refine ⟨_, isDecimal_layOut hc hdigits (Double.significantDigits
      (Double.shortest significand exponent)).2, ?_⟩
    rw [← hds]

/-- **The text of a double is read as a double**, before a text that does not go on with the number. -/
theorem scalar_double (x : Double) {rest : List Char} (hrest : PastNumber rest) :
    ∃ y, scalar (x.text JsonPrinter.doubleLayout ++ rest) = .ok (.double y, rest) := by
  cases x with
  | notANumber =>
    have htext : Double.text JsonPrinter.doubleLayout .notANumber = "NaN".toList := rfl
    rw [htext]
    exact ⟨_, scalar_word "NaN" (.double .notANumber) (by simp [words, List.isPrefixOf])⟩
  | infinite negative =>
    have htext : Double.text JsonPrinter.doubleLayout (.infinite negative) =
        (if negative then "-Infinity" else "Infinity").toList := by
      cases negative <;> simp [Double.text, JsonPrinter.doubleLayout]
    rw [htext]
    refine ⟨_, scalar_word _ (.double (.infinite negative)) ?_⟩
    cases negative <;> simp [words, List.isPrefixOf]
  | finite negative significand exponent =>
    obtain ⟨text, hdecimal, htext⟩ := text_finite negative significand exponent
    obtain ⟨c, more, rfl, hc⟩ := hdecimal.exists_digit
    rw [htext]
    cases negative with
    | false =>
      obtain ⟨y, hy⟩ := unsignedNumber_decimal hdecimal false (c :: more ++ rest) hrest
      exact ⟨y, (scalar_of_digit hc _).1.trans hy⟩
    | true =>
      obtain ⟨y, hy⟩ := unsignedNumber_decimal hdecimal true ('-' :: (c :: more ++ rest)) hrest
      exact ⟨y, (scalar_of_digit hc _).2.trans hy⟩

end JsonReader

end ElmSuite

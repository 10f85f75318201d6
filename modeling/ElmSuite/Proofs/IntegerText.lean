import Mathlib.Data.Nat.Digits.Lemmas
import ElmSuite.Settings.Integer
import ElmSuite.Proofs.Json.Numbers
import ElmSuite.Proofs.Text.Identifier
import ElmSuite.Proofs.Text.Trim

/-!
# Integers as they are given

An integer is given as a numeral: a sign, which may be missing, and groups of decimal digits of
any script, between which single underscores stand. A text is read exactly if it is a numeral of
no more digits than may be given, with blank characters around it, and it is read as the integer
that the numeral denotes. An integer that was read is written with no more digits than it was
given with, so that it is read again.
-/

namespace ElmSuite

/-! ## Numerals -/

/-- A decimal digit of any script. -/
abbrev Digit := { c : Char // (Text.digitValue? c).isSome = true }

namespace Digit

/-- What a digit denotes. -/
def value (d : Digit) : Nat := (Text.digitValue? d.val).get d.property

theorem digitValue?_val (d : Digit) : Text.digitValue? d.val = some d.value :=
  (Option.some_get d.property).symm

theorem value_lt (d : Digit) : d.value < 10 := Text.digitValue?_lt d.digitValue?_val

theorem val_ne {c : Char} (h : Text.digitValue? c = none) (d : Digit) : d.val ≠ c := by
  intro heq
  have hnone := d.digitValue?_val
  rw [heq, h] at hnone
  cases hnone

end Digit

/-- The sign before a numeral. -/
inductive Sign where
  | missing
  | plus
  | minus
  deriving DecidableEq, Repr

namespace Sign

/-- A sign as it is written. -/
def text : Sign → List Char
  | missing => []
  | plus => ['+']
  | minus => ['-']

/-- A number with a sign. -/
def apply : Sign → Nat → Int
  | minus, n => -(n : Int)
  | _, n => n

end Sign

/-- A sign and groups of digits, none of which is empty. -/
structure Numeral where
  sign : Sign
  groups : List (List Digit)
  groups_ne_nil : groups ≠ []
  filled : ∀ group ∈ groups, group ≠ []

namespace Numeral

/-- The digits of a numeral. -/
def digits (m : Numeral) : List Digit := m.groups.flatten

/-- Groups of digits as they are written. -/
def groupsText (groups : List (List Digit)) : List Char :=
  ['_'].intercalate (groups.map (·.map Subtype.val))

/-- A numeral as it is written. -/
def text (m : Numeral) : List Char := m.sign.text ++ groupsText m.groups

/-- The integer that a numeral denotes. -/
def value (m : Numeral) : Int := m.sign.apply (Nat.ofDigits 10 (m.digits.map Digit.value).reverse)

end Numeral

namespace IntegerText

open Numeral (groupsText)

/-! ## Digits -/

theorem valueOf_eq (digits : List Nat) : valueOf digits = Nat.ofDigits 10 digits.reverse := by
  induction digits using List.reverseRecOn with
  | nil => rfl
  | append_singleton digits d ih =>
    rw [valueOf, List.foldl_append, ← valueOf, ih, List.reverse_append, List.reverse_singleton,
      List.singleton_append, Nat.ofDigits_cons, List.foldl_cons, List.foldl_nil]
    omega

theorem digitValues?_cons {c : Char} {rest : List Char} (hne : rest ≠ [])
    (hrest : ∀ d ∈ rest.head?, d ≠ '_') :
    digitValues? (c :: rest) = do return (← Text.digitValue? c) :: (← digitValues? rest) := by
  obtain ⟨d, rest, rfl⟩ := List.exists_cons_of_ne_nil hne
  have hd : d ≠ '_' := hrest d rfl
  rw [digitValues?]
  · exact List.cons_ne_nil _ _
  · rintro more h
    exact hd (List.cons.inj h).1

/-- A group of digits is read as their values, and so is one before an underscore. -/
theorem digitValues?_group {group : List Digit} (hne : group ≠ []) :
    digitValues? (group.map Subtype.val) = some (group.map Digit.value) ∧
      ∀ rest, digitValues? (group.map Subtype.val ++ '_' :: rest) =
        (digitValues? rest).map (group.map Digit.value ++ ·) := by
  induction group with
  | nil => exact absurd rfl hne
  | cons d group ih =>
    cases group with
    | nil =>
      constructor
      · simp [digitValues?, d.digitValue?_val]
      · intro rest
        cases hrest : digitValues? rest <;> simp [digitValues?, d.digitValue?_val, hrest]
    | cons e group =>
      have hunder : e.val ≠ '_' := e.val_ne (by decide)
      obtain ⟨hwhole, hbefore⟩ := ih (List.cons_ne_nil _ _)
      constructor
      · rw [List.map_cons, digitValues?_cons (by simp) (by simpa using hunder), hwhole]
        simp [d.digitValue?_val]
      · intro rest
        rw [List.map_cons, List.cons_append, digitValues?_cons (by simp) (by simpa using hunder),
          hbefore]
        cases hrest : digitValues? rest <;> simp [d.digitValue?_val]

theorem digitValues?_groupsText {groups : List (List Digit)} (hne : groups ≠ [])
    (hfilled : ∀ group ∈ groups, group ≠ []) :
    digitValues? (groupsText groups) = some (groups.flatten.map Digit.value) := by
  induction groups with
  | nil => exact absurd rfl hne
  | cons group groups ih =>
    obtain ⟨hgroup, hrest⟩ := List.forall_mem_cons.mp hfilled
    obtain ⟨hwhole, hbefore⟩ := digitValues?_group hgroup
    cases groups with
    | nil => simpa [groupsText] using hwhole
    | cons next groups =>
      have htext : groupsText (group :: next :: groups) =
          group.map Subtype.val ++ '_' :: groupsText (next :: groups) := by
        simp [groupsText, List.intercalate_cons_cons]
      rw [htext, hbefore, ih (List.cons_ne_nil _ _) hrest, List.flatten_cons (l := group),
        List.map_append]
      rfl

/-- A digit that was read, and the digits behind it. -/
theorem exists_digit_of_bind {c : Char} {rest : Option (List Nat)} {values : List Nat}
    (h : (do return (← Text.digitValue? c) :: (← rest)) = some values) :
    ∃ (d : Digit) (more : List Nat), d.val = c ∧ rest = some more ∧ values = d.value :: more := by
  cases hc : Text.digitValue? c with
  | none =>
    rw [hc] at h
    cases h
  | some n =>
    cases rest with
    | none =>
      rw [hc] at h
      cases h
    | some more =>
      rw [hc] at h
      obtain rfl : n :: more = values := Option.some.inj h
      let d : Digit := ⟨c, by rw [hc]; rfl⟩
      have hd : d.value = n := Option.some.inj (d.digitValue?_val.symm.trans hc)
      exact ⟨d, more, rfl, rfl, by rw [hd]⟩

/-- What is read as digits is written in groups of them. -/
theorem exists_groups {text : List Char} {values : List Nat} (h : digitValues? text = some values) :
    ∃ groups : List (List Digit), groups ≠ [] ∧ (∀ group ∈ groups, group ≠ []) ∧
      text = groupsText groups ∧ values = groups.flatten.map Digit.value := by
  induction text using digitValues?.induct generalizing values with
  | case1 => cases h
  | case2 c =>
    have hbind : (do return (← Text.digitValue? c) :: (← some [])) = some values := by
      rw [← h, digitValues?]
      cases Text.digitValue? c <;> rfl
    obtain ⟨d, more, rfl, hmore, rfl⟩ := exists_digit_of_bind hbind
    obtain rfl := Option.some.inj hmore
    exact ⟨[[d]], by simp, by simp, by simp [groupsText], by simp⟩
  | case3 c rest ih =>
    rw [digitValues?] at h
    obtain ⟨d, more, rfl, hmore, rfl⟩ := exists_digit_of_bind h
    obtain ⟨groups, hne, hfilled, rfl, rfl⟩ := ih hmore
    obtain ⟨group, groups, rfl⟩ := List.exists_cons_of_ne_nil hne
    refine ⟨[d] :: group :: groups, by simp, List.forall_mem_cons.mpr ⟨by simp, hfilled⟩, ?_, ?_⟩
    · simp [groupsText, List.intercalate_cons_cons]
    · simp
  | case4 c rest hone hunder ih =>
    rw [digitValues?] at h
    · obtain ⟨d, more, rfl, hmore, rfl⟩ := exists_digit_of_bind h
      obtain ⟨groups, hne, hfilled, rfl, rfl⟩ := ih hmore
      obtain ⟨group, groups, rfl⟩ := List.exists_cons_of_ne_nil hne
      obtain ⟨-, hgroups⟩ := List.forall_mem_cons.mp hfilled
      refine ⟨(d :: group) :: groups, by simp, List.forall_mem_cons.mpr ⟨by simp, hgroups⟩, ?_, ?_⟩
      · cases groups <;> simp [groupsText, List.intercalate_cons_cons]
      · simp
    · exact hone
    · exact hunder

/-! ## Numerals that are read -/

theorem natural?_eq_some_iff {text : List Char} {n : Nat} :
    natural? text = some n ↔ ∃ groups : List (List Digit), groups ≠ [] ∧
      (∀ group ∈ groups, group ≠ []) ∧ text = groupsText groups ∧
      groups.flatten.length ≤ maxDigits ∧
      Nat.ofDigits 10 (groups.flatten.map Digit.value).reverse = n := by
  rw [natural?]
  constructor
  · intro h
    obtain ⟨values, hvalues, h⟩ := Option.bind_eq_some_iff.mp h
    obtain ⟨groups, hne, hfilled, htext, rfl⟩ := exists_groups hvalues
    split_ifs at h with hlength
    rw [List.length_map] at hlength
    exact ⟨groups, hne, hfilled, htext, hlength, (valueOf_eq _).symm.trans (Option.some.inj h)⟩
  · rintro ⟨groups, hne, hfilled, rfl, hlength, rfl⟩
    rw [digitValues?_groupsText hne hfilled]
    change (if _ then _ else _) = _
    rw [List.length_map, if_pos hlength, valueOf_eq]

/-- Groups of digits begin with a digit. -/
theorem exists_groupsText_eq_cons {groups : List (List Digit)} (hne : groups ≠ [])
    (hfilled : ∀ group ∈ groups, group ≠ []) :
    ∃ (d : Digit) (rest : List Char), groupsText groups = d.val :: rest := by
  obtain ⟨group, groups, rfl⟩ := List.exists_cons_of_ne_nil hne
  obtain ⟨d, group, rfl⟩ := List.exists_cons_of_ne_nil (hfilled group (List.mem_cons_self ..))
  cases groups with
  | nil => exact ⟨d, group.map Subtype.val, by simp [groupsText]⟩
  | cons next groups =>
    exact ⟨d, _, by rw [groupsText, List.map_cons, List.map_cons, List.map_cons,
      List.intercalate_cons_cons, List.cons_append, List.cons_append]⟩

theorem integer?_of_trim {text : List Char} {m : Numeral} (h : Text.trim text = m.text) :
    integer? text = (natural? (groupsText m.groups)).map m.sign.apply := by
  obtain ⟨sign, groups, hne, hfilled⟩ := m
  rw [integer?, h, Numeral.text]
  cases sign with
  | minus =>
    change Option.map Neg.neg ((natural? (groupsText groups)).bind fun k => some (k : Int)) = _
    cases natural? (groupsText groups) <;> rfl
  | plus => rfl
  | missing =>
    obtain ⟨d, rest, htext⟩ := exists_groupsText_eq_cons hne hfilled
    dsimp only [Sign.text]
    rw [List.nil_append, htext]
    split
    · next hminus => exact absurd (List.cons.inj hminus).1 (d.val_ne (by decide))
    · next hplus => exact absurd (List.cons.inj hplus).1 (d.val_ne (by decide))
    · rfl

theorem exists_sign_of_integer? {text : List Char} {n : Int} (h : integer? text = some n) :
    ∃ (sign : Sign) (rest : List Char) (k : Nat), Text.trim text = sign.text ++ rest ∧
      natural? rest = some k ∧ sign.apply k = n := by
  rw [integer?] at h
  split at h
  · next rest htext =>
    obtain ⟨i, hi, rfl⟩ := Option.map_eq_some_iff.mp h
    obtain ⟨k, hk, hcast⟩ := Option.bind_eq_some_iff.mp hi
    obtain rfl : (k : Int) = i := Option.some.inj hcast
    exact ⟨.minus, rest, k, htext, hk, rfl⟩
  · next rest htext =>
    obtain ⟨k, hk, rfl⟩ := Option.map_eq_some_iff.mp h
    exact ⟨.plus, rest, k, htext, hk, rfl⟩
  · obtain ⟨k, hk, rfl⟩ := Option.map_eq_some_iff.mp h
    exact ⟨.missing, _, k, rfl, hk, rfl⟩

/-- What is read is a numeral with blank characters around it. -/
theorem integer?_eq_some_iff {text : List Char} {n : Int} :
    integer? text = some n ↔
      ∃ m : Numeral, Text.trim text = m.text ∧ m.digits.length ≤ maxDigits ∧ m.value = n := by
  constructor
  · intro h
    obtain ⟨sign, rest, k, htext, hk, rfl⟩ := exists_sign_of_integer? h
    obtain ⟨groups, hne, hfilled, rfl, hlength, rfl⟩ := natural?_eq_some_iff.mp hk
    exact ⟨⟨sign, groups, hne, hfilled⟩, htext, hlength, rfl⟩
  · rintro ⟨m, htext, hlength, rfl⟩
    have hnatural := natural?_eq_some_iff.mpr
      ⟨m.groups, m.groups_ne_nil, m.filled, rfl, hlength, rfl⟩
    rw [integer?_of_trim htext, hnatural]
    rfl

/-- A value that is given as a numeral of no more digits than may be given, with blank characters
around it. -/
def Gives (value : String) (m : Numeral) : Prop :=
  Text.trim value.toList = m.text ∧ m.digits.length ≤ maxDigits

/-- An integer is read exactly from the values that give it, where it is what is asked for. -/
theorem read_eq_ok_iff {flag value : String} {positive : Bool} {n : Int} :
    read flag value positive = .ok n ↔
      ∃ m : Numeral, Gives value m ∧ (positive = true → 0 < m.value) ∧ m.value = n := by
  have hread : read flag value positive = .ok n ↔
      integer? value.toList = some n ∧ (positive = true → 0 < n) := by
    rw [read]
    cases hvalue : integer? value.toList with
    | none => simp
    | some k =>
      dsimp only
      split_ifs with hrefused
      · refine ⟨nofun, ?_⟩
        rintro ⟨hk, hpositive⟩
        obtain rfl := Option.some.inj hk
        exact absurd (hpositive hrefused.1) (Int.not_lt.mpr hrefused.2)
      · rw [Except.ok.injEq, Option.some.injEq]
        refine ⟨?_, And.left⟩
        rintro rfl
        exact ⟨rfl, fun hpositive => Int.not_le.mp fun hle => hrefused ⟨hpositive, hle⟩⟩
  rw [hread, integer?_eq_some_iff]
  constructor
  · rintro ⟨⟨m, htext, hlength, rfl⟩, hpositive⟩
    exact ⟨m, ⟨htext, hlength⟩, hpositive, rfl⟩
  · rintro ⟨m, ⟨htext, hlength⟩, hpositive, rfl⟩
    exact ⟨⟨m, htext, hlength, rfl⟩, hpositive⟩

/-- Every other value is reported as it was given, with its flag. -/
theorem read_eq_error_iff {flag value : String} {positive : Bool} {p : Problem} :
    read flag value positive = .error p ↔ p = .invalidInteger flag value ∧
      ¬∃ m : Numeral, Gives value m ∧ (positive = true → 0 < m.value) := by
  have hok : (∃ n, read flag value positive = .ok n) ↔
      ∃ m : Numeral, Gives value m ∧ (positive = true → 0 < m.value) := by
    simp only [read_eq_ok_iff]
    exact ⟨fun ⟨_, m, hgives, hpositive, _⟩ => ⟨m, hgives, hpositive⟩,
      fun ⟨m, hgives, hpositive⟩ => ⟨m.value, m, hgives, hpositive, rfl⟩⟩
  rw [← hok]
  cases hread : read flag value positive with
  | ok n => simp
  | error q =>
    have hq : q = .invalidInteger flag value := by
      rw [read] at hread
      split at hread
      · split_ifs at hread
        exact (Except.error.inj hread).symm
      · exact (Except.error.inj hread).symm
    simp [hq, eq_comm]

/-! ## Integers that are written -/

/-- A decimal digit as a digit of any script. -/
theorem digitValue?_of_isDigit {c : Char} (h : c.isDigit = true) :
    Text.digitValue? c = some (c.toNat - '0'.toNat) := by
  obtain ⟨hle, hlt⟩ := Char.isDigit_iff_toNat.mp h
  have hlow : 48 ≤ c.toNat := hle
  have hhigh : c.toNat < 58 := Nat.lt_succ_of_le hlt
  simp [Text.digitValue?, Text.digitZeros, hlow, hhigh]

/-- Decimal digits are a group of digits. -/
theorem exists_group {ds : List Char} (h : Digits ds) : ∃ group : List Digit,
    group.map Subtype.val = ds ∧ group.map Digit.value = ds.map fun c => c.toNat - '0'.toNat := by
  induction ds with
  | nil => exact ⟨[], rfl, rfl⟩
  | cons c ds ih =>
    obtain ⟨hc, hds⟩ := List.forall_mem_cons.mp h
    obtain ⟨group, hval, hvalue⟩ := ih hds
    have hdigit := digitValue?_of_isDigit hc
    let d : Digit := ⟨c, by rw [hdigit]; rfl⟩
    have hd : d.value = c.toNat - '0'.toNat := Option.some.inj (d.digitValue?_val.symm.trans hdigit)
    exact ⟨d :: group, by rw [List.map_cons, hval], by rw [List.map_cons, List.map_cons, hvalue, hd]⟩

theorem ofDigits_map_toNat (ds : List Char) :
    Nat.ofDigits 10 (ds.map fun c => c.toNat - '0'.toNat).reverse = Nat.ofDigitChars 10 ds 0 := by
  rw [← valueOf_eq, valueOf, List.foldl_map, Nat.ofDigitChars]
  congr 1
  funext n c
  rw [Nat.mul_comm]

/-- An integer is written as a numeral of its decimal digits. -/
theorem exists_numeral (n : Int) : ∃ m : Numeral, m.text = (toString n).toList ∧ m.value = n ∧
    m.digits.length = (Nat.toDigits 10 n.natAbs).length := by
  have hgroup (sign : Sign) (k : Nat) : ∃ m : Numeral, m.text = sign.text ++ Nat.toDigits 10 k ∧
      m.value = sign.apply k ∧ m.digits.length = (Nat.toDigits 10 k).length := by
    obtain ⟨group, hval, hvalue⟩ := exists_group (digits_toDigits k)
    have hlength := congrArg List.length hval
    rw [List.length_map] at hlength
    have hne : group ≠ [] := by
      rintro rfl
      exact Nat.toDigits_ne_nil hval.symm
    refine ⟨⟨sign, [group], by simp, by simpa using hne⟩, ?_, ?_, ?_⟩
    · rw [Numeral.text, groupsText, List.map_singleton, List.intercalate_singleton, hval]
    · rw [Numeral.value, Numeral.digits, List.flatten_singleton, hvalue, ofDigits_map_toNat,
        Nat.ofDigitChars_toDigits (by decide) (by decide)]
    · rw [Numeral.digits, List.flatten_singleton, hlength]
  cases n with
  | ofNat k =>
    rw [toList_ofNat]
    exact hgroup .missing k
  | negSucc k =>
    rw [toList_negSucc]
    exact hgroup .minus (k + 1)

/-- An integer is written with no more digits than a numeral of it has. -/
theorem length_toDigits_value (m : Numeral) :
    (Nat.toDigits 10 m.value.natAbs).length ≤ m.digits.length := by
  have habs : m.value.natAbs = Nat.ofDigits 10 (m.digits.map Digit.value).reverse := by
    rw [Numeral.value]
    cases m.sign <;> simp [Sign.apply]
  have hpos : 0 < m.digits.length := by
    obtain ⟨group, groups, hgroups⟩ := List.exists_cons_of_ne_nil m.groups_ne_nil
    have hgroup := m.filled group (hgroups ▸ List.mem_cons_self ..)
    rw [Numeral.digits, hgroups, List.flatten_cons, List.length_append]
    have := List.length_pos_iff.mpr hgroup
    omega
  rw [Nat.length_toDigits_le_iff (by decide) hpos, habs]
  have hlt := @Nat.ofDigits_lt_base_pow_length 10 (m.digits.map Digit.value).reverse (by decide)
    fun d hd => by
      obtain ⟨digit, -, rfl⟩ := List.mem_map.mp (List.mem_reverse.mp hd)
      exact digit.value_lt
  simpa using hlt

/-- There are no blank characters in an integer as it is written. -/
theorem trim_toString (n : Int) : Text.trim (toString n).toList = (toString n).toList := by
  have hblank : ∀ c ∈ (toString n).toList, Text.isBlank c = false := by
    have hdigits (k : Nat) : ∀ c ∈ Nat.toDigits 10 k, Text.isBlank c = false := by
      intro c hc
      obtain ⟨hle, hlt⟩ := Char.isDigit_iff_toNat.mp (digits_toDigits k c hc)
      have hlow : 48 ≤ c.toNat := hle
      have hhigh : c.toNat ≤ 57 := hlt
      exact Text.isBlank_of_ascii (by omega) (by omega)
    cases n with
    | ofNat k => exact toList_ofNat k ▸ hdigits k
    | negSucc k => exact toList_negSucc k ▸ List.forall_mem_cons.mpr ⟨by decide, hdigits (k + 1)⟩
  exact Text.Trimmed.trim_eq ⟨fun c hc => hblank c (List.mem_of_head? hc),
    fun c hc => hblank c (List.mem_of_getLast? hc)⟩

/-- An integer that was read is read again as it is written. -/
theorem read_toString {flag value : String} {positive : Bool} {n : Int}
    (h : read flag value positive = .ok n) (other : String) :
    read other (toString n) positive = .ok n := by
  obtain ⟨m, ⟨-, hlength⟩, hpositive, rfl⟩ := read_eq_ok_iff.mp h
  obtain ⟨written, htext, hvalue, hdigits⟩ := exists_numeral m.value
  refine read_eq_ok_iff.mpr ⟨written, ⟨?_, ?_⟩, by rwa [hvalue], hvalue⟩
  · rw [trim_toString, htext]
  · rw [hdigits]
    exact Nat.le_trans (length_toDigits_value m) hlength

end IntegerText

end ElmSuite

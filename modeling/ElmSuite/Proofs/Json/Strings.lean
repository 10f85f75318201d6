import Mathlib.Data.List.Chain
import Mathlib.Tactic.SplitIfs
import ElmSuite.Json.Printer
import ElmSuite.Json.Reader

/-!
# JSON strings as they are written and read

A string that was read is written in a way that gives it back. Only a high surrogate next
to a low one could not be told from the character that they stand for together, and a
string that was read has no such neighbours.
-/

namespace ElmSuite

namespace CodePoints

/-- A text whose code points are in range, with no high surrogate right before a low one. -/
structure Sound (codes : CodePoints) : Prop where
  bounded : ∀ n ∈ codes, n < 0x110000
  apart : codes.IsChain fun a b =>
    JsonReader.isHighSurrogate a = true → JsonReader.isLowSurrogate b = false

theorem sound_nil : Sound [] := ⟨by simp, .nil⟩

theorem Sound.tail {n : Nat} {codes : CodePoints} (h : Sound (n :: codes)) : Sound codes :=
  ⟨fun m hm => h.bounded m (List.mem_cons_of_mem n hm), h.apart.tail⟩

theorem Sound.concat {codes : CodePoints} {n : Nat} (h : Sound codes) (hn : n < 0x110000)
    (hlast : ∀ m ∈ codes.getLast?, JsonReader.isHighSurrogate m = true →
      JsonReader.isLowSurrogate n = false) : Sound (codes ++ [n]) := by
  constructor
  · intro m hm
    rcases List.mem_append.mp hm with hm | hm
    · exact h.bounded m hm
    · exact List.mem_singleton.mp hm ▸ hn
  · refine List.isChain_append.mpr ⟨h.apart, .singleton n, fun m hm k hk => ?_⟩
    obtain rfl : n = k := by simpa using hk
    exact hlast m hm

/-- The characters of a string are no surrogates. -/
theorem isSurrogate_toNat (c : Char) :
    JsonReader.isHighSurrogate c.toNat = false ∧ JsonReader.isLowSurrogate c.toNat = false := by
  have hvalid : c.toNat < 0xD800 ∨ 0xDFFF < c.toNat ∧ c.toNat < 0x110000 := c.valid
  simp only [JsonReader.isHighSurrogate, JsonReader.isLowSurrogate, Bool.and_eq_false_iff,
    decide_eq_false_iff_not]
  omega

theorem sound_ofString (s : String) : Sound (ofString s) := by
  constructor
  · intro n hn
    obtain ⟨c, -, rfl⟩ := List.mem_map.mp hn
    have hvalid : c.toNat < 0xD800 ∨ 0xDFFF < c.toNat ∧ c.toNat < 0x110000 := c.valid
    omega
  · apply List.Pairwise.isChain
    refine List.pairwise_map.mpr (List.pairwise_of_forall fun a b _ => ?_)
    exact (isSurrogate_toNat b).2

end CodePoints

namespace JsonReader

open JsonPrinter

/-! ## Escapes -/

/-- Four hexadecimal digits. -/
def hexText (n : Nat) : List Char :=
  [hexDigit (n / 0x1000), hexDigit (n / 0x100), hexDigit (n / 0x10), hexDigit n]

theorem toNat_ofNat {n : Nat} (h : n < 0x80) : (Char.ofNat n).toNat = n := by
  have hall : ∀ n < 0x80, (Char.ofNat n).toNat = n := by decide
  exact hall n h

theorem unitEscape_eq (n : Nat) : unitEscape n = '\\' :: 'u' :: hexText n := rfl

theorem hexValue?_hexDigit (n : Nat) : hexValue? (hexDigit n) = some (n % 16) := by
  have hall : ∀ d < 16, hexValue? (Nat.digitChar d) = some d := by decide
  exact hall _ (Nat.mod_lt n (by decide))

theorem hexQuad?_hexText {n : Nat} (h : n < 0x10000) {rest : List Char} (hrest : rest ≠ []) :
    hexQuad? (hexText n ++ rest) = some (n, rest) := by
  obtain ⟨c, rest, rfl⟩ := List.exists_cons_of_ne_nil hrest
  have hvalue : ((n / 0x1000 % 16 * 16 + n / 0x100 % 16) * 16 + n / 0x10 % 16) * 16 + n % 16 = n := by
    omega
  simp [hexText, hexQuad?, hexValue?_hexDigit, hvalue]

theorem hexValue?_lt {c : Char} {n : Nat} (h : hexValue? c = some n) : n < 16 := by
  have htoNat : ∀ {a b : Char}, a ≤ b → a.toNat ≤ b.toNat := fun h => h
  rw [hexValue?] at h
  split at h
  · next hc =>
    have := htoNat hc.2
    have : '9'.toNat = 57 := rfl
    have : '0'.toNat = 48 := rfl
    obtain rfl := Option.some.inj h
    omega
  · split at h
    · next hc =>
      have := htoNat hc.2
      have : 'f'.toNat = 102 := rfl
      have : 'a'.toNat = 97 := rfl
      obtain rfl := Option.some.inj h
      omega
    · split at h
      · next hc =>
        have := htoNat hc.2
        have : 'F'.toNat = 70 := rfl
        have : 'A'.toNat = 65 := rfl
        obtain rfl := Option.some.inj h
        omega
      · cases h

/-- Four digits are read from a text that goes on after them. -/
theorem hexQuad?_eq_some {text rest : List Char} {n : Nat} (h : hexQuad? text = some (n, rest)) :
    n < 0x10000 ∧ 4 < text.length := by
  match text with
  | [] | [_] | [_, _] | [_, _, _] | [_, _, _, _] => simp [hexQuad?] at h
  | a :: b :: c :: d :: next :: more =>
    simp only [hexQuad?, Option.bind_eq_bind, Option.bind_eq_some_iff, Option.pure_def,
      Option.some.injEq, Prod.mk.injEq] at h
    obtain ⟨a, ha, b, hb, c, hc, d, hd, rfl, -⟩ := h
    have := hexValue?_lt ha
    have := hexValue?_lt hb
    have := hexValue?_lt hc
    have := hexValue?_lt hd
    refine ⟨by omega, ?_⟩
    simp only [List.length_cons]
    omega

/-- A text that goes on with the escape of a low surrogate. -/
def LowNext (text : List Char) : Prop :=
  ∃ more low after, text = '\\' :: 'u' :: more ∧ hexQuad? more = some (low, after) ∧
    isLowSurrogate low = true

theorem isLowSurrogate_eq_true_iff {n : Nat} :
    isLowSurrogate n = true ↔ 0xDC00 ≤ n ∧ n ≤ 0xDFFF := by
  simp [isLowSurrogate]

theorem isHighSurrogate_eq_true_iff {n : Nat} :
    isHighSurrogate n = true ↔ 0xD800 ≤ n ∧ n ≤ 0xDBFF := by
  simp [isHighSurrogate]

theorem joinSurrogates_range {high low : Nat} (hhigh : isHighSurrogate high = true)
    (hlow : isLowSurrogate low = true) :
    0x10000 ≤ joinSurrogates high low ∧ joinSurrogates high low < 0x110000 := by
  rw [isHighSurrogate_eq_true_iff] at hhigh
  rw [isLowSurrogate_eq_true_iff] at hlow
  unfold joinSurrogates
  omega

/-- What an escape stands for is in range. It is a surrogate only if it is one by itself, and a high one
only if no low one comes next. -/
theorem unicodeEscape_eq_ok {text rest : List Char} {code : Nat}
    (h : unicodeEscape text = .ok (code, rest)) :
    code < 0x110000 ∧ (isHighSurrogate code = true → ¬LowNext rest) ∧
      (isLowSurrogate code = true → ∃ after, hexQuad? text = some (code, after)) := by
  rw [unicodeEscape] at h
  split at h
  · cases h
  · next high after hquad =>
    have hhigh := (hexQuad?_eq_some hquad).1
    -- The escape stands by itself.
    have halone (hnext : isHighSurrogate high = true → ¬LowNext after)
        (h : (.ok (high, after) : Except JsonFault (Nat × List Char)) = .ok (code, rest)) :
        code < 0x110000 ∧ (isHighSurrogate code = true → ¬LowNext rest) ∧
          (isLowSurrogate code = true → ∃ after, hexQuad? text = some (code, after)) := by
      rw [Except.ok.injEq, Prod.mk.injEq] at h
      obtain ⟨rfl, rfl⟩ := h
      exact ⟨by omega, hnext, fun _ => ⟨_, hquad⟩⟩
    split at h
    · next more =>
      split at h
      · next hboth =>
        split at h
        · cases h
        · next low beyond hlow =>
          split at h
          · next hislow =>
            rw [Except.ok.injEq, Prod.mk.injEq] at h
            obtain ⟨rfl, rfl⟩ := h
            have hrange := joinSurrogates_range hboth.1 hislow
            rw [isHighSurrogate_eq_true_iff, isLowSurrogate_eq_true_iff]
            exact ⟨hrange.2, fun h => by omega, fun h => by omega⟩
          · next hislow =>
            refine halone (fun _ hnext => ?_) h
            obtain ⟨_, low', _, heq, hquad', hlow'⟩ := hnext
            obtain rfl : more = _ := by simpa using heq
            rw [hlow, Option.some.injEq, Prod.mk.injEq] at hquad'
            exact hislow (hquad'.1 ▸ hlow')
      · next hboth =>
        refine halone (fun hh hnext => ?_) h
        obtain ⟨_, low', _, heq, hquad', -⟩ := hnext
        obtain rfl : more = _ := by simpa using heq
        exact hboth ⟨hh, (hexQuad?_eq_some hquad').2⟩
    · next hother =>
      refine halone (fun _ hnext => ?_) h
      obtain ⟨more, _, _, heq, -⟩ := hnext
      exact hother more heq

theorem unicodeEscape_of_single {n : Nat} (h : n < 0x10000) {rest : List Char} (hrest : rest ≠ [])
    (hnext : isHighSurrogate n = true → ∀ more, rest = '\\' :: 'u' :: more →
      ∃ code after, hexQuad? more = some (code, after) ∧ isLowSurrogate code = false) :
    unicodeEscape (hexText n ++ rest) = .ok (n, rest) := by
  rw [unicodeEscape, hexQuad?_hexText h hrest]
  dsimp only
  split
  · next more =>
    split
    · next hboth =>
      obtain ⟨code, after, hquad, hlow⟩ := hnext hboth.1 more rfl
      rw [hquad]
      simp [hlow]
    · rfl
  · rfl

theorem unicodeEscape_of_pair {n : Nat} (hlow : 0x10000 ≤ n) (hhigh : n < 0x110000)
    {rest : List Char} (hrest : rest ≠ []) :
    unicodeEscape (hexText (0xD800 + (n - 0x10000) / 0x400) ++
      (unitEscape (0xDC00 + (n - 0x10000) % 0x400) ++ rest)) = .ok (n, rest) := by
  have hfirst : isHighSurrogate (0xD800 + (n - 0x10000) / 0x400) = true :=
    isHighSurrogate_eq_true_iff.mpr (by omega)
  have hsecond : isLowSurrogate (0xDC00 + (n - 0x10000) % 0x400) = true :=
    isLowSurrogate_eq_true_iff.mpr (by omega)
  have hmore : 4 < (hexText (0xDC00 + (n - 0x10000) % 0x400) ++ rest).length := by
    have := List.length_pos_iff.mpr hrest
    simp only [List.length_append, hexText, List.length_cons, List.length_nil]
    omega
  have hjoin : joinSurrogates (0xD800 + (n - 0x10000) / 0x400)
      (0xDC00 + (n - 0x10000) % 0x400) = n := by
    unfold joinSurrogates
    omega
  rw [unicodeEscape, hexQuad?_hexText (by omega) (by simp [unitEscape_eq])]
  simp only [unitEscape_eq, List.cons_append, hfirst, hmore, and_self, if_true,
    hexQuad?_hexText (show 0xDC00 + (n - 0x10000) % 0x400 < 0x10000 by omega) hrest, hsecond, hjoin]

/-! ## How code points are written -/

/-- The ways in which a code point is written. -/
inductive Spelling (n : Nat) : List Char → Prop
  | simple {c : Char} (h : simpleEscape? c = some n) : Spelling n ['\\', c]
  | plain {c : Char} (hc : c.toNat = n) (hquote : c ≠ '"') (hslash : c ≠ '\\') (hlow : 0x20 ≤ n)
      (hhigh : n < 0x7F) : Spelling n [c]
  | single (h : n < 0x10000) : Spelling n (unitEscape n)
  | pair (h : 0x10000 ≤ n) : Spelling n
      (unitEscape (0xD800 + (n - 0x10000) / 0x400) ++ unitEscape (0xDC00 + (n - 0x10000) % 0x400))

theorem spelling_codePoint (n : Nat) : Spelling n (codePoint n) := by
  rw [codePoint]
  split_ifs with h1 h2 h3 h4 h5 h6 h7 h8 h9
  iterate 7
    · subst n
      exact .simple rfl
  · have htoNat : (Char.ofNat n).toNat = n := toNat_ofNat (by omega)
    refine .plain htoNat (fun heq => h1 ?_) (fun heq => h2 ?_) h8.1 h8.2
    · rw [← htoNat, heq]
      rfl
    · rw [← htoNat, heq]
      rfl
  · exact .single h9
  · exact .pair (by omega)

/-! ## Reading what was written -/

theorem ne_nil_of_written (codes : CodePoints) (rest : List Char) :
    codes.flatMap codePoint ++ '"' :: rest ≠ [] := by
  simp

/-- An escape that a written text begins with is that of its first code point, or of the first of two
surrogates for it. -/
theorem hexQuad?_of_written {codes : CodePoints} {rest more : List Char} (h : codes.Sound)
    (heq : codes.flatMap codePoint ++ '"' :: rest = '\\' :: 'u' :: more) :
    ∃ code after, hexQuad? more = some (code, after) ∧
      (isLowSurrogate code = true → codes.head? = some code) := by
  cases codes with
  | nil => simp at heq
  | cons n codes =>
    have hn := h.bounded n (List.mem_cons_self ..)
    have hspelling := spelling_codePoint n
    rw [List.flatMap_cons, List.append_assoc] at heq
    generalize codePoint n = text at heq hspelling
    cases hspelling with
    | simple hsimple =>
      simp only [List.cons_append, List.cons.injEq, true_and] at heq
      obtain ⟨rfl, -⟩ := heq
      cases hsimple
    | plain _ _ hslash =>
      rw [List.singleton_append, List.cons.injEq] at heq
      exact absurd heq.1 hslash
    | single hn =>
      simp only [unitEscape_eq, List.cons_append, List.cons.injEq, true_and] at heq
      subst heq
      exact ⟨n, _, hexQuad?_hexText hn (ne_nil_of_written codes rest), fun _ => rfl⟩
    | pair =>
      simp only [unitEscape_eq, List.cons_append, List.append_assoc, List.cons.injEq, true_and] at heq
      subst heq
      refine ⟨_, _, hexQuad?_hexText (by omega) (by simp), fun hlow => ?_⟩
      have := isLowSurrogate_eq_true_iff.mp hlow
      omega

theorem stringBody_of_simple {start fuel : Nat} {codes : CodePoints} {c : Char} {n : Nat}
    (h : simpleEscape? c = some n) (rest : List Char) :
    stringBody start (fuel + 1) codes ('\\' :: c :: rest) = stringBody start fuel (n :: codes) rest := by
  have hu : c ≠ 'u' := by
    rintro rfl
    cases h
  rw [stringBody.eq_def]
  split
  · contradiction
  · contradiction
  · simp at *
  · next heq =>
    simp only [List.cons.injEq, true_and] at heq
    subst heq
    split
    · contradiction
    · next heq =>
      simp only [List.cons.injEq] at heq
      exact absurd heq.1 hu
    · next heq =>
      simp only [List.cons.injEq] at heq
      obtain ⟨rfl, rfl⟩ := heq
      simp_all
  · next hslash heq =>
    simp only [List.cons.injEq] at heq
    exact absurd heq.1.symm (by simp_all)

theorem stringBody_of_plain {start fuel : Nat} {codes : CodePoints} {c : Char} (hquote : c ≠ '"')
    (hslash : c ≠ '\\') (hc : 0x20 ≤ c.toNat) (rest : List Char) :
    stringBody start (fuel + 1) codes (c :: rest) = stringBody start fuel (c.toNat :: codes) rest := by
  rw [stringBody]
  · exact if_neg (by omega)
  · exact hquote
  · exact hslash

theorem stringBody_of_unicode {start fuel : Nat} {codes : CodePoints} {more after : List Char}
    {n : Nat} (h : unicodeEscape more = .ok (n, after)) :
    stringBody start (fuel + 1) codes ('\\' :: 'u' :: more) =
      stringBody start fuel (n :: codes) after := by
  rw [stringBody, h]

/-- One code point is read back before whatever text follows it. -/
theorem stringBody_codePoint {start fuel : Nat} {before : CodePoints} {n : Nat} {codes : CodePoints}
    {rest : List Char} (h : CodePoints.Sound (n :: codes)) :
    stringBody start (fuel + 1) before
        (codePoint n ++ (codes.flatMap codePoint ++ '"' :: rest)) =
      stringBody start fuel (n :: before) (codes.flatMap codePoint ++ '"' :: rest) := by
  have hn := h.bounded n (List.mem_cons_self ..)
  have hne := ne_nil_of_written codes rest
  have hspelling := spelling_codePoint n
  generalize codePoint n = text at hspelling ⊢
  cases hspelling with
  | simple hsimple => exact stringBody_of_simple hsimple _
  | plain hc hquote hslash hlow =>
    subst hc
    exact stringBody_of_plain hquote hslash hlow _
  | single hsmall =>
    refine stringBody_of_unicode (unicodeEscape_of_single hsmall hne fun hhigh more heq => ?_)
    obtain ⟨code, after, hquad, hlow⟩ := hexQuad?_of_written h.tail heq
    refine ⟨code, after, hquad, ?_⟩
    -- A low surrogate here would be the next code point.
    by_contra hislow
    rw [Bool.not_eq_false] at hislow
    obtain ⟨codes', rfl⟩ : ∃ codes', codes = code :: codes' := by
      cases codes with
      | nil => cases hlow hislow
      | cons m codes' => exact ⟨codes', by rw [Option.some.inj (hlow hislow)]⟩
    have := (List.isChain_cons_cons.mp h.apart).1 hhigh
    rw [hislow] at this
    cases this
  | pair hlarge =>
    rw [unitEscape_eq, List.append_assoc, List.cons_append, List.cons_append]
    exact stringBody_of_unicode (unicodeEscape_of_pair hlarge hn hne)

theorem stringBody_written {start fuel : Nat} {before codes : CodePoints} {rest : List Char}
    (h : codes.Sound) (hfuel : codes.length < fuel) :
    stringBody start fuel before (codes.flatMap codePoint ++ '"' :: rest) =
      .ok (before.reverse ++ codes, rest) := by
  induction codes generalizing before fuel with
  | nil =>
    obtain ⟨fuel, rfl⟩ : ∃ k, fuel = k + 1 := ⟨fuel - 1, by simp only [List.length_nil] at hfuel; omega⟩
    rw [List.flatMap_nil, List.nil_append, stringBody, List.append_nil]
  | cons n codes ih =>
    obtain ⟨fuel, rfl⟩ : ∃ k, fuel = k + 1 := ⟨fuel - 1, by simp only [List.length_cons] at hfuel; omega⟩
    rw [List.flatMap_cons, List.append_assoc, stringBody_codePoint h,
      ih h.tail (by simp only [List.length_cons] at hfuel; omega), List.reverse_cons,
      List.append_assoc, List.singleton_append]

theorem length_le_flatMap_codePoint (codes : CodePoints) :
    codes.length ≤ (codes.flatMap codePoint).length := by
  induction codes with
  | nil => exact Nat.le_refl _
  | cons n codes ih =>
    have hpos : 0 < (codePoint n).length := by
      have hspelling := spelling_codePoint n
      generalize codePoint n = text at hspelling ⊢
      cases hspelling <;> exact Nat.succ_pos _
    rw [List.flatMap_cons, List.length_append, List.length_cons]
    omega

/-- **A string is read as it was written**, before whatever text follows it. -/
theorem string_written {codes : CodePoints} (h : codes.Sound) (rest : List Char) :
    string (codes.flatMap codePoint ++ '"' :: rest) = .ok (codes, rest) := by
  have hlen := length_le_flatMap_codePoint codes
  rw [string, stringBody_written h]
  · rfl
  · simp only [List.length_append, List.length_cons]
    omega

/-! ## What is read -/

theorem simpleEscape?_lt {c : Char} {n : Nat} (h : simpleEscape? c = some n) : n < 0x80 := by
  unfold simpleEscape? at h
  split at h
  iterate 8
    · obtain rfl := Option.some.inj h
      decide
  · cases h

/-- Reading keeps the code points sound, as long as no low surrogate comes after a high one. -/
theorem sound_of_stringBody {start fuel : Nat} {codes read : CodePoints} {text rest : List Char}
    (h : stringBody start fuel codes text = .ok (read, rest)) (hcodes : CodePoints.Sound codes.reverse)
    (hnext : ∀ n ∈ codes.head?, isHighSurrogate n = true → ¬LowNext text) : read.Sound := by
  -- One code point more, which is a low surrogate only if the text goes on with one.
  have hcons {n : Nat} {text : List Char} {codes : CodePoints} (hcodes : CodePoints.Sound codes.reverse)
      (hnext : ∀ n ∈ codes.head?, isHighSurrogate n = true → ¬LowNext text) (hn : n < 0x110000)
      (hlow : isLowSurrogate n = true → LowNext text) : CodePoints.Sound (n :: codes).reverse := by
    rw [List.reverse_cons]
    refine hcodes.concat hn fun m hm hhigh => ?_
    rw [List.getLast?_reverse] at hm
    by_contra hislow
    exact hnext m hm hhigh (hlow (by simpa using hislow))
  fun_induction stringBody start fuel codes text with
  | case1 => cases h
  | case2 => cases h
  | case3 fuel codes after =>
    rw [Except.ok.injEq, Prod.mk.injEq] at h
    exact h.1 ▸ hcodes
  | case4 => cases h
  | case5 => cases h
  | case6 fuel codes more code after hescape ih =>
    obtain ⟨hcode, hhigh, hlow⟩ := unicodeEscape_eq_ok hescape
    refine ih h (hcons hcodes hnext hcode fun hislow => ?_) fun n hn => ?_
    · obtain ⟨beyond, hquad⟩ := hlow hislow
      exact ⟨more, code, beyond, rfl, hquad, hislow⟩
    · obtain rfl : code = n := by simpa using hn
      exact hhigh
  | case7 => cases h
  | case8 fuel codes c more hu code hsimple ih =>
    have hcode := simpleEscape?_lt hsimple
    refine ih h (hcons hcodes hnext (by omega) fun hislow => ?_) fun n hn hhigh => ?_
    · have := isLowSurrogate_eq_true_iff.mp hislow
      omega
    · obtain rfl : code = n := by simpa using hn
      have := isHighSurrogate_eq_true_iff.mp hhigh
      omega
  | case9 => cases h
  | case10 fuel codes c more hquote hslash hcontrol ih =>
    have hvalid : c.toNat < 0xD800 ∨ 0xDFFF < c.toNat ∧ c.toNat < 0x110000 := c.valid
    obtain ⟨hhigh, hlow⟩ := CodePoints.isSurrogate_toNat c
    refine ih h (hcons hcodes hnext (by omega) fun hislow => ?_) fun n hn hishigh => ?_
    · rw [hlow] at hislow
      cases hislow
    · obtain rfl : c.toNat = n := by simpa using hn
      rw [hhigh] at hishigh
      cases hishigh

theorem sound_of_string {text rest : List Char} {codes : CodePoints}
    (h : string text = .ok (codes, rest)) : codes.Sound :=
  sound_of_stringBody h CodePoints.sound_nil (by simp)

end JsonReader

end ElmSuite

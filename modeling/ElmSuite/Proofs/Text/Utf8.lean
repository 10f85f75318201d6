import ElmSuite.Proofs.Text.Ascii

/-!
# Encoding and decoding text

A text that is encoded is decoded as it was, and bytes are decoded in parts as they are
at once. Bytes are decoded if and only if a text starts with them, so that a line feed never
belongs to what comes before it.
-/

namespace ElmSuite.Utf8

/-! ## Decoding in parts -/

section Parts

variable {d after : Decoder} {text : List Char} {bytes : List UInt8}

theorem decodeFrom_complete {b : UInt8} {c : Char} (h : step d b = .complete c) (read : List Char)
    (rest : List UInt8) : decodeFrom d read (b :: rest) = decodeFrom .ready (c :: read) rest := by
  rw [decodeFrom, h]

theorem decodeFrom_needsMore {b : UInt8} (h : step d b = .needsMore after) (read : List Char)
    (rest : List UInt8) : decodeFrom d read (b :: rest) = decodeFrom after read rest := by
  rw [decodeFrom, h]

theorem decodeFrom_refused {b : UInt8} (h : step d b = .refused) (read : List Char)
    (rest : List UInt8) : decodeFrom d read (b :: rest) = none := by
  rw [decodeFrom, h]

/-- What was read before the bytes stands before their text. -/
theorem decodeFrom_eq_map (d : Decoder) (read : List Char) (bytes : List UInt8) :
    decodeFrom d read bytes = (decodeFrom d [] bytes).map fun p => (read.reverse ++ p.1, p.2) := by
  induction bytes generalizing d read with
  | nil => simp [decodeFrom]
  | cons b rest ih =>
    cases h : step d b with
    | complete c =>
      rw [decodeFrom_complete h, decodeFrom_complete h, ih, ih .ready [c], Option.map_map]
      simp [Function.comp_def]
    | needsMore after => rw [decodeFrom_needsMore h, decodeFrom_needsMore h, ih]
    | refused => rw [decodeFrom_refused h, decodeFrom_refused h, Option.map_none]

/-- Bytes that follow others are decoded on from where those end. -/
theorem decodeFrom_append (d : Decoder) (read : List Char) (bytes more : List UInt8) :
    decodeFrom d read (bytes ++ more) =
      (decodeFrom d read bytes).bind fun p => decodeFrom p.2 p.1.reverse more := by
  induction bytes generalizing d read with
  | nil => simp [decodeFrom]
  | cons b rest ih =>
    rw [List.cons_append]
    cases h : step d b with
    | complete c => rw [decodeFrom_complete h, decodeFrom_complete h, ih]
    | needsMore after => rw [decodeFrom_needsMore h, decodeFrom_needsMore h, ih]
    | refused => rw [decodeFrom_refused h, decodeFrom_refused h, Option.bind_none]

/-- What bytes start with is decoded if they are. -/
theorem exists_decodeFrom_of_append {more : List UInt8}
    (h : decodeFrom d [] (bytes ++ more) = some (text, after)) :
    ∃ front between rest, decodeFrom d [] bytes = some (front, between) ∧
      decodeFrom between [] more = some (rest, after) ∧ text = front ++ rest := by
  rw [decodeFrom_append, Option.bind_eq_some_iff] at h
  obtain ⟨⟨front, between⟩, hfront, hmore⟩ := h
  rw [decodeFrom_eq_map, Option.map_eq_some_iff] at hmore
  obtain ⟨⟨rest, after'⟩, hrest, heq⟩ := hmore
  simp only [List.reverse_reverse, Prod.mk.injEq] at heq
  obtain ⟨rfl, rfl⟩ := heq
  exact ⟨front, between, rest, hfront, hrest, rfl⟩

end Parts

/-! ## The bytes of a character -/

theorem toNat_ofNat_of_lt {n : Nat} (h : n < 256) : (UInt8.ofNat n).toNat = n := by
  rw [UInt8.toNat_ofNat']
  omega

section Bytes

variable {v : Nat} {a b c d : UInt8}

theorem toNat_charOfNat (h : v < 0xD800 ∨ 0xDFFF < v ∧ v < 0x110000) :
    (Char.ofNat v).val.toNat = v := by
  rw [Char.ofNat, dif_pos h]
  rfl

theorem ofNat_eq_of_toNat {n : Nat} (h : a.toNat = n) : UInt8.ofNat n = a := by
  rw [← h, UInt8.ofNat_toNat]

theorem utf8EncodeChar_one (hv : v ≤ 127) (ha : a.toNat = v) :
    String.utf8EncodeChar (Char.ofNat v) = [a] := by
  rw [String.utf8EncodeChar, toNat_charOfNat (by omega), if_pos hv, ofNat_eq_of_toNat ha]

theorem utf8EncodeChar_two (hlo : 127 < v) (hhi : v ≤ 2047) (ha : a.toNat = v / 64 % 32 + 192)
    (hb : b.toNat = v % 64 + 128) : String.utf8EncodeChar (Char.ofNat v) = [a, b] := by
  rw [String.utf8EncodeChar, toNat_charOfNat (by omega), if_neg (by omega), if_pos hhi,
    ofNat_eq_of_toNat ha, ofNat_eq_of_toNat hb]

theorem utf8EncodeChar_three (hlo : 2047 < v) (hhi : v ≤ 65535) (hvalid : v < 0xD800 ∨ 0xDFFF < v)
    (ha : a.toNat = v / 4096 % 16 + 224) (hb : b.toNat = v / 64 % 64 + 128)
    (hc : c.toNat = v % 64 + 128) : String.utf8EncodeChar (Char.ofNat v) = [a, b, c] := by
  rw [String.utf8EncodeChar, toNat_charOfNat (by omega), if_neg (by omega), if_neg (by omega),
    if_pos hhi, ofNat_eq_of_toNat ha, ofNat_eq_of_toNat hb, ofNat_eq_of_toNat hc]

theorem utf8EncodeChar_four (hlo : 65535 < v) (hhi : v < 0x110000)
    (ha : a.toNat = v / 262144 % 8 + 240) (hb : b.toNat = v / 4096 % 64 + 128)
    (hc : c.toNat = v / 64 % 64 + 128) (hd : d.toNat = v % 64 + 128) :
    String.utf8EncodeChar (Char.ofNat v) = [a, b, c, d] := by
  rw [String.utf8EncodeChar, toNat_charOfNat (by omega), if_neg (by omega), if_neg (by omega),
    if_neg (by omega), ofNat_eq_of_toNat ha, ofNat_eq_of_toNat hb, ofNat_eq_of_toNat hc,
    ofNat_eq_of_toNat hd]

end Bytes

/-- Whatever `missing + 1` bytes a decoder takes after the bytes `held`, all of them are the bytes
of the character that it makes of them. -/
def Completes : Nat → Nat → UInt8 → UInt8 → List UInt8 → Prop
  | 0, code, low, high, held => ∀ b, low ≤ b → b ≤ high →
    String.utf8EncodeChar (Char.ofNat (code * 64 + (b.toNat - 0x80))) = held ++ [b]
  | missing + 1, code, low, high, held => ∀ b, low ≤ b → b ≤ high →
    Completes missing (code * 64 + (b.toNat - 0x80)) 0x80 0xBF (held ++ [b])

/-- The bytes `held` are what a decoder holds of a character, and it goes on with continuation
bytes. -/
def Decoder.Holds : Decoder → List UInt8 → Prop
  | .ready, held => held = []
  | .pending missing code low high, held =>
    0x80 ≤ low ∧ low ≤ high ∧ Completes missing code low high held

theorem byte_of_range {b : UInt8} (hlo : 0x80 ≤ b) (hhi : b ≤ 0xBF) :
    128 ≤ b.toNat ∧ b.toNat ≤ 191 :=
  ⟨UInt8.le_iff_toNat_le.mp hlo, UInt8.le_iff_toNat_le.mp hhi⟩

section Start

variable {a low high : UInt8} {code : Nat}

theorem completes_two (hlo : 0xC2 ≤ a.toNat) (hhi : a.toNat < 0xE0) :
    Completes 0 (a.toNat - 0xC0) 0x80 0xBF [a] := by
  intro b hb hb'
  obtain ⟨hblo, hbhi⟩ := byte_of_range hb hb'
  exact utf8EncodeChar_two (by omega) (by omega) (by omega) (by omega)

theorem completes_three (ha : a.toNat = code + 0xE0) (hcode : code < 16) (hlow : 0x80 ≤ low.toNat)
    (hhigh : high.toNat ≤ 0xBF) (hshort : code = 0 → 0xA0 ≤ low.toNat)
    (hsurrogates : code = 0xD → high.toNat ≤ 0x9F) : Completes 1 code low high [a] := by
  intro b hb hb' c hc hc'
  have hblo := UInt8.le_iff_toNat_le.mp hb
  have hbhi := UInt8.le_iff_toNat_le.mp hb'
  obtain ⟨hclo, hchi⟩ := byte_of_range hc hc'
  exact utf8EncodeChar_three (by omega) (by omega) (by omega) (by omega) (by omega) (by omega)

theorem completes_four (ha : a.toNat = code + 0xF0) (hcode : code ≤ 4) (hlow : 0x80 ≤ low.toNat)
    (hhigh : high.toNat ≤ 0xBF) (hshort : code = 0 → 0x90 ≤ low.toNat)
    (hlast : code = 4 → high.toNat ≤ 0x8F) : Completes 2 code low high [a] := by
  intro b hb hb' c hc hc' d hd hd'
  have hblo := UInt8.le_iff_toNat_le.mp hb
  have hbhi := UInt8.le_iff_toNat_le.mp hb'
  obtain ⟨hclo, hchi⟩ := byte_of_range hc hc'
  obtain ⟨hdlo, hdhi⟩ := byte_of_range hd hd'
  exact utf8EncodeChar_four (by omega) (by omega) (by omega) (by omega) (by omega) (by omega)

end Start

/-- What the first byte of a character leads to. -/
theorem firstByte_cases (a : UInt8) :
    (∃ c, firstByte a = .complete c ∧ String.utf8EncodeChar c = [a]) ∨ firstByte a = .refused ∨
      ∃ d, firstByte a = .needsMore d ∧ d.Holds [a] := by
  unfold firstByte expect
  dsimp only
  by_cases hone : a.toNat < 0x80
  · rw [if_pos hone]
    exact .inl ⟨_, rfl, utf8EncodeChar_one (by omega) rfl⟩
  by_cases hnone : a.toNat < 0xC2
  · rw [if_neg hone, if_pos hnone]
    exact .inr (.inl rfl)
  by_cases htwo : a.toNat < 0xE0
  · rw [if_neg hone, if_neg hnone, if_pos htwo]
    exact .inr (.inr ⟨_, rfl, by decide, by decide, completes_two (by omega) htwo⟩)
  rw [if_neg hone, if_neg hnone, if_neg htwo]
  by_cases hE0 : a.toNat = 0xE0
  · rw [if_pos hE0]
    exact .inr (.inr ⟨_, rfl, by decide, by decide, completes_three hE0 (by decide) (by decide)
      (by decide) (by decide) (by decide)⟩)
  by_cases hED : a.toNat = 0xED
  · rw [if_neg hE0, if_pos hED]
    exact .inr (.inr ⟨_, rfl, by decide, by decide, completes_three hED (by decide) (by decide)
      (by decide) (by decide) (by decide)⟩)
  by_cases hthree : a.toNat < 0xF0
  · rw [if_neg hE0, if_neg hED, if_pos hthree]
    exact .inr (.inr ⟨_, rfl, by decide, by decide, completes_three (by omega) (by omega) (by decide)
      (by decide) (by omega) (by omega)⟩)
  rw [if_neg hE0, if_neg hED, if_neg hthree]
  by_cases hF0 : a.toNat = 0xF0
  · rw [if_pos hF0]
    exact .inr (.inr ⟨_, rfl, by decide, by decide, completes_four hF0 (by decide) (by decide)
      (by decide) (by decide) (by decide)⟩)
  by_cases hfour : a.toNat < 0xF4
  · rw [if_neg hF0, if_pos hfour]
    exact .inr (.inr ⟨_, rfl, by decide, by decide, completes_four (by omega) (by omega) (by decide)
      (by decide) (by omega) (by omega)⟩)
  by_cases hF4 : a.toNat = 0xF4
  · rw [if_neg hF0, if_neg hfour, if_pos hF4]
    exact .inr (.inr ⟨_, rfl, by decide, by decide, completes_four hF4 (by decide) (by decide)
      (by decide) (by decide) (by decide)⟩)
  · rw [if_neg hF0, if_neg hfour, if_neg hF4]
    exact .inr (.inl rfl)

/-- A byte more completes the character whose bytes were read, or is held. -/
theorem step_cases {d : Decoder} {held : List UInt8} (hd : d.Holds held) (b : UInt8) :
    (∃ c, step d b = .complete c ∧ String.utf8EncodeChar c = held ++ [b]) ∨ step d b = .refused ∨
      ∃ after, step d b = .needsMore after ∧ after.Holds (held ++ [b]) := by
  cases d with
  | ready =>
    obtain rfl : held = [] := hd
    exact firstByte_cases b
  | pending missing code low high =>
    obtain ⟨-, -, hcompletes⟩ := hd
    by_cases hrange : low ≤ b ∧ b ≤ high
    · rw [step, if_pos hrange]
      cases missing with
      | zero => exact .inl ⟨_, rfl, hcompletes b hrange.1 hrange.2⟩
      | succ missing =>
        exact .inr (.inr ⟨_, rfl, by decide, by decide, hcompletes b hrange.1 hrange.2⟩)
    · rw [step, if_neg hrange]
      exact .inr (.inl rfl)

/-! ## Bytes that are decoded -/

/-- Bytes that are decoded are those of the text, and what the decoder holds. -/
theorem exists_held_of_decodeFrom {d after : Decoder} {held bytes : List UInt8} {text : List Char}
    (hd : d.Holds held) (h : decodeFrom d [] bytes = some (text, after)) :
    ∃ rest, after.Holds rest ∧ held ++ bytes = text.flatMap String.utf8EncodeChar ++ rest := by
  induction bytes generalizing d held text with
  | nil =>
    obtain ⟨rfl, rfl⟩ := Prod.mk.inj (Option.some.inj h)
    exact ⟨held, hd, by simp⟩
  | cons b more ih =>
    rcases step_cases hd b with ⟨c, hstep, hchar⟩ | hstep | ⟨next, hstep, hnext⟩
    · rw [decodeFrom_complete hstep, decodeFrom_eq_map, Option.map_eq_some_iff] at h
      obtain ⟨⟨tail, last⟩, hmore, heq⟩ := h
      obtain ⟨rfl, rfl⟩ := Prod.mk.inj heq
      obtain ⟨rest, hrest, hbytes⟩ := ih (d := .ready) rfl hmore
      rw [List.nil_append] at hbytes
      exact ⟨rest, hrest, by simp [hbytes, hchar]⟩
    · rw [decodeFrom_refused hstep] at h
      cases h
    · rw [decodeFrom_needsMore hstep] at h
      obtain ⟨rest, hrest, hbytes⟩ := ih hnext h
      exact ⟨rest, hrest, by rw [← hbytes, List.append_assoc, List.singleton_append]⟩

/-- What a decoder waits for can follow. -/
theorem exists_completion {missing code : Nat} {low high : UInt8} {held : List UInt8}
    (hrange : low ≤ high) (h : Completes missing code low high held) :
    ∃ c more, String.utf8EncodeChar c = held ++ more := by
  induction missing generalizing code low high held with
  | zero => exact ⟨_, [low], h low (UInt8.le_refl low) hrange⟩
  | succ missing ih =>
    obtain ⟨c, more, hmore⟩ := ih (by decide) (h low (UInt8.le_refl low) hrange)
    exact ⟨c, low :: more, by rw [hmore, List.append_assoc, List.singleton_append]⟩

/-- Bytes that end with a line feed are decoded to whole characters, of which it is the last. -/
theorem decodeFrom_concat_lineFeed {after : Decoder} {text : List Char} {bytes : List UInt8}
    (h : decodeFrom .ready [] (bytes ++ [10]) = some (text, after)) :
    after = .ready ∧ ∃ front, text = front ++ ['\n'] := by
  obtain ⟨front, between, rest, hfront, hfeed, rfl⟩ := exists_decodeFrom_of_append h
  cases between with
  | ready =>
    obtain ⟨rfl, rfl⟩ := Prod.mk.inj (Option.some.inj hfeed)
    exact ⟨rfl, front, rfl⟩
  | pending missing code low high =>
    obtain ⟨held, ⟨hlow, -⟩, -⟩ := exists_held_of_decodeFrom (d := .ready) rfl hfront
    have hrefused : step (.pending missing code low high) 10 = .refused := by
      refine if_neg fun hrange => ?_
      exact absurd (UInt8.le_trans hlow hrange.1) (by decide)
    rw [decodeFrom_refused hrefused] at hfeed
    cases hfeed

/-! ## Encoded text -/

section Continuation

variable {missing code x : Nat}

/-- A continuation byte in the range that is expected, and the bits in it. -/
theorem continuation {low high : UInt8} (hx : x < 64) (hlow : low.toNat ≤ x + 128)
    (hhigh : x + 128 ≤ high.toNat) :
    (low ≤ UInt8.ofNat (x + 128) ∧ UInt8.ofNat (x + 128) ≤ high) ∧
      (UInt8.ofNat (x + 128)).toNat - 0x80 = x := by
  have hbyte : (UInt8.ofNat (x + 128)).toNat = x + 128 := toNat_ofNat_of_lt (by omega)
  rw [UInt8.le_iff_toNat_le, UInt8.le_iff_toNat_le, hbyte]
  exact ⟨⟨hlow, hhigh⟩, by omega⟩

theorem step_pending {low high : UInt8} (hx : x < 64) (hlow : low.toNat ≤ x + 128)
    (hhigh : x + 128 ≤ high.toNat) :
    step (.pending (missing + 1) code low high) (UInt8.ofNat (x + 128)) =
      .needsMore (.pending missing (code * 64 + x) 0x80 0xBF) := by
  obtain ⟨hrange, hbits⟩ := continuation hx hlow hhigh
  simp only [step, if_pos hrange, hbits]

theorem step_next (hx : x < 64) :
    step (.pending (missing + 1) code 0x80 0xBF) (UInt8.ofNat (x + 128)) =
      .needsMore (.pending missing (code * 64 + x) 0x80 0xBF) :=
  step_pending hx (Nat.le_add_left 128 x) (show x + 128 ≤ 191 by omega)

theorem step_last (hx : x < 64) :
    step (.pending 0 code 0x80 0xBF) (UInt8.ofNat (x + 128)) =
      .complete (Char.ofNat (code * 64 + x)) := by
  have hlow : (0x80 : UInt8).toNat ≤ x + 128 := Nat.le_add_left 128 x
  have hhigh : x + 128 ≤ (0xBF : UInt8).toNat := show x + 128 ≤ 191 by omega
  obtain ⟨hrange, hbits⟩ := continuation hx hlow hhigh
  simp only [step, if_pos hrange, hbits]

end Continuation

/-- The code of a character leaves out the surrogates. -/
theorem toNat_cases (c : Char) : c.toNat < 0xD800 ∨ 0xDFFF < c.toNat ∧ c.toNat < 0x110000 :=
  c.valid

/-! The first byte of a character gives the upper part of its code `v`, and a range for the second
byte in which that byte lies. -/

section FirstByte

variable {v : Nat}

theorem firstByte_one (h : v < 0x80) : step .ready (UInt8.ofNat v) = .complete (Char.ofNat v) := by
  rw [step, firstByte, toNat_ofNat_of_lt (show v < 256 by omega)]
  rw [if_pos h]

theorem firstByte_two (hlo : 0x7F < v) (hhi : v ≤ 0x7FF) :
    step .ready (UInt8.ofNat (v / 64 % 32 + 192)) = .needsMore (.pending 0 (v / 64) 0x80 0xBF) := by
  have hcode : v / 64 % 32 + 192 - 0xC0 = v / 64 := by omega
  rw [step, firstByte, toNat_ofNat_of_lt (show v / 64 % 32 + 192 < 256 by omega)]
  rw [if_neg (by omega), if_neg (by omega), if_pos (by omega), expect, hcode]

theorem firstByte_three (hlo : 0x7FF < v) (hhi : v ≤ 0xFFFF) (hvalid : v < 0xD800 ∨ 0xDFFF < v) :
    ∃ low high : UInt8,
      step .ready (UInt8.ofNat (v / 4096 % 16 + 224)) =
        .needsMore (.pending 1 (v / 4096) low high) ∧
      low.toNat ≤ v / 64 % 64 + 128 ∧ v / 64 % 64 + 128 ≤ high.toNat := by
  have hcode : v / 4096 % 16 + 224 - 0xE0 = v / 4096 := by omega
  rw [step, firstByte, toNat_ofNat_of_lt (show v / 4096 % 16 + 224 < 256 by omega)]
  rw [if_neg (by omega), if_neg (by omega), if_neg (by omega)]
  by_cases hshort : v < 0x1000
  · refine ⟨0xA0, 0xBF, ?_, ?_, ?_⟩
    · rw [if_pos (by omega), Nat.div_eq_of_lt hshort, expect]
    · change 160 ≤ v / 64 % 64 + 128
      omega
    · change v / 64 % 64 + 128 ≤ 191
      omega
  · rw [if_neg (by omega)]
    by_cases hsurrogates : v / 4096 = 13
    · refine ⟨0x80, 0x9F, ?_, ?_, ?_⟩
      · rw [if_pos (by omega), hsurrogates, expect]
      · change 128 ≤ v / 64 % 64 + 128
        omega
      · change v / 64 % 64 + 128 ≤ 159
        omega
    · refine ⟨0x80, 0xBF, ?_, ?_, ?_⟩
      · rw [if_neg (by omega), if_pos (by omega), expect, hcode]
      · change 128 ≤ v / 64 % 64 + 128
        omega
      · change v / 64 % 64 + 128 ≤ 191
        omega

theorem firstByte_four (hlo : 0xFFFF < v) (hhi : v < 0x110000) :
    ∃ low high : UInt8,
      step .ready (UInt8.ofNat (v / 262144 % 8 + 240)) =
        .needsMore (.pending 2 (v / 262144) low high) ∧
      low.toNat ≤ v / 4096 % 64 + 128 ∧ v / 4096 % 64 + 128 ≤ high.toNat := by
  have hcode : v / 262144 % 8 + 240 - 0xF0 = v / 262144 := by omega
  rw [step, firstByte, toNat_ofNat_of_lt (show v / 262144 % 8 + 240 < 256 by omega)]
  rw [if_neg (by omega), if_neg (by omega), if_neg (by omega), if_neg (by omega), if_neg (by omega),
    if_neg (by omega)]
  by_cases hshort : v < 0x40000
  · refine ⟨0x90, 0xBF, ?_, ?_, ?_⟩
    · rw [if_pos (by omega), Nat.div_eq_of_lt hshort, expect]
    · change 144 ≤ v / 4096 % 64 + 128
      omega
    · change v / 4096 % 64 + 128 ≤ 191
      omega
  · rw [if_neg (by omega)]
    by_cases hlast : v / 262144 = 4
    · refine ⟨0x80, 0x8F, ?_, ?_, ?_⟩
      · rw [if_neg (by omega), if_pos (by omega), hlast, expect]
      · change 128 ≤ v / 4096 % 64 + 128
        omega
      · change v / 4096 % 64 + 128 ≤ 143
        omega
    · refine ⟨0x80, 0xBF, ?_, ?_, ?_⟩
      · rw [if_pos (by omega), expect, hcode]
      · change 128 ≤ v / 4096 % 64 + 128
        omega
      · change v / 4096 % 64 + 128 ≤ 191
        omega

end FirstByte

/-- The bytes of a character are decoded to it. -/
theorem decodeFrom_utf8EncodeChar (c : Char) (read : List Char) (rest : List UInt8) :
    decodeFrom .ready read (String.utf8EncodeChar c ++ rest) =
      decodeFrom .ready (c :: read) rest := by
  have hvalid := toNat_cases c
  have hchar : Char.ofNat c.toNat = c := Char.ofNat_toNat c
  have hval : c.val.toNat = c.toNat := rfl
  simp only [String.utf8EncodeChar, hval]
  generalize c.toNat = v at hvalid hchar
  have hlast : v % 64 < 64 := Nat.mod_lt v (by decide)
  have hnext : v / 64 % 64 < 64 := Nat.mod_lt _ (by decide)
  split_ifs with hone htwo hthree
  · have hstep := firstByte_one (v := v) (by omega)
    rw [hchar] at hstep
    exact decodeFrom_complete hstep read rest
  · have hcode : v / 64 * 64 + v % 64 = v := by omega
    simp only [List.cons_append, List.nil_append]
    rw [decodeFrom_needsMore (firstByte_two (by omega) htwo),
      decodeFrom_complete (step_last hlast), hcode, hchar]
  · obtain ⟨low, high, hfirst, hlow, hhigh⟩ := firstByte_three (v := v) (by omega) hthree (by omega)
    have hcode : (v / 4096 * 64 + v / 64 % 64) * 64 + v % 64 = v := by omega
    simp only [List.cons_append, List.nil_append]
    rw [decodeFrom_needsMore hfirst, decodeFrom_needsMore (step_pending hnext hlow hhigh),
      decodeFrom_complete (step_last hlast), hcode, hchar]
  · obtain ⟨low, high, hfirst, hlow, hhigh⟩ := firstByte_four (v := v) (by omega) (by omega)
    have hcode : ((v / 262144 * 64 + v / 4096 % 64) * 64 + v / 64 % 64) * 64 + v % 64 = v := by omega
    simp only [List.cons_append, List.nil_append]
    rw [decodeFrom_needsMore hfirst,
      decodeFrom_needsMore (step_pending (Nat.mod_lt _ (by decide)) hlow hhigh),
      decodeFrom_needsMore (step_next hnext),
      decodeFrom_complete (step_last hlast), hcode, hchar]

/-- **Encoded text is decoded as it was.** -/
theorem decodeFrom_encoded (text read : List Char) :
    decodeFrom .ready read (text.flatMap String.utf8EncodeChar) =
      some (read.reverse ++ text, .ready) := by
  induction text generalizing read with
  | nil => simp [decodeFrom]
  | cons c text ih =>
    rw [List.flatMap_cons, decodeFrom_utf8EncodeChar, ih, List.reverse_cons, List.append_assoc,
      List.singleton_append]

theorem decodeFrom_toUTF8 (s : String) :
    decodeFrom .ready [] s.toUTF8.toList = some (s.toList, .ready) := by
  rw [toUTF8_toList, decodeFrom_encoded]
  rfl

/-- Bytes are decoded, but for an unfinished character at their end, if a text starts with them. -/
theorem exists_decodeFrom_iff {bytes : List UInt8} :
    (∃ text d, decodeFrom .ready [] bytes = some (text, d)) ↔
      ∃ s : String, bytes <+: s.toUTF8.toList := by
  constructor
  · rintro ⟨text, d, h⟩
    obtain ⟨rest, hrest, hbytes⟩ := exists_held_of_decodeFrom (d := .ready) rfl h
    rw [List.nil_append] at hbytes
    cases d with
    | ready =>
      obtain rfl : rest = [] := hrest
      refine ⟨String.ofList text, [], ?_⟩
      rw [hbytes, List.append_nil, List.append_nil, toUTF8_toList, String.toList_ofList]
    | pending missing code low high =>
      obtain ⟨c, more, hmore⟩ := exists_completion hrest.2.1 hrest.2.2
      refine ⟨String.ofList (text ++ [c]), more, ?_⟩
      rw [toUTF8_toList, String.toList_ofList, hbytes, List.append_assoc, ← hmore]
      simp
  · rintro ⟨s, more, hmore⟩
    have hdecode := decodeFrom_toUTF8 s
    rw [← hmore] at hdecode
    obtain ⟨front, between, -, hfront, -⟩ := exists_decodeFrom_of_append hdecode
    exact ⟨front, between, hfront⟩

end ElmSuite.Utf8

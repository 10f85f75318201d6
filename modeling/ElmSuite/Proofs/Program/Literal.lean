import ElmSuite.Program.Literal

/-!
# Reading literals

A literal is read up to the quote that ends it, whatever follows. The reader knows
the escapes by a letter, and those by a code of four digits. What a literal may look
like is said apart from the reader, and from how literals are written: the reader reads
every such text, so that none stands for two strings.
-/

namespace ElmSuite.Literal

/-! ## The reader -/

/-- The value of an upper case hexadecimal digit. -/
def hexValue? (c : Char) : Option Nat := "0123456789ABCDEF".toList.idxOf? c

/-- The number that four digits stand for. -/
def codeOf? (a b c d : Char) : Option Nat := do
  return (← hexValue? a) * 0x1000 + (← hexValue? b) * 0x100 + (← hexValue? c) * 0x10 +
    (← hexValue? d)

/-- The character that a letter behind a backslash stands for. -/
def letterEscape? : Char → Option Char
  | '\\' => some '\\'
  | '"' => some '"'
  | 'n' => some '\n'
  | 'r' => some '\r'
  | 't' => some '\t'
  | _ => none

/-- Reads the inside of a literal and the quote that ends it. -/
def readInside : List Char → Option (List Char × List Char)
  | [] => none
  | '"' :: rest => some ([], rest)
  | '\\' :: 'u' :: '\x7b' :: a :: b :: c :: d :: '\x7d' :: rest =>
    (codeOf? a b c d).bind fun n => (readInside rest).map fun (s, left) => (Char.ofNat n :: s, left)
  | '\\' :: letter :: rest =>
    (letterEscape? letter).bind fun c => (readInside rest).map fun (s, left) => (c :: s, left)
  | c :: rest =>
    if c = '\\' ∨ c = '\n' then none else (readInside rest).map fun (s, left) => (c :: s, left)

/-- Reads a literal. The result is the string and what follows the literal. -/
def read? : List Char → Option (String × List Char)
  | '"' :: rest => (readInside rest).map fun (s, left) => (String.ofList s, left)
  | _ => none

/-! ## Digits -/

theorem hexValue?_hexDigit (n : Nat) : hexValue? (hexDigit n) = some (n % 16) := by
  have hsmall : ∀ k < 16, hexValue? ((Nat.digitChar k).toUpper) = some k := by decide
  exact hsmall (n % 16) (Nat.mod_lt n (by decide))

theorem codeOf?_hexDigits {n : Nat} (h : n < 0x10000) :
    codeOf? (hexDigit (n / 0x1000)) (hexDigit (n / 0x100)) (hexDigit (n / 0x10)) (hexDigit n) =
      some n := by
  have hsum : n / 0x1000 % 16 * 0x1000 + n / 0x100 % 16 * 0x100 + n / 0x10 % 16 * 0x10 + n % 16 =
      n := by
    omega
  simp only [codeOf?, hexValue?_hexDigit, Option.pure_def, Option.bind_eq_bind, Option.bind_some,
    hsum]

/-! ## What may be written -/

/-- Whether a character is a control character of ASCII. -/
def IsControl (c : Char) : Prop := c.toNat < 0x20 ∨ c.toNat = 0x7F

/-- A piece of the inside of a literal with the character that it stands for: an escape by a letter,
an escape by a code, or a character that stands for itself. -/
inductive Piece : List Char → Char → Prop
  | letter {letter c : Char} (h : letterEscape? letter = some c) : Piece ['\\', letter] c
  | code {a b c d : Char} {n : Nat} (h : codeOf? a b c d = some n) (hvalid : n.isValidChar) :
      Piece ['\\', 'u', '\x7b', a, b, c, d, '\x7d'] (Char.ofNat n)
  | plain {c : Char} (hquote : c ≠ '"') (hslash : c ≠ '\\') (hcontrol : ¬IsControl c) : Piece [c] c

/-- The inside of a literal with what it stands for: pieces one after the other. -/
inductive Inside : List Char → List Char → Prop
  | nil : Inside [] []
  | cons {piece rest : List Char} {c : Char} {s : List Char} (h : Piece piece c)
      (hrest : Inside rest s) : Inside (piece ++ rest) (c :: s)

/-- Whether a text is a literal of a string: quotes around an inside that stands for it. -/
def IsLiteralOf (text : List Char) (s : String) : Prop :=
  ∃ inside, text = '"' :: (inside ++ ['"']) ∧ Inside inside s.toList

theorem not_isControl_of_letterEscape? {letter c : Char} (h : letterEscape? letter = some c) :
    ¬IsControl letter := by
  unfold letterEscape? at h
  split at h
  case h_6 => cases h
  all_goals rw [IsControl]; decide

theorem not_isControl_of_hexValue? {c : Char} {n : Nat} (h : hexValue? c = some n) :
    ¬IsControl c := by
  have hdigits : ∀ c ∈ "0123456789ABCDEF".toList, ¬(c.toNat < 0x20 ∨ c.toNat = 0x7F) := by simp
  exact hdigits c (List.isSome_idxOf?.mp (Option.isSome_of_eq_some h))

theorem exists_hexValue?_of_codeOf? {a b c d : Char} {n : Nat} (h : codeOf? a b c d = some n) :
    ∀ digit ∈ [a, b, c, d], ∃ value, hexValue? digit = some value := by
  simp only [codeOf?, Option.bind_eq_bind, Option.bind_eq_some_iff] at h
  obtain ⟨_, ha, _, hb, _, hc, _, hd, -⟩ := h
  simp [ha, hb, hc, hd]

/-- No piece holds a control character. -/
theorem Piece.not_isControl {piece : List Char} {c : Char} (h : Piece piece c) :
    ∀ x ∈ piece, ¬IsControl x := by
  have hfixed : ∀ x ∈ ['\\', 'u', '\x7b', '\x7d'], ¬(x.toNat < 0x20 ∨ x.toNat = 0x7F) := by simp
  cases h with
  | letter h =>
    rw [List.forall_mem_cons, List.forall_mem_singleton]
    exact ⟨hfixed _ (by decide), not_isControl_of_letterEscape? h⟩
  | code h =>
    intro x hx
    by_cases hmark : x ∈ ['\\', 'u', '\x7b', '\x7d']
    · exact hfixed x hmark
    · obtain ⟨value, hvalue⟩ := exists_hexValue?_of_codeOf? h x (by grind)
      exact not_isControl_of_hexValue? hvalue
  | plain _ _ hcontrol => exact List.forall_mem_singleton.mpr hcontrol

theorem Inside.not_isControl {inside s : List Char} (h : Inside inside s) :
    ∀ x ∈ inside, ¬IsControl x := by
  induction h with
  | nil => nofun
  | cons h _ ih => exact List.forall_mem_append.mpr ⟨h.not_isControl, ih⟩

/-- No literal holds a control character. -/
theorem IsLiteralOf.not_isControl {text : List Char} {s : String} (h : IsLiteralOf text s) :
    ∀ x ∈ text, ¬IsControl x := by
  have hquote : ¬IsControl '"' := by rw [IsControl]; decide
  obtain ⟨inside, rfl, hinside⟩ := h
  rw [List.forall_mem_cons, List.forall_mem_append, List.forall_mem_singleton]
  exact ⟨hquote, hinside.not_isControl, hquote⟩

/-! ## Reading what may be written -/

/-- A piece is read as the character that it stands for. -/
theorem Piece.readInside {piece : List Char} {c : Char} (h : Piece piece c) (rest : List Char) :
    readInside (piece ++ rest) = (readInside rest).map fun (s, left) => (c :: s, left) := by
  cases h with
  | letter h =>
    unfold letterEscape? at h
    split at h
    case h_6 => cases h
    all_goals
      cases h
      rfl
  | code h =>
    change (codeOf? _ _ _ _).bind _ = _
    rw [h, Option.bind_some]
    rfl
  | plain hquote hslash hcontrol =>
    have hfeed : c ≠ '\n' := by
      rintro rfl
      exact hcontrol (.inl (by decide))
    rw [List.singleton_append, readInside.eq_def]
    split <;> simp_all

theorem Inside.readInside {inside s : List Char} (h : Inside inside s) (rest : List Char) :
    readInside (inside ++ '"' :: rest) = some (s, rest) := by
  induction h with
  | nil => rfl
  | cons h _ ih => rw [List.append_assoc, h.readInside, ih, Option.map_some]

/-- A literal is read as its string, whatever follows. -/
theorem IsLiteralOf.read? {text : List Char} {s : String} (h : IsLiteralOf text s)
    (rest : List Char) : read? (text ++ rest) = some (s, rest) := by
  obtain ⟨inside, rfl, hinside⟩ := h
  rw [List.cons_append, List.append_assoc, List.singleton_append]
  change (Literal.readInside _).map _ = _
  rw [hinside.readInside, Option.map_some]
  simp

/-- Where a literal ends and what it stands for is seen from the literal. -/
theorem IsLiteralOf.append_inj {x y a b : List Char} {s t : String} (hx : IsLiteralOf x s)
    (hy : IsLiteralOf y t) (h : x ++ a = y ++ b) : s = t ∧ a = b := by
  have hread := hx.read? a
  rw [h, hy.read?, Option.some.injEq, Prod.mk.injEq] at hread
  exact ⟨hread.1.symm, hread.2.symm⟩

/-! ## Reading what was written -/

/-- What is written for a character stands for it. -/
theorem piece_encodeChar (c : Char) : Piece (encodeChar c) c := by
  unfold encodeChar
  by_cases hslash : c = '\\'
  · subst hslash
    exact .letter rfl
  by_cases hquote : c = '"'
  · subst hquote
    exact .letter rfl
  by_cases hfeed : c = '\n'
  · subst hfeed
    exact .letter rfl
  by_cases hreturn : c = '\r'
  · subst hreturn
    exact .letter rfl
  by_cases htab : c = '\t'
  · subst htab
    exact .letter rfl
  rw [if_neg hslash, if_neg hquote, if_neg hfeed, if_neg hreturn, if_neg htab]
  by_cases hcontrol : c.toNat < 0x20 ∨ c.toNat = 0x7F
  · rw [if_pos hcontrol]
    have hpiece := Piece.code (codeOf?_hexDigits (show c.toNat < 0x10000 by omega)) c.valid
    rwa [Char.ofNat_toNat] at hpiece
  · rw [if_neg hcontrol]
    exact .plain hquote hslash hcontrol

theorem inside_encode (s : List Char) : Inside (encode s) s := by
  induction s with
  | nil => exact .nil
  | cons c s ih => exact .cons (piece_encodeChar c) ih

theorem isLiteralOf_literal (s : String) : IsLiteralOf (literal s) s := ⟨_, rfl, inside_encode _⟩

theorem read?_literal (s : String) (rest : List Char) :
    read? (literal s ++ rest) = some (s, rest) :=
  (isLiteralOf_literal s).read? rest

/-- A literal stands on one line. -/
theorem newline_not_mem_literal (s : String) : '\n' ∉ literal s := fun h =>
  (isLiteralOf_literal s).not_isControl _ h (.inl (by decide))

end ElmSuite.Literal

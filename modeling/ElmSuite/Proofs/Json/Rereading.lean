import ElmSuite.Proofs.Json.Values

/-!
# Reading JSON that was written

A sound value is read from its text, whatever follows, as a value like it. The text is
in ASCII, with line feeds only between lines.
-/

namespace ElmSuite

open JsonValue

/-! ## Blanks -/

namespace JsonReader

theorem skipSpace_cons {c : Char} (h : isSpace c = false) (text : List Char) :
    skipSpace (c :: text) = c :: text := by
  rw [skipSpace, List.dropWhile_cons_of_neg (by simp [h])]

theorem skipSpace_newLine (level : Nat) {c : Char} (h : isSpace c = false) (text : List Char) :
    skipSpace (JsonPrinter.newLine level ++ c :: text) = c :: text := by
  rw [skipSpace, List.dropWhile_append_of_pos, List.dropWhile_cons_of_neg (by simp [h])]
  intro d hd
  rcases List.mem_cons.mp hd with rfl | hd
  · rfl
  · obtain rfl := List.eq_of_mem_replicate hd
    rfl

theorem pastNumber_newLine (level : Nat) (text : List Char) :
    PastNumber (JsonPrinter.newLine level ++ text) :=
  pastNumber_cons _ (by decide)

theorem pastNumber_comma (text : List Char) : PastNumber (',' :: text) :=
  pastNumber_cons text (by decide)

end JsonReader

/-! ## What is written -/

namespace JsonPrinter

variable (level : Nat)

theorem value_null : value level .null = "null".toList := rfl

theorem value_bool (b : Bool) :
    value level (.bool b) = (if b then "true" else "false").toList := rfl

theorem value_integer (n : Int) : value level (.integer n) = (toString n).toList := rfl

theorem value_double (x : Double) : value level (.double x) = x.text doubleLayout := rfl

theorem value_string (s : CodePoints) : value level (.string s) = string s := rfl

theorem value_emptyArray : value level (.array []) = ['[', ']'] := rfl

theorem value_array (x : JsonValue) (xs : List JsonValue) :
    value level (.array (x :: xs)) = '[' :: (newLine (level + 1) ++ value (level + 1) x ++
      items (level + 1) xs ++ newLine level ++ [']']) := rfl

theorem value_emptyObject : value level (.object []) = ['\x7b', '\x7d'] := rfl

theorem value_object (k : CodePoints) (x : JsonValue) (fs : List (CodePoints × JsonValue)) :
    value level (.object ((k, x) :: fs)) = '\x7b' :: (newLine (level + 1) ++ string k ++ [':', ' '] ++
      value (level + 1) x ++ fields (level + 1) fs ++ newLine level ++ ['\x7d']) := rfl

theorem items_cons (x : JsonValue) (xs : List JsonValue) :
    items level (x :: xs) = ',' :: (newLine level ++ value level x ++ items level xs) := rfl

theorem fields_nil : fields level [] = [] := rfl

theorem fields_cons (k : CodePoints) (x : JsonValue) (fs : List (CodePoints × JsonValue)) :
    fields level ((k, x) :: fs) = ',' :: (newLine level ++ string k ++ [':', ' '] ++ value level x ++
      fields level fs) := rfl

end JsonPrinter

/-! ## How texts begin -/

namespace JsonPrinter

open JsonReader

/-- Whether a text can begin a number or a word. -/
def beginsScalar (c : Char) : Bool := c ∈ ['n', 't', 'f', 'N', 'I', '-'] || c.isDigit

theorem exists_cons_integer (n : Int) :
    ∃ c text, (toString n).toList = c :: text ∧ beginsScalar c = true := by
  cases n with
  | ofNat k =>
    obtain ⟨c, ds, hds, hc⟩ := (isWhole_toDigits k).exists_digit
    exact ⟨c, ds, by rw [toList_ofNat, hds], by simp [beginsScalar, hc]⟩
  | negSucc k =>
    exact ⟨'-', Nat.toDigits 10 (k + 1), toList_negSucc k, rfl⟩

theorem exists_cons_double (x : Double) :
    ∃ c text, x.text doubleLayout = c :: text ∧ beginsScalar c = true := by
  cases x with
  | notANumber => exact ⟨'N', ['a', 'N'], rfl, rfl⟩
  | infinite negative =>
    cases negative with
    | false => exact ⟨'I', "nfinity".toList, rfl, rfl⟩
    | true => exact ⟨'-', "Infinity".toList, rfl, rfl⟩
  | finite negative significand exponent =>
    obtain ⟨text, hdecimal, htext⟩ := text_finite negative significand exponent
    obtain ⟨c, more, rfl, hc⟩ := hdecimal.exists_digit
    cases negative with
    | false => exact ⟨c, more, htext, by simp [beginsScalar, hc]⟩
    | true => exact ⟨'-', c :: more, htext, rfl⟩

/-- A word or a number begins with no blank, and is not the end of an array. -/
theorem outside_of_beginsScalar {c : Char} (h : beginsScalar c = true) :
    isSpace c = false ∧ c ≠ ']' := by
  have hne : ∀ d : Char, beginsScalar d = false → c ≠ d := fun _ => ne_of_test h
  simp [isSpace, hne ' ' rfl, hne '\t' rfl, hne '\n' rfl, hne '\r' rfl, hne ']' rfl]

/-- No text begins with a blank or with a closing bracket or brace. -/
theorem exists_cons_value (level : Nat) (v : JsonValue) :
    ∃ c text, value level v = c :: text ∧ isSpace c = false ∧ c ≠ ']' := by
  cases v with
  | null => exact ⟨'n', _, value_null level, rfl, by decide⟩
  | bool b => cases b <;> exact ⟨_, _, value_bool level _, rfl, by decide⟩
  | integer n =>
    obtain ⟨c, text, htext, hc⟩ := exists_cons_integer n
    exact ⟨c, text, by rw [value_integer, htext], outside_of_beginsScalar hc⟩
  | double x =>
    obtain ⟨c, text, htext, hc⟩ := exists_cons_double x
    exact ⟨c, text, by rw [value_double, htext], outside_of_beginsScalar hc⟩
  | string s => exact ⟨'"', _, value_string level s, rfl, by decide⟩
  | array xs =>
    cases xs with
    | nil => exact ⟨'[', _, value_emptyArray level, rfl, by decide⟩
    | cons x xs => exact ⟨'[', _, value_array level x xs, rfl, by decide⟩
  | object fs =>
    cases fs with
    | nil => exact ⟨'\x7b', _, value_emptyObject level, rfl, by decide⟩
    | cons f fs => exact ⟨'\x7b', _, value_object level f.1 f.2 fs, rfl, by decide⟩

end JsonPrinter

/-! ## Rereading -/

namespace JsonReader

open JsonPrinter

theorem value_of_beginsScalar {c : Char} (h : beginsScalar c = true) (fuel : Nat)
    (text : List Char) : value (fuel + 1) (c :: text) = scalar (c :: text) := by
  have hne : ∀ d : Char, beginsScalar d = false → c ≠ d := fun _ => ne_of_test h
  rw [value]
  · exact fun rest heq => hne '"' rfl (List.cons.inj heq).1
  · exact fun rest heq => hne '[' rfl (List.cons.inj heq).1
  · exact fun rest heq => hne '\x7b' rfl (List.cons.inj heq).1

/-- A value is read from its text as one like it, before a text that does not go on with a number. -/
def Rereads (v : JsonValue) : Prop :=
  ∀ ⦃level fuel : Nat⦄ ⦃rest : List Char⦄, v.Sound → (JsonPrinter.value level v).length ≤ fuel →
    PastNumber rest →
    ∃ w, value fuel (JsonPrinter.value level v ++ rest) = .ok (w, rest) ∧ Like v w

/-- Reading a text takes fuel, since the text is not empty. -/
theorem exists_fuel {level fuel : Nat} {v : JsonValue}
    (h : (JsonPrinter.value level v).length ≤ fuel) : ∃ k, fuel = k + 1 := by
  obtain ⟨c, text, htext, -, -⟩ := exists_cons_value level v
  rw [htext, List.length_cons] at h
  exact ⟨fuel - 1, by omega⟩

theorem rereads_null : Rereads .null := by
  intro level fuel rest _ hfuel _
  obtain ⟨fuel, rfl⟩ := exists_fuel hfuel
  refine ⟨.null, ?_, .null⟩
  rw [value_null]
  exact (value_of_beginsScalar (c := 'n') rfl fuel _).trans
    (scalar_word "null" .null (by simp [words, List.isPrefixOf]))

theorem rereads_bool (b : Bool) : Rereads (.bool b) := by
  intro level fuel rest _ hfuel _
  obtain ⟨fuel, rfl⟩ := exists_fuel hfuel
  refine ⟨.bool b, ?_, .bool b⟩
  rw [value_bool]
  cases b with
  | false =>
    exact (value_of_beginsScalar (c := 'f') rfl fuel _).trans
      (scalar_word "false" (.bool false) (by simp [words, List.isPrefixOf]))
  | true =>
    exact (value_of_beginsScalar (c := 't') rfl fuel _).trans
      (scalar_word "true" (.bool true) (by simp [words, List.isPrefixOf]))

theorem rereads_integer (n : Int) : Rereads (.integer n) := by
  intro level fuel rest hsound hfuel hrest
  obtain ⟨fuel, rfl⟩ := exists_fuel hfuel
  obtain ⟨c, text, htext, hc⟩ := exists_cons_integer n
  have hdigits : (Nat.toDigits 10 n.natAbs).length ≤ maxDigits := by
    cases hsound with
    | integer h => exact h
  refine ⟨.integer n, ?_, .integer n⟩
  rw [value_integer, htext, List.cons_append, value_of_beginsScalar hc, ← List.cons_append,
    ← htext]
  exact scalar_integer hdigits hrest

theorem rereads_double (x : Double) : Rereads (.double x) := by
  intro level fuel rest _ hfuel hrest
  obtain ⟨fuel, rfl⟩ := exists_fuel hfuel
  obtain ⟨c, text, htext, hc⟩ := exists_cons_double x
  obtain ⟨y, hy⟩ := scalar_double x hrest
  refine ⟨.double y, ?_, .double x y⟩
  rw [value_double, htext, List.cons_append, value_of_beginsScalar hc, ← List.cons_append,
    ← htext]
  exact hy

theorem string_of_written {codes : CodePoints} (h : codes.Sound) (rest : List Char) :
    JsonPrinter.string codes ++ rest = '"' :: (codes.flatMap codePoint ++ '"' :: rest) ∧
      string (codes.flatMap codePoint ++ '"' :: rest) = .ok (codes, rest) :=
  ⟨by simp [JsonPrinter.string], string_written h rest⟩

theorem rereads_string (codes : CodePoints) : Rereads (.string codes) := by
  intro level fuel rest hsound hfuel _
  obtain ⟨fuel, rfl⟩ := exists_fuel hfuel
  have hcodes : codes.Sound := by
    cases hsound with
    | string h => exact h
  obtain ⟨htext, hread⟩ := string_of_written hcodes rest
  refine ⟨.string codes, ?_, .string codes⟩
  rw [value_string, htext, value, hread]
  rfl

/-! ### Items -/

theorem items_of_last {fuel : Nat} {text rest after : List Char} {x : JsonValue}
    (hx : value fuel text = .ok (x, rest)) (hrest : skipSpace rest = ']' :: after) :
    items (fuel + 1) text = .ok ([x], after) := by
  simp only [items, hx, hrest]

theorem items_of_more {fuel : Nat} {text rest more after : List Char} {x : JsonValue}
    {xs : List JsonValue} (hx : value fuel text = .ok (x, rest))
    (hrest : skipSpace rest = ',' :: more) (hmore : items fuel (skipSpace more) = .ok (xs, after)) :
    items (fuel + 1) text = .ok (x :: xs, after) := by
  simp only [items, hx, hrest, hmore]
  rfl

/-- Items are read one by one up to the closing bracket. -/
theorem items_written {x : JsonValue} {xs : List JsonValue} (h : ∀ y ∈ x :: xs, Rereads y)
    (hsound : ∀ y ∈ x :: xs, y.Sound) (level outer fuel : Nat)
    (hfuel : (JsonPrinter.value level x).length + (JsonPrinter.items level xs).length < fuel)
    (rest : List Char) :
    ∃ ys, items fuel (JsonPrinter.value level x ++
        (JsonPrinter.items level xs ++ (newLine outer ++ ']' :: rest))) = .ok (ys, rest) ∧
      List.Forall₂ Like (x :: xs) ys := by
  obtain ⟨fuel, rfl⟩ : ∃ k, fuel = k + 1 := ⟨fuel - 1, by omega⟩
  have hx := h x (List.mem_cons_self ..)
  have hxsound := hsound x (List.mem_cons_self ..)
  induction xs generalizing x fuel with
  | nil =>
    obtain ⟨w, hread, hlike⟩ := hx hxsound (show (JsonPrinter.value level x).length ≤ fuel by omega)
      (pastNumber_newLine outer (']' :: rest))
    exact ⟨[w], items_of_last hread (skipSpace_newLine outer rfl rest), .cons hlike .nil⟩
  | cons y ys ih =>
    rw [items_cons] at hfuel ⊢
    simp only [List.length_cons, List.length_append] at hfuel
    obtain ⟨fuel, rfl⟩ : ∃ k, fuel = k + 1 := ⟨fuel - 1, by omega⟩
    obtain ⟨w, hread, hlike⟩ := hx hxsound
      (show (JsonPrinter.value level x).length ≤ fuel + 1 by omega) (pastNumber_comma
        (newLine level ++ JsonPrinter.value level y ++ JsonPrinter.items level ys ++
          (newLine outer ++ ']' :: rest)))
    obtain ⟨ws, hmore, hlikes⟩ := ih (fun z hz => h z (List.mem_cons_of_mem x hz))
      (fun z hz => hsound z (List.mem_cons_of_mem x hz)) fuel (by omega)
      (h y (by simp)) (hsound y (by simp))
    obtain ⟨c, text, htext, hc, -⟩ := exists_cons_value level y
    refine ⟨w :: ws, items_of_more hread (skipSpace_cons rfl _) ?_, .cons hlike hlikes⟩
    rw [List.append_assoc, List.append_assoc, htext, List.cons_append, skipSpace_newLine level hc,
      ← List.cons_append, ← htext]
    exact hmore

theorem value_of_items {fuel : Nat} {text rest : List Char} {xs : List JsonValue}
    (hnot : ∀ after, skipSpace text ≠ ']' :: after)
    (h : items fuel (skipSpace text) = .ok (xs, rest)) :
    value (fuel + 1) ('[' :: text) = .ok (.array xs, rest) := by
  rw [value]
  split
  · next heq => exact absurd heq (hnot _)
  · rw [h]
    rfl

theorem rereads_array {xs : List JsonValue} (h : ∀ x ∈ xs, Rereads x) : Rereads (.array xs) := by
  intro level fuel rest hsound hfuel _
  obtain ⟨fuel, rfl⟩ := exists_fuel hfuel
  have hitems : ∀ x ∈ xs, x.Sound := by
    cases hsound with
    | array h => exact h
  cases xs with
  | nil =>
    refine ⟨.array [], ?_, .array .nil⟩
    rw [value_emptyArray, List.cons_append, value]
    rfl
  | cons x xs =>
    rw [value_array] at hfuel ⊢
    simp only [List.length_cons, List.length_append] at hfuel
    obtain ⟨ys, hread, hlikes⟩ := items_written h hitems (level + 1) level fuel (by omega)
      rest
    obtain ⟨c, text, htext, hc, hclose⟩ := exists_cons_value (level + 1) x
    have hskip : skipSpace (newLine (level + 1) ++ JsonPrinter.value (level + 1) x ++
        JsonPrinter.items (level + 1) xs ++ newLine level ++ [']'] ++ rest) =
          JsonPrinter.value (level + 1) x ++ (JsonPrinter.items (level + 1) xs ++
            (newLine level ++ ']' :: rest)) := by
      simp only [List.append_assoc, List.singleton_append]
      rw [htext, List.cons_append, skipSpace_newLine (level + 1) hc]
    refine ⟨.array ys, ?_, .array hlikes⟩
    rw [List.cons_append]
    refine value_of_items (fun after heq => ?_) (by rw [hskip, hread])
    rw [hskip, htext, List.cons_append] at heq
    exact hclose (List.cons.inj heq).1

/-! ### Fields -/

/-- Reading a field up to after its value. -/
structure ReadsField (fuel : Nat) (text : List Char) (key : CodePoints) (x : JsonValue)
    (rest : List Char) : Prop where
  /-- The text is that of the key, a colon and the value. -/
  parts : ∃ keyText colon valueText, text = '"' :: keyText ∧ string keyText = .ok (key, colon) ∧
    skipSpace colon = ':' :: valueText ∧ value fuel (skipSpace valueText) = .ok (x, rest)

theorem fields_of_last {fuel : Nat} {text rest after : List Char} {key : CodePoints} {x : JsonValue}
    {before : List (CodePoints × JsonValue)} (h : ReadsField fuel text key x rest)
    (hrest : skipSpace rest = '\x7d' :: after) :
    fields (fuel + 1) before text = .ok (setField key x before, after) := by
  obtain ⟨keyText, colon, valueText, rfl, hkey, hcolon, hx⟩ := h.parts
  simp only [fields, hkey, hcolon, hx, hrest]

theorem fields_of_more {fuel : Nat} {text rest more : List Char} {key : CodePoints} {x : JsonValue}
    {before : List (CodePoints × JsonValue)} (h : ReadsField fuel text key x rest)
    (hrest : skipSpace rest = ',' :: more) :
    fields (fuel + 1) before text = fields fuel (setField key x before) (skipSpace more) := by
  obtain ⟨keyText, colon, valueText, rfl, hkey, hcolon, hx⟩ := h.parts
  simp only [fields, hkey, hcolon, hx, hrest]

theorem readsField_written {level fuel : Nat} {key : CodePoints} {x : JsonValue}
    {rest : List Char} (hx : Rereads x) (hkey : key.Sound) (hsound : x.Sound)
    (hfuel : (JsonPrinter.value level x).length ≤ fuel) (hrest : PastNumber rest) :
    ∃ w, ReadsField fuel (JsonPrinter.string key ++ (':' :: ' ' ::
      (JsonPrinter.value level x ++ rest))) key w rest ∧ Like x w := by
  obtain ⟨w, hread, hlike⟩ := hx hsound hfuel hrest
  obtain ⟨c, text, htext, hc, -⟩ := exists_cons_value level x
  obtain ⟨hquote, hstring⟩ := string_of_written hkey
    (':' :: ' ' :: (JsonPrinter.value level x ++ rest))
  have hskip : skipSpace (' ' :: (JsonPrinter.value level x ++ rest)) =
      JsonPrinter.value level x ++ rest := by
    rw [htext, List.cons_append]
    exact skipSpace_cons hc _
  exact ⟨w, ⟨_, _, _, hquote, hstring, skipSpace_cons rfl _, by rw [hskip, hread]⟩, hlike⟩

/-- Fields are read one by one, on top of those before them, up to the closing brace. -/
theorem fields_written {f : CodePoints × JsonValue} {fs : List (CodePoints × JsonValue)}
    (before : List (CodePoints × JsonValue)) (h : ∀ g ∈ f :: fs, Rereads g.2)
    (hsound : SoundFields (f :: fs)) (hnew : ∀ k ∈ before.map Prod.fst, k ∉ (f :: fs).map Prod.fst)
    (level outer fuel : Nat)
    (hfuel : (JsonPrinter.value level f.2).length + (JsonPrinter.fields level fs).length < fuel)
    (rest : List Char) :
    ∃ gs, fields fuel before (JsonPrinter.string f.1 ++ (':' :: ' ' ::
        (JsonPrinter.value level f.2 ++ (JsonPrinter.fields level fs ++
          (newLine outer ++ '\x7d' :: rest))))) = .ok (before ++ gs, rest) ∧
      (f :: fs).map Prod.fst = gs.map Prod.fst ∧
      List.Forall₂ Like ((f :: fs).map Prod.snd) (gs.map Prod.snd) := by
  obtain ⟨fuel, rfl⟩ : ∃ k, fuel = k + 1 := ⟨fuel - 1, by omega⟩
  have hf := h f (List.mem_cons_self ..)
  have hkey := hsound.keys f (List.mem_cons_self ..)
  have hvalue := hsound.values f (List.mem_cons_self ..)
  have hnot : f.1 ∉ before.map Prod.fst := fun hmem => hnew _ hmem (by simp)
  induction fs generalizing f before fuel with
  | nil =>
    obtain ⟨w, hread, hlike⟩ := readsField_written hf hkey hvalue
      (show (JsonPrinter.value level f.2).length ≤ fuel by omega)
      (pastNumber_newLine outer ('\x7d' :: rest))
    refine ⟨[(f.1, w)], ?_, rfl, .cons hlike .nil⟩
    rw [fields_nil, List.nil_append, ← setField_of_not_mem hnot]
    exact fields_of_last hread (skipSpace_newLine outer rfl rest)
  | cons g fs ih =>
    obtain ⟨k, y⟩ := g
    rw [fields_cons] at hfuel ⊢
    simp only [List.length_cons, List.length_append] at hfuel
    obtain ⟨w, hread, hlike⟩ := readsField_written hf hkey hvalue
      (show (JsonPrinter.value level f.2).length ≤ fuel by omega) (pastNumber_comma
        (newLine level ++ JsonPrinter.string k ++ [':', ' '] ++ JsonPrinter.value level y ++
          JsonPrinter.fields level fs ++ (newLine outer ++ '\x7d' :: rest)))
    obtain ⟨fuel, rfl⟩ : ∃ k, fuel = k + 1 := ⟨fuel - 1, by omega⟩
    have hother : ∀ k' ∈ (before ++ [(f.1, w)]).map Prod.fst, k' ∉ ((k, y) :: fs).map Prod.fst := by
      intro k' hk'
      rw [List.map_append, List.mem_append] at hk'
      rcases hk' with hk' | hk'
      · exact fun hmem => hnew k' hk' (List.mem_cons_of_mem _ hmem)
      · rw [List.mem_singleton.mp hk']
        exact (List.nodup_cons.mp hsound.nodup).1
    obtain ⟨gs, hmore, hkeys, hlikes⟩ := ih (f := (k, y)) (before ++ [(f.1, w)])
      (fun g hg => h g (List.mem_cons_of_mem f hg)) hsound.tail hother fuel (by simp only; omega)
      (h (k, y) (by simp)) (hsound.keys (k, y) (by simp)) (hsound.values (k, y) (by simp))
      (fun hmem => hother k hmem (by simp))
    refine ⟨(f.1, w) :: gs, ?_, by rw [List.map_cons, hkeys]; rfl, .cons hlike hlikes⟩
    refine (fields_of_more hread (skipSpace_cons rfl _)).trans ?_
    rw [setField_of_not_mem hnot]
    simp only [List.append_assoc, List.cons_append, List.nil_append]
    have hquote := (string_of_written (hsound.keys (k, y) (by simp)) (':' :: ' ' ::
        (JsonPrinter.value level y ++ (JsonPrinter.fields level fs ++
          (newLine outer ++ '\x7d' :: rest))))).1
    rw [hquote] at hmore ⊢
    rw [skipSpace_newLine level rfl, hmore, List.append_assoc, List.singleton_append]

theorem value_of_fields {fuel : Nat} {text rest : List Char} {fs : List (CodePoints × JsonValue)}
    (hnot : ∀ after, skipSpace text ≠ '\x7d' :: after)
    (h : fields fuel [] (skipSpace text) = .ok (fs, rest)) :
    value (fuel + 1) ('\x7b' :: text) = .ok (.object fs, rest) := by
  rw [value]
  split
  · next heq => exact absurd heq (hnot _)
  · rw [h]
    rfl

theorem rereads_object {fs : List (CodePoints × JsonValue)} (h : ∀ f ∈ fs, Rereads f.2) :
    Rereads (.object fs) := by
  intro level fuel rest hsound hfuel _
  obtain ⟨fuel, rfl⟩ := exists_fuel hfuel
  have hfields := hsound.fields
  cases fs with
  | nil =>
    refine ⟨.object [], ?_, .object rfl .nil⟩
    rw [value_emptyObject, List.cons_append, value]
    rfl
  | cons f fs =>
    obtain ⟨k, x⟩ := f
    rw [value_object] at hfuel ⊢
    simp only [List.length_cons, List.length_append] at hfuel
    obtain ⟨gs, hread, hkeys, hlikes⟩ := fields_written [] h hfields (by simp) (level + 1) level fuel
      (by simp only; omega) rest
    refine ⟨.object gs, ?_, .object hkeys hlikes⟩
    have hquote := (string_of_written (hfields.keys (k, x) (by simp)) (':' :: ' ' ::
        (JsonPrinter.value (level + 1) x ++ (JsonPrinter.fields (level + 1) fs ++
          (newLine level ++ '\x7d' :: rest))))).1
    simp only [List.append_assoc, List.cons_append, List.nil_append]
    rw [hquote] at hread ⊢
    refine value_of_fields (fun after heq => ?_) ?_
    · rw [skipSpace_newLine (level + 1) rfl] at heq
      simp at heq
    · rw [skipSpace_newLine (level + 1) rfl, hread, List.nil_append]

/-- **A sound value is read from its text** as one like it, whatever follows. -/
theorem rereads (v : JsonValue) : Rereads v := by
  induction v using JsonValue.induction with
  | null => exact rereads_null
  | bool b => exact rereads_bool b
  | integer n => exact rereads_integer n
  | double x => exact rereads_double x
  | string s => exact rereads_string s
  | array xs ih => exact rereads_array ih
  | object fs ih => exact rereads_object ih

/-- A sound object is read from the text of its document as one like it. -/
theorem document_written {fs : List (CodePoints × JsonValue)} (h : SoundFields fs) :
    ∃ gs, document ((JsonPrinter.document (.object fs)).toList ++ ['\n']) = .ok (.object gs) ∧
      fs.map Prod.fst = gs.map Prod.fst ∧
      List.Forall₂ Like (fs.map Prod.snd) (gs.map Prod.snd) := by
  obtain ⟨text, htext⟩ : ∃ text, JsonPrinter.value 0 (.object fs) = '\x7b' :: text := by
    cases fs with
    | nil => exact ⟨_, value_emptyObject 0⟩
    | cons f fs => exact ⟨_, value_object 0 f.1 f.2 fs⟩
  obtain ⟨w, hread, hlike⟩ : ∃ w, value (2 * (JsonPrinter.value 0 (.object fs) ++ ['\n']).length + 2)
      (JsonPrinter.value 0 (.object fs) ++ ['\n']) = .ok (w, ['\n']) ∧ Like (.object fs) w :=
    rereads (.object fs) (.object h.keys h.nodup h.values) (by rw [List.length_append]; omega)
      (pastNumber_newLine 0 [])
  cases hlike with
  | object hkeys hlikes =>
    refine ⟨_, ?_, hkeys, hlikes⟩
    rw [JsonPrinter.document, String.toList_ofList, document, if_neg (by simp [htext]), htext,
      List.cons_append, skipSpace_cons rfl, ← List.cons_append, ← htext, hread]
    rfl

end JsonReader

end ElmSuite

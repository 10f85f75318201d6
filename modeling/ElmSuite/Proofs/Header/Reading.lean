import ElmSuite.Proofs.Header.WholeText
import ElmSuite.Proofs.Text.Trim

/-!
# What a header is

The rules by which a header is read, said without the scanner: what a module
declaration starts with, where the exposing list stands in the text behind it,
and what is wrong with a header that has none. Every file falls under exactly one
of the rules, and the scanner answers by it.
-/

namespace ElmSuite.Header

open HeaderPhase Parentheses Text

/-- The module keyword, which `port` or `effect` and blank characters may come before. -/
inductive IsModuleKeyword : List Char → Prop
  | plain : IsModuleKeyword "module".toList
  | qualified {qualifier blanks : List Char}
      (hqualifier : qualifier = "port".toList ∨ qualifier = "effect".toList)
      (hne : blanks ≠ []) (hblank : ∀ c ∈ blanks, isBlank c = true) :
      IsModuleKeyword (qualifier ++ (blanks ++ "module".toList))

/-- `line` starts with the module keyword, and a blank character or nothing stands behind it. -/
def DeclaresModule (line after : List Char) : Prop :=
  ∃ keyword, IsModuleKeyword keyword ∧ line = keyword ++ after ∧
    ∀ c ∈ after.head?, isBlank c = true

/-- `content` is what follows the first opening parenthesis of a text. -/
def OpensList (text content : List Char) : Prop :=
  ∃ skipped, '(' ∉ skipped ∧ text = skipped ++ '(' :: content

/-- How the lines with content of a file are read. -/
inductive Reads : List (List Char) → Except HeaderFault Exposing → Prop
  /-- There is no content. -/
  | empty : Reads [] (.error .unfinished)
  /-- The first line is no module declaration. -/
  | undeclared {first : List Char} {rest : List (List Char)}
      (hdecl : ∀ after, ¬ DeclaresModule first after) :
      Reads (first :: rest) (.error .missingModule)
  /-- The word `exposing` does not occur. -/
  | wordless {first after : List Char} {rest : List (List Char)}
      (hdecl : DeclaresModule first after)
      (hword : ∀ before behind, ¬ WholeWordAt false exposingWord
        ([' '].intercalate (after :: rest)) before behind) :
      Reads (first :: rest) (.error .unfinished)
  /-- No parenthesis is opened behind the word. -/
  | unopened {first after before behind : List Char} {rest : List (List Char)}
      (hdecl : DeclaresModule first after)
      (hword : FirstWholeWord false exposingWord
        ([' '].intercalate (after :: rest)) before behind)
      (hopen : ∀ content, ¬ OpensList behind content) :
      Reads (first :: rest) (.error .unfinished)
  /-- The first parenthesis is not closed. -/
  | unclosed {first after before behind content : List Char} {rest : List (List Char)}
      (hdecl : DeclaresModule first after)
      (hword : FirstWholeWord false exposingWord
        ([' '].intercalate (after :: rest)) before behind)
      (hopen : OpensList behind content)
      (hclose : ∀ inner tail, content = inner ++ ')' :: tail → ¬ Balanced inner) :
      Reads (first :: rest) (.error .unfinished)
  /-- The list stands between the first parenthesis and the one that closes it. -/
  | closed {first after before behind content inner tail : List Char} {rest : List (List Char)}
      (hdecl : DeclaresModule first after)
      (hword : FirstWholeWord false exposingWord
        ([' '].intercalate (after :: rest)) before behind)
      (hopen : OpensList behind content)
      (hclose : content = inner ++ ')' :: tail) (hbalanced : Balanced inner) :
      Reads (first :: rest) (.ok (Exposing.split inner))

/-! ## The module keyword -/

theorem afterStart?_eq_some_iff {word text rest : List Char} :
    afterStart? word text = some rest ↔ text = word ++ rest := by
  unfold afterStart?
  constructor
  · intro h
    split at h
    · rename_i hpre
      obtain ⟨more, rfl⟩ := List.isPrefixOf_iff_prefix.mp hpre
      rw [List.drop_left] at h
      rw [Option.some.inj h]
    · simp at h
  · rintro rfl
    rw [if_pos (by simp), List.drop_left]

theorem afterQualifier?_eq_some_iff {word text rest : List Char} :
    afterQualifier? word text = some rest ↔
      ∃ blanks, blanks ≠ [] ∧ (∀ c ∈ blanks, isBlank c = true) ∧
        (∀ c ∈ rest.head?, isBlank c = false) ∧ text = word ++ (blanks ++ rest) := by
  unfold afterQualifier?
  constructor
  · intro h
    split at h
    · rename_i c more hstart
      split at h
      · rename_i hc
        refine ⟨c :: more.takeWhile isBlank, by simp, ?_, ?_, ?_⟩
        · intro d hd
          rcases List.mem_cons.mp hd with rfl | hd
          · exact hc
          · exact List.all_eq_true.mp List.all_takeWhile d hd
        · intro d hd
          have hnot := List.head?_dropWhile_not isBlank more
          rw [← Option.some.inj h, trimLeft] at hd
          rwa [Option.mem_def.mp hd] at hnot
        · rw [afterStart?_eq_some_iff.mp hstart, ← Option.some.inj h, trimLeft, List.cons_append,
            List.takeWhile_append_dropWhile]
      · simp at h
    · simp at h
  · rintro ⟨blanks, hne, hblank, hrest, rfl⟩
    cases blanks with
    | nil => exact absurd rfl hne
    | cons c more =>
      have hstart : afterStart? word (word ++ (c :: more ++ rest)) = some (c :: (more ++ rest)) :=
        afterStart?_eq_some_iff.mpr rfl
      have hmore : ∀ d ∈ more, isBlank d = true := fun d hd =>
        hblank d (List.mem_cons_of_mem c hd)
      simp only [hstart, hblank c (List.mem_cons_self ..), if_true, trimLeft_append hmore hrest]

/-- What stands behind a qualifier and the blank characters after it, or the whole line. -/
def afterQualifiers (line : List Char) : List Char :=
  (afterQualifier? "port".toList line <|> afterQualifier? "effect".toList line).getD line

theorem afterModule?_eq_some_iff_afterQualifiers {line after : List Char} :
    afterModule? line = some after ↔
      afterQualifiers line = "module".toList ++ after ∧ ∀ c ∈ after.head?, isBlank c = true := by
  rw [← afterStart?_eq_some_iff, afterModule?, ← afterQualifiers]
  cases afterStart? "module".toList (afterQualifiers line) with
  | none => simp
  | some rest =>
    cases rest with
    | nil => cases after <;> simp
    | cons c rest =>
      by_cases hc : isBlank c = true
      · simp only [hc, if_true, Option.some.injEq]
        exact ⟨fun h => ⟨h, by simp [← h, hc]⟩, And.left⟩
      · simp only [hc, Bool.false_eq_true, if_false, Option.some.injEq]
        constructor
        · simp
        · rintro ⟨rfl, hblank⟩
          exact absurd (hblank c rfl) hc

/-- A qualified keyword without its qualifier is the plain one. -/
theorem afterQualifiers_qualified {qualifier blanks rest : List Char}
    (hqualifier : qualifier = "port".toList ∨ qualifier = "effect".toList) (hne : blanks ≠ [])
    (hblank : ∀ c ∈ blanks, isBlank c = true) (hrest : ∀ c ∈ rest.head?, isBlank c = false) :
    afterQualifiers (qualifier ++ (blanks ++ rest)) = rest := by
  have hfound : afterQualifier? qualifier (qualifier ++ (blanks ++ rest)) = some rest :=
    afterQualifier?_eq_some_iff.mpr ⟨blanks, hne, hblank, hrest, rfl⟩
  rcases hqualifier with rfl | rfl
  · rw [afterQualifiers, hfound]
    rfl
  · have hport : afterQualifier? "port".toList ("effect".toList ++ (blanks ++ rest)) = none := by
      simp [afterQualifier?, afterStart?]
    rw [afterQualifiers, hport, hfound]
    rfl

/-- Every line is what stands behind its qualifier, or is qualified. -/
theorem afterQualifiers_cases (line : List Char) :
    afterQualifiers line = line ∨
      ∃ qualifier blanks, (qualifier = "port".toList ∨ qualifier = "effect".toList) ∧ blanks ≠ [] ∧
        (∀ c ∈ blanks, isBlank c = true) ∧ line = qualifier ++ (blanks ++ afterQualifiers line) := by
  unfold afterQualifiers
  cases hport : afterQualifier? "port".toList line with
  | some rest =>
    obtain ⟨blanks, hne, hblank, -, hline⟩ := afterQualifier?_eq_some_iff.mp hport
    exact .inr ⟨_, blanks, .inl rfl, hne, hblank, hline⟩
  | none =>
    cases heffect : afterQualifier? "effect".toList line with
    | some rest =>
      obtain ⟨blanks, hne, hblank, -, hline⟩ := afterQualifier?_eq_some_iff.mp heffect
      exact .inr ⟨_, blanks, .inr rfl, hne, hblank, hline⟩
    | none => exact .inl rfl

/-- A module declaration is found where there is one, and what follows its keyword is told. -/
theorem afterModule?_eq_some_iff {line after : List Char} :
    afterModule? line = some after ↔ DeclaresModule line after := by
  rw [afterModule?_eq_some_iff_afterQualifiers]
  constructor
  · rintro ⟨hstart, hblank⟩
    rcases afterQualifiers_cases line with hline | ⟨qualifier, blanks, hq, hne, hb, hline⟩
    · exact ⟨_, .plain, hline ▸ hstart, hblank⟩
    · exact ⟨_, .qualified hq hne hb, by rw [hline, hstart]; simp, hblank⟩
  · rintro ⟨keyword, hkeyword, rfl, hblank⟩
    refine ⟨?_, hblank⟩
    cases hkeyword with
    | plain => simp [afterQualifiers, afterQualifier?, afterStart?]
    | qualified hq hne hb =>
      rw [List.append_assoc, List.append_assoc]
      exact afterQualifiers_qualified hq hne hb (by rintro c ⟨⟩; decide)

/-! ## The list -/

theorem afterParen?_eq_some_iff {text content : List Char} :
    afterParen? text = some content ↔ OpensList text content := by
  induction text with
  | nil => simp [afterParen?, OpensList]
  | cons c rest ih =>
    by_cases hc : c = '('
    · subst hc
      simp only [afterParen?, ne_eq, not_true_eq_false, decide_false, List.dropWhile_cons,
        Bool.false_eq_true, if_false, Option.some.injEq]
      constructor
      · rintro rfl
        exact ⟨[], by simp, rfl⟩
      · rintro ⟨skipped, hskip, heq⟩
        cases skipped with
        | nil => exact (List.cons.inj heq).2
        | cons d more =>
          obtain ⟨rfl, -⟩ := List.cons.inj heq
          simp at hskip
    · have hskip : afterParen? (c :: rest) = afterParen? rest := by simp [afterParen?, hc]
      rw [hskip, ih]
      constructor
      · rintro ⟨skipped, hs, rfl⟩
        exact ⟨c :: skipped, by simp [hs, Ne.symm hc], rfl⟩
      · rintro ⟨skipped, hs, heq⟩
        cases skipped with
        | nil => exact absurd (List.cons.inj heq).1 hc
        | cons d more =>
          exact ⟨more, fun h => hs (List.mem_cons_of_mem d h), (List.cons.inj heq).2⟩

theorem enclosed?_zero_eq_some_iff {content inner : List Char} :
    enclosed? 0 content = some inner ↔ ∃ tail, content = inner ++ ')' :: tail ∧ Balanced inner := by
  rw [enclosed?_eq_some_iff]
  simp only [Encloses, balanced_iff]
  rfl

/-- A list that is found stands in the text, and is balanced. -/
theorem infix_of_listText? {text inner : List Char} (h : listText? text = some inner) :
    inner <:+: text ∧ Balanced inner := by
  rw [listText?, Option.bind_eq_some_iff] at h
  obtain ⟨content, hcontent, hinner⟩ := h
  obtain ⟨behind, hword, hparen⟩ := Option.bind_eq_some_iff.mp hcontent
  have hspec := afterWord?_spec false text exposingWord_ne_nil
  rw [hword] at hspec
  obtain ⟨before, hfirst⟩ := hspec
  obtain ⟨skipped, -, rfl⟩ := afterParen?_eq_some_iff.mp hparen
  obtain ⟨tail, rfl, hbalanced⟩ := enclosed?_zero_eq_some_iff.mp hinner
  refine ⟨⟨before ++ exposingWord ++ (skipped ++ ['(']), ')' :: tail, ?_⟩, hbalanced⟩
  rw [hfirst.text_eq]
  simp

/-! ## The rules and the reader -/

theorem readWhole_of_declares {first after : List Char} {rest : List (List Char)}
    (h : DeclaresModule first after) :
    readWhole (first :: rest) = outcome (listText? ([' '].intercalate (after :: rest))) := by
  rw [readWhole, afterModule?_eq_some_iff.mpr h]
  rfl

theorem readWhole_of_not_declares {first : List Char} {rest : List (List Char)}
    (h : ∀ after, ¬ DeclaresModule first after) :
    readWhole (first :: rest) = .error .missingModule := by
  rw [readWhole]
  cases hmodule : afterModule? first with
  | none => rfl
  | some after => exact absurd (afterModule?_eq_some_iff.mp hmodule) (h after)

/-- A header that is read has a list, and exposes what the list names. -/
theorem exists_list_of_readWhole {lines : List (List Char)} {exposing : Exposing}
    (h : readWhole lines = .ok exposing) :
    ∃ first after rest inner, lines = first :: rest ∧ DeclaresModule first after ∧
      listText? (joinPieces (after :: rest)) = some inner ∧ exposing = Exposing.split inner := by
  cases lines with
  | nil => cases h
  | cons first rest =>
    rw [readWhole] at h
    cases hmodule : afterModule? first with
    | none =>
      rw [hmodule] at h
      cases h
    | some after =>
      rw [hmodule] at h
      dsimp only at h
      cases hlist : listText? (joinPieces (after :: rest)) with
      | none =>
        rw [hlist] at h
        cases h
      | some inner =>
        rw [hlist] at h
        exact ⟨first, after, rest, inner, rfl, afterModule?_eq_some_iff.mp hmodule, hlist,
          (Except.ok.inj h).symm⟩

/-- The reader of whole headers answers by one of the rules. -/
theorem reads_readWhole (lines : List (List Char)) : Reads lines (readWhole lines) := by
  cases lines with
  | nil => exact .empty
  | cons first rest =>
    by_cases hmodule : ∃ after, DeclaresModule first after
    · obtain ⟨after, hdecl⟩ := hmodule
      have hspec := afterWord?_spec false ([' '].intercalate (after :: rest)) exposingWord_ne_nil
      rw [readWhole_of_declares hdecl, listText?]
      revert hspec
      cases afterWord? exposingWord false ([' '].intercalate (after :: rest)) with
      | none => exact fun hspec => .wordless hdecl hspec
      | some behind =>
        rintro ⟨before, hword⟩
        rw [Option.bind_some]
        cases hparen : afterParen? behind with
        | none =>
          refine .unopened hdecl hword fun content h => ?_
          rw [afterParen?_eq_some_iff.mpr h] at hparen
          simp at hparen
        | some content =>
          have hopen := afterParen?_eq_some_iff.mp hparen
          rw [Option.bind_some]
          cases hclose : enclosed? 0 content with
          | none =>
            refine .unclosed hdecl hword hopen fun inner tail heq hbalanced => ?_
            rw [enclosed?_zero_eq_some_iff.mpr ⟨tail, heq, hbalanced⟩] at hclose
            simp at hclose
          | some inner =>
            obtain ⟨tail, heq, hbalanced⟩ := enclosed?_zero_eq_some_iff.mp hclose
            exact .closed hdecl hword hopen heq hbalanced
    · have hmodule := not_exists.mp hmodule
      rw [readWhole_of_not_declares hmodule]
      exact .undeclared hmodule

/-- No two rules give different answers. -/
theorem Reads.readWhole_eq {lines : List (List Char)} {r : Except HeaderFault Exposing}
    (h : Reads lines r) : readWhole lines = r := by
  cases h with
  | empty => rfl
  | undeclared hdecl => exact readWhole_of_not_declares hdecl
  | wordless hdecl hword =>
    rw [readWhole_of_declares hdecl, listText?, afterWord?_eq_none exposingWord_ne_nil hword]
    rfl
  | unopened hdecl hword hopen =>
    rw [readWhole_of_declares hdecl, listText?,
      hword.afterWord?_eq exposingWord_ne_nil, Option.bind_some]
    rename_i behind rest
    cases hparen : afterParen? behind with
    | none => rfl
    | some content => exact absurd (afterParen?_eq_some_iff.mp hparen) (hopen content)
  | unclosed hdecl hword hopen hclose =>
    rw [readWhole_of_declares hdecl, listText?,
      hword.afterWord?_eq exposingWord_ne_nil, Option.bind_some,
      afterParen?_eq_some_iff.mpr hopen, Option.bind_some]
    rename_i content rest
    cases hend : enclosed? 0 content with
    | none => rfl
    | some inner =>
      obtain ⟨tail, heq, hbalanced⟩ := enclosed?_zero_eq_some_iff.mp hend
      exact absurd hbalanced (hclose inner tail heq)
  | closed hdecl hword hopen hclose hbalanced =>
    rw [readWhole_of_declares hdecl, listText?,
      hword.afterWord?_eq exposingWord_ne_nil, Option.bind_some,
      afterParen?_eq_some_iff.mpr hopen, Option.bind_some,
      enclosed?_zero_eq_some_iff.mpr ⟨_, hclose, hbalanced⟩]
    rfl

theorem reads_iff {lines : List (List Char)} {r : Except HeaderFault Exposing} :
    Reads lines r ↔ readWhole lines = r :=
  ⟨Reads.readWhole_eq, fun h => h ▸ reads_readWhole lines⟩

/-! ## Lines behind the list -/

/-- The lines with content of a file start with those of its first lines. -/
theorem contentLines_append (depth : Int) (lines more : List (List Char)) :
    ∃ rest, contentLines depth (lines ++ more) = contentLines depth lines ++ rest := by
  induction lines generalizing depth with
  | nil => exact ⟨_, rfl⟩
  | cons line lines ih =>
    obtain ⟨rest, hrest⟩ := ih (Comment.strip depth (dropLineEnd line)).2
    refine ⟨rest, ?_⟩
    simp only [List.cons_append, contentLines, hrest]
    split <;> simp

/-- An empty line has no content. -/
theorem contentLines_concat_nil (depth : Int) (lines : List (List Char)) :
    contentLines depth (lines ++ [[]]) = contentLines depth lines := by
  induction lines generalizing depth with
  | nil => rfl
  | cons line lines ih => simp only [List.cons_append, contentLines, ih]

/-- A list that is found is found whatever lines follow. -/
theorem listText?_append {text inner : List Char} (h : listText? text = some inner)
    (lines : List (List Char)) : listText? (text ++ continued lines) = some inner := by
  cases lines with
  | nil => simpa using h
  | cons line rest =>
    rw [continued_cons]
    unfold listText? at h ⊢
    cases hword : afterWord? exposingWord false text with
    | none => simp [hword] at h
    | some behind =>
      rw [afterWord?_append_of_some space_not_mem_exposingWord isWordChar_space hword,
        Option.bind_some]
      rw [hword, Option.bind_some] at h
      cases hparen : afterParen? behind with
      | none => simp [hparen] at h
      | some content =>
        rw [afterParen?_append_of_some hparen, Option.bind_some]
        rw [hparen, Option.bind_some] at h
        exact enclosed?_append_of_some h _

/-- A file that exposes something exposes it whatever lines follow. -/
theorem readWhole_append {lines : List (List Char)} {exposing : Exposing}
    (h : readWhole lines = .ok exposing) (more : List (List Char)) :
    readWhole (lines ++ more) = .ok exposing := by
  cases lines with
  | nil => simp [readWhole] at h
  | cons first rest =>
    rw [List.cons_append]
    unfold readWhole at h ⊢
    cases hmodule : afterModule? first with
    | none => simp [hmodule] at h
    | some after =>
      simp only [hmodule] at h ⊢
      rw [← List.cons_append, joinPieces_append]
      cases hlist : listText? (joinPieces (after :: rest)) with
      | none => simp [hlist, outcome] at h
      | some inner =>
        rw [listText?_append hlist]
        rwa [hlist] at h

/-- **The scanner reads a header by the rules for its text as a whole**, on whichever lines its
parts stand, and no line behind the list matters. -/
theorem exposingOfLines_eq_iff_reads (lines : List (List Char)) :
    (∀ r, exposingOfLines lines = r ↔ Reads (contentLines 0 lines) r) ∧
      ∀ exposing, exposingOfLines lines = .ok exposing →
        ∀ more, exposingOfLines (lines ++ more) = .ok exposing := by
  constructor
  · intro r
    rw [exposingOfLines_eq, reads_iff]
  · intro exposing h more
    obtain ⟨rest, hrest⟩ := contentLines_append 0 lines more
    rw [exposingOfLines_eq] at h ⊢
    rw [hrest]
    exact readWhole_append h rest

end ElmSuite.Header

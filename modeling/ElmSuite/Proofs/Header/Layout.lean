import Mathlib.Data.List.Forall2
import ElmSuite.Proofs.Header.ExposingList
import ElmSuite.Proofs.Header.Gap
import ElmSuite.Proofs.Header.Reading
import ElmSuite.Proofs.Text.Identifier

/-!
# Layouts of headers

A header is written as its tokens with gaps between them. However it is laid out,
and whatever the comments in its gaps hold, reading it gives the names that are
listed, or everything for `..`.
-/

namespace ElmSuite.Header

open Text (isLineEnd isBlank isWordChar)
open Parentheses (Balanced net)

/-! ## Headers as they are written -/

/-- The keyword of a module declaration, its two words on one line. -/
inductive Keyword where
  | plain
  | port (gap : Gap) (hne : gap ≠ []) (hline : ∀ c ∈ gap.text, isLineEnd c = false)
  | effect (gap : Gap) (hne : gap ≠ []) (hline : ∀ c ∈ gap.text, isLineEnd c = false)

/-- What an exposing list may name. -/
inductive Item where
  | value (name : List Char) (hname : IsLowerIdentifier name)
  | type (name : List Char) (hname : IsUpperIdentifier name)
  /-- A type with its constructors. -/
  | openType (name : List Char) (hname : IsUpperIdentifier name)

/-- An item with the gaps around it. -/
structure Entry where
  before : Gap
  item : Item
  after : Gap

/-- What stands in the parentheses of a header. -/
inductive ListLayout where
  | everything (before after : Gap)
  | only (entries : List Entry) (hne : entries ≠ [])

/-- A file with a header, and anything behind it. -/
structure Layout where
  /-- Blank lines and comments, up to the start of a line. -/
  lead : Gap
  hlead : ∀ p ∈ lead.getLast?, p.endsLine = true
  keyword : Keyword
  beforeName : Gap
  hbeforeName : beforeName ≠ []
  name : List Char
  hname : IsDottedName name
  beforeExposing : Gap
  hbeforeExposing : beforeExposing ≠ []
  beforeList : Gap
  list : ListLayout
  tail : List Char

def Keyword.text : Keyword → List Char
  | plain => "module".toList
  | port gap _ _ => "port".toList ++ (gap.text ++ "module".toList)
  | effect gap _ _ => "effect".toList ++ (gap.text ++ "module".toList)

def Item.text : Item → List Char
  | value name _ | type name _ => name
  | openType name _ => name ++ "(..)".toList

def Entry.text (e : Entry) : List Char := e.before.text ++ (e.item.text ++ e.after.text)

def ListLayout.text : ListLayout → List Char
  | everything before after => before.text ++ (['.', '.'] ++ after.text)
  | only entries _ => [','].intercalate (entries.map Entry.text)

/-- What a list exposes. -/
def ListLayout.exposing : ListLayout → Exposing
  | everything .. => .everything
  | only entries _ => .only (NameSet.ofList (entries.map fun e => String.ofList e.item.text))

/-- A file as it is written. -/
def Layout.text (l : Layout) : List Char :=
  l.lead.text ++ (l.keyword.text ++ (l.beforeName.text ++ (l.name ++ (l.beforeExposing.text ++
    (exposingWord ++ (l.beforeList.text ++ '(' :: (l.list.text ++ ')' :: l.tail)))))))

/-! ## Characters of tokens -/

/-- Characters that tokens are made of: neither blank nor the start of a comment. -/
def isTokenChar (c : Char) : Bool :=
  isIdentifierChar c || c == '.' || c == '(' || c == ')' || c == ','

theorem isTokenChar_of_identifier {c : Char} (h : isIdentifierChar c = true) :
    isTokenChar c = true := by
  simp [isTokenChar, h]

theorem isTokenChar_toNat {c : Char} (h : isTokenChar c = true) :
    33 ≤ c.toNat ∧ c.toNat ≤ 122 ∧ c.toNat ≠ 45 := by
  simp only [isTokenChar, Bool.or_eq_true, isIdentifierChar_iff, beq_iff_eq] at h
  rcases h with (((h | rfl) | rfl) | rfl) | rfl
  · omega
  all_goals decide

theorem isBlank_of_isTokenChar {c : Char} (h : isTokenChar c = true) : isBlank c = false := by
  obtain ⟨hlo, hhi, -⟩ := isTokenChar_toNat h
  exact Text.isBlank_of_ascii hlo (by omega)

theorem isPlain_of_isTokenChar {c : Char} (h : isTokenChar c = true) : IsPlain c := by
  obtain ⟨hlo, hhi, hdash⟩ := isTokenChar_toNat h
  refine ⟨?_, ?_, Text.isLineEnd_of_ascii hlo (by omega)⟩
  · rintro rfl
    exact hdash rfl
  · rintro rfl
    exact absurd hhi (by decide)

/-- Tokens are kept as they are. -/
theorem keptLines_token {s : List Char} (h : ∀ c ∈ s, isTokenChar c = true) (rest : List Char) :
    keptLines false 0 (s ++ rest) = (keptLines false 0 rest).prepend s :=
  keptLines_plain_append (fun c hc => isPlain_of_isTokenChar (h c hc)) false rest

theorem joined_token {s : List Char} (h : ∀ c ∈ s, isTokenChar c = true) (rest : List Char) :
    joined (keptLines false 0 (s ++ rest)) = s ++ joined (keptLines false 0 rest) := by
  rw [keptLines_token h, joined_prepend]

/-- A line that starts with a token has content. -/
theorem keptLines_first_content {c : Char} (h : isTokenChar c = true) (rest : List Char) :
    Text.allBlank (keptLines false 0 (c :: rest)).first = false := by
  rw [keptLines_plain (isPlain_of_isTokenChar h)]
  simp [Text.allBlank, isBlank_of_isTokenChar h]

/-! ## The keyword -/

theorem isTokenChar_of_all {s : List Char} (h : s.all isTokenChar = true) :
    ∀ c ∈ s, isTokenChar c = true := fun c hc => List.all_eq_true.mp h c hc

/-- A keyword is read as a keyword. -/
theorem keptLines_keyword (k : Keyword) (rest : List Char) :
    ∃ keyword, IsModuleKeyword keyword ∧
      keptLines false 0 (k.text ++ rest) = (keptLines false 0 rest).prepend keyword := by
  have hmodule : ∀ c ∈ "module".toList, isTokenChar c = true := isTokenChar_of_all (by decide)
  have hqualified : ∀ {qualifier : List Char} (gap : Gap),
      (qualifier = "port".toList ∨ qualifier = "effect".toList) → gap ≠ [] →
      (∀ c ∈ gap.text, isLineEnd c = false) →
      ∃ keyword, IsModuleKeyword keyword ∧
        keptLines false 0 (qualifier ++ (gap.text ++ "module".toList) ++ rest) =
          (keptLines false 0 rest).prepend keyword := by
    intro qualifier gap hq hne hline
    have htoken : ∀ c ∈ qualifier, isTokenChar c = true := by
      rcases hq with rfl | rfl
      · exact isTokenChar_of_all (by decide)
      · exact isTokenChar_of_all (by decide)
    obtain ⟨blanks, hblanks, hnonempty, hgap⟩ :=
      onto_of_oneLine hline ((keptLines false 0 rest).prepend "module".toList)
    refine ⟨_, .qualified hq (hnonempty hne) hblanks, ?_⟩
    rw [List.append_assoc, List.append_assoc, keptLines_token htoken, keptLines_gap,
      keptLines_token hmodule, hgap, Lines.prepend_prepend, Lines.prepend_prepend,
      List.append_assoc]
  cases k with
  | plain => exact ⟨_, .plain, keptLines_token hmodule rest⟩
  | port gap hne hline => exact hqualified gap (.inl rfl) hne hline
  | effect gap hne hline => exact hqualified gap (.inr rfl) hne hline

theorem IsModuleKeyword.content {keyword : List Char} (h : IsModuleKeyword keyword)
    (rest : List Char) : Text.allBlank (keyword ++ rest) = false := by
  have hletter : ∀ {c : Char} (s : List Char), isBlank c = false → Text.allBlank (c :: s) = false :=
    fun s hc => by simp [Text.allBlank, hc]
  cases h with
  | plain => exact hletter _ (by decide : isBlank 'm' = false)
  | qualified hq hne hblank =>
    rcases hq with rfl | rfl
    · exact hletter _ (by decide : isBlank 'p' = false)
    · exact hletter _ (by decide : isBlank 'e' = false)

/-- A header is read from the text behind its keyword. -/
theorem exposingOfLines_behind_keyword {lead : Gap}
    (hlead : ∀ p ∈ lead.getLast?, p.endsLine = true) (k : Keyword) {gap : Gap} (hgap : gap ≠ [])
    (rest : List Char) :
    exposingOfLines (Text.splitLines (lead.text ++ (k.text ++ (gap.text ++ rest)))) =
      outcome (listText? (joined (Gap.onto gap (keptLines false 0 rest)))) := by
  obtain ⟨keyword, hkeyword, hkept⟩ := keptLines_keyword k (gap.text ++ rest)
  have hlines := withContent_lead hlead (keptLines false 0 (k.text ++ (gap.text ++ rest)))
  rw [exposingOfLines_eq, contentLines_splitLines, keptLines_gap, hlines, hkept, keptLines_gap,
    Lines.toList, Lines.first_prepend, Lines.rest_prepend,
    withContent_cons_of_content (hkeyword.content _),
    readWhole_of_declares ⟨keyword, hkeyword, rfl, isBlank_head_onto hgap _⟩]
  rfl

/-- A gap in front of a token leaves blank characters in front of the token. -/
theorem joined_gap_token (g : Gap) {s : List Char} (hne : s ≠ [])
    (h : ∀ c ∈ s, isTokenChar c = true) (rest : List Char) :
    ∃ blanks, (∀ c ∈ blanks, isBlank c = true) ∧ (g ≠ [] → blanks ≠ []) ∧
      joined (keptLines false 0 (g.text ++ (s ++ rest))) =
        blanks ++ (s ++ joined (keptLines false 0 rest)) := by
  obtain ⟨c, more, rfl⟩ := List.exists_cons_of_ne_nil hne
  have hcontent := keptLines_first_content (h c (List.mem_cons_self ..)) (more ++ rest)
  obtain ⟨blanks, hblanks, hnonempty, hjoined⟩ := joined_onto hcontent g
  refine ⟨blanks, hblanks, hnonempty, ?_⟩
  rw [← List.cons_append] at hjoined
  rw [keptLines_gap, hjoined, joined_token h]

/-! ## The name -/

theorem exposingWord_eq : exposingWord = 'e' :: "xposing".toList := by decide

theorem afterWord?_blanks {preceded : Bool} {blanks : List Char}
    (hblanks : ∀ c ∈ blanks, isBlank c = true) (h : preceded = true → blanks ≠ [])
    (rest : List Char) :
    Text.afterWord? exposingWord preceded (blanks ++ rest) =
      Text.afterWord? exposingWord false rest := by
  induction blanks generalizing preceded with
  | nil =>
    cases preceded with
    | false => rfl
    | true => exact absurd rfl (h rfl)
  | cons c blanks ih =>
    have hc := hblanks c (List.mem_cons_self ..)
    have hne : c ≠ 'e' := by
      rintro rfl
      exact absurd hc (by decide)
    rw [List.cons_append, exposingWord_eq, Text.afterWord?_cons_of_ne hne, ← exposingWord_eq,
      Text.isWordChar_of_isBlank hc]
    exact ih (fun d hd => hblanks d (List.mem_cons_of_mem c hd)) (fun hf => absurd hf (by decide))

theorem afterWord?_wordChars {s : List Char} (h : ∀ c ∈ s, isIdentifierChar c = true)
    (rest : List Char) :
    Text.afterWord? exposingWord true (s ++ rest) = Text.afterWord? exposingWord true rest := by
  induction s with
  | nil => rfl
  | cons c s ih =>
    rw [List.cons_append, Text.afterWord?_cons_of_preceded,
      Text.isWordChar_of_isIdentifierChar (h c (List.mem_cons_self ..))]
    exact ih fun d hd => h d (List.mem_cons_of_mem c hd)

/-- A capitalised identifier does not begin with the word that is looked for. -/
theorem afterWord?_segment {s : List Char} (h : IsUpperIdentifier s) (rest : List Char) :
    Text.afterWord? exposingWord false (s ++ rest) = Text.afterWord? exposingWord true rest := by
  obtain ⟨c, more, rfl, hupper, hmore⟩ := h
  have hne : c ≠ 'e' := by
    rintro rfl
    exact absurd hupper (by decide)
  rw [List.cons_append, exposingWord_eq, Text.afterWord?_cons_of_ne hne, ← exposingWord_eq,
    Text.isWordChar_of_isIdentifierChar (isIdentifierChar_of_isUpper hupper),
    afterWord?_wordChars hmore]

theorem afterWord?_name {name : List Char} (h : IsDottedName name) (rest : List Char) :
    Text.afterWord? exposingWord false (name ++ rest) = Text.afterWord? exposingWord true rest := by
  obtain ⟨segments, hne, hsegments, rfl⟩ := h
  induction segments with
  | nil => exact absurd rfl hne
  | cons s segments ih =>
    have hs := hsegments s (List.mem_cons_self ..)
    cases segments with
    | nil => rw [List.intercalate_singleton, afterWord?_segment hs]
    | cons t segments =>
      have hdot : isWordChar '.' = false := by decide +kernel
      rw [List.intercalate_cons_cons, List.append_assoc, List.append_assoc, afterWord?_segment hs,
        List.singleton_append, Text.afterWord?_cons_of_preceded, hdot]
      exact ih (by simp) fun u hu => hsegments u (List.mem_cons_of_mem s hu)

theorem isTokenChar_of_name {name : List Char} (h : IsDottedName name) :
    ∀ c ∈ name, isTokenChar c = true := by
  intro c hc
  rcases h.all c hc with hletter | rfl
  · exact isTokenChar_of_identifier hletter
  · rfl

/-- The list of a header is found behind its name. -/
theorem listText?_header {b₁ b₂ b₃ name inner : List Char} (h₁ : ∀ c ∈ b₁, isBlank c = true)
    (hname : IsDottedName name) (h₂ : ∀ c ∈ b₂, isBlank c = true) (hne : b₂ ≠ [])
    (h₃ : ∀ c ∈ b₃, isBlank c = true) (hinner : Balanced inner) (tail : List Char) :
    listText? (b₁ ++ (name ++ (b₂ ++ (exposingWord ++ (b₃ ++ '(' :: (inner ++ ')' :: tail)))))) =
      some inner := by
  have hstop : ∀ c ∈ (b₃ ++ '(' :: (inner ++ ')' :: tail)).head?, isWordChar c = false := by
    cases b₃ with
    | nil => rintro c ⟨⟩; decide +kernel
    | cons d more =>
      rintro c ⟨⟩
      exact Text.isWordChar_of_isBlank (h₃ d (List.mem_cons_self ..))
  have hopen : OpensList (b₃ ++ '(' :: (inner ++ ')' :: tail)) (inner ++ ')' :: tail) := by
    refine ⟨b₃, fun hmem => ?_, rfl⟩
    exact absurd (h₃ '(' hmem) (by decide)
  rw [listText?, afterWord?_blanks h₁ (fun hf => absurd hf (by decide)), afterWord?_name hname,
    afterWord?_blanks h₂ (fun _ => hne), Text.afterWord?_append_self exposingWord_ne_nil hstop,
    Option.bind_some, afterParen?_eq_some_iff.mpr hopen, Option.bind_some]
  exact enclosed?_zero_eq_some_iff.mpr ⟨tail, rfl, hinner⟩

/-! ## The list -/

/-- An item with blank characters around it. -/
def IsPadded (item piece : List Char) : Prop :=
  ∃ before after, (∀ c ∈ before, isBlank c = true) ∧ (∀ c ∈ after, isBlank c = true) ∧
    piece = before ++ (item ++ after)

theorem Item.text_ne_nil (i : Item) : i.text ≠ [] := by
  cases i with
  | value name h => exact h.ne_nil
  | type name h => exact h.ne_nil
  | openType name h => exact fun hnil => h.ne_nil (List.append_eq_nil_iff.mp hnil).1

/-- An item is an identifier, which may have the mark of open types behind it. -/
theorem Item.exists_identifier (i : Item) :
    ∃ name mark, i.text = name ++ mark ∧ name ≠ [] ∧ (∀ c ∈ name, isIdentifierChar c = true) ∧
      (mark = [] ∨ mark = "(..)".toList) := by
  cases i with
  | value name h => exact ⟨name, [], by simp [Item.text], h.ne_nil, h.all, .inl rfl⟩
  | type name h => exact ⟨name, [], by simp [Item.text], h.ne_nil, h.all, .inl rfl⟩
  | openType name h => exact ⟨name, _, rfl, h.ne_nil, h.all, .inr rfl⟩

theorem Item.all (i : Item) : ∀ c ∈ i.text, isTokenChar c = true := by
  obtain ⟨name, mark, htext, -, hname, hmark⟩ := i.exists_identifier
  rw [htext]
  intro c hc
  rcases List.mem_append.mp hc with hc | hc
  · exact isTokenChar_of_identifier (hname c hc)
  · rcases hmark with rfl | rfl
    · cases hc
    · exact isTokenChar_of_all (by decide) c hc

theorem balanced_mark : Balanced "(..)".toList := by
  rw [Parentheses.balanced_iff]
  simp [Parentheses.settles_cons, Parentheses.delta]

theorem Item.balanced (i : Item) : Balanced i.text := by
  obtain ⟨name, mark, htext, -, hname, hmark⟩ := i.exists_identifier
  have hparen : ∀ c ∈ name, c ≠ '(' ∧ c ≠ ')' := by
    intro c hc
    constructor
    · rintro rfl
      exact absurd (hname _ hc) (by decide)
    · rintro rfl
      exact absurd (hname _ hc) (by decide)
  have hfront : Balanced name := Parentheses.balanced_of_not_mem
    (fun hmem => (hparen _ hmem).1 rfl) (fun hmem => (hparen _ hmem).2 rfl)
  rw [htext]
  rcases hmark with rfl | rfl
  · rwa [List.append_nil]
  · exact hfront.append balanced_mark

theorem Item.comma_not_mem (i : Item) : ',' ∉ i.text := by
  obtain ⟨name, mark, htext, -, hname, hmark⟩ := i.exists_identifier
  rw [htext, List.mem_append, not_or]
  constructor
  · intro hmem
    exact absurd (hname _ hmem) (by decide)
  · rcases hmark with rfl | rfl <;> decide

theorem balanced_blanks {blanks : List Char} (h : ∀ c ∈ blanks, isBlank c = true) :
    Balanced blanks :=
  Parentheses.balanced_of_not_mem (fun hmem => absurd (h _ hmem) (by decide))
    (fun hmem => absurd (h _ hmem) (by decide))

theorem IsPadded.balanced {i : Item} {piece : List Char} (h : IsPadded i.text piece) :
    Balanced piece := by
  obtain ⟨before, after, hbefore, hafter, rfl⟩ := h
  exact (balanced_blanks hbefore).append (i.balanced.append (balanced_blanks hafter))

theorem IsPadded.comma_not_mem {i : Item} {piece : List Char} (h : IsPadded i.text piece) :
    ',' ∉ piece := by
  obtain ⟨before, after, hbefore, hafter, rfl⟩ := h
  have hcomma : ∀ {blanks : List Char}, (∀ c ∈ blanks, isBlank c = true) → ',' ∉ blanks :=
    fun hblanks hmem => absurd (hblanks _ hmem) (by decide)
  simp [hcomma hbefore, hcomma hafter, i.comma_not_mem]

theorem IsPadded.trim_eq {i : Item} {piece : List Char} (h : IsPadded i.text piece) :
    Text.trim piece = i.text := by
  obtain ⟨before, after, hbefore, hafter, rfl⟩ := h
  exact Text.trim_padded hbefore hafter i.text_ne_nil
    fun c hc => isBlank_of_isTokenChar (i.all c hc)

/-- An entry in front of a comma or a parenthesis is read as its item, padded. -/
theorem joined_entry (e : Entry) {c : Char} (hc : isTokenChar c = true) (rest : List Char) :
    ∃ piece, IsPadded e.item.text piece ∧
      joined (keptLines false 0 (e.text ++ c :: rest)) =
        piece ++ c :: joined (keptLines false 0 rest) := by
  have hone : ∀ d ∈ [c], isTokenChar d = true := by simpa using hc
  obtain ⟨before, hbefore, -, hfront⟩ :=
    joined_gap_token e.before e.item.text_ne_nil e.item.all (e.after.text ++ ([c] ++ rest))
  obtain ⟨after, hafter, -, hback⟩ := joined_gap_token e.after (by simp) hone rest
  refine ⟨before ++ (e.item.text ++ after), ⟨before, after, hbefore, hafter, rfl⟩, ?_⟩
  have htext : e.text ++ c :: rest =
      e.before.text ++ (e.item.text ++ (e.after.text ++ ([c] ++ rest))) := by
    simp [Entry.text]
  rw [htext, hfront, hback]
  simp

/-- The entries of a list are read one by one. -/
theorem joined_entries {entries : List Entry} (hne : entries ≠ []) (rest : List Char) :
    ∃ pieces : List (List Char), List.Forall₂ (fun e p => IsPadded e.item.text p) entries pieces ∧
      joined (keptLines false 0 ([','].intercalate (entries.map Entry.text) ++ ')' :: rest)) =
        [','].intercalate pieces ++ ')' :: joined (keptLines false 0 rest) := by
  induction entries with
  | nil => exact absurd rfl hne
  | cons e entries ih =>
    cases entries with
    | nil =>
      obtain ⟨piece, hpiece, hjoined⟩ := joined_entry e (by decide : isTokenChar ')' = true) rest
      refine ⟨[piece], .cons hpiece .nil, ?_⟩
      rw [List.map_singleton, List.intercalate_singleton, List.intercalate_singleton, hjoined]
    | cons f entries =>
      obtain ⟨pieces, hpieces, hrest⟩ := ih (by simp)
      obtain ⟨piece, hpiece, hjoined⟩ := joined_entry e (by decide : isTokenChar ',' = true)
        ([','].intercalate ((f :: entries).map Entry.text) ++ ')' :: rest)
      refine ⟨piece :: pieces, .cons hpiece hpieces, ?_⟩
      have hsome : pieces ≠ [] := by
        rintro rfl
        cases hpieces
      rw [List.map_cons, List.intercalate_cons_of_ne_nil (by simp),
        List.intercalate_cons_of_ne_nil hsome, List.append_assoc, List.append_assoc,
        List.singleton_append, hjoined, hrest]
      simp

theorem balanced_intercalate {pieces : List (List Char)} (h : ∀ p ∈ pieces, Balanced p) :
    Balanced ([','].intercalate pieces) := by
  have hcomma : Balanced [','] := Parentheses.balanced_of_not_mem (by decide) (by decide)
  induction pieces with
  | nil => exact Parentheses.balanced_of_not_mem (by simp) (by simp)
  | cons p pieces ih =>
    have hp := h p (List.mem_cons_self ..)
    have hrest := ih fun q hq => h q (List.mem_cons_of_mem p hq)
    cases pieces with
    | nil => rwa [List.intercalate_singleton]
    | cons q pieces =>
      rw [List.intercalate_cons_cons]
      exact (hp.append hcomma).append hrest

theorem padded_of_mem {entries : List Entry} {pieces : List (List Char)}
    (h : List.Forall₂ (fun e p => IsPadded e.item.text p) entries pieces) :
    ∀ p ∈ pieces, ∃ e : Entry, IsPadded e.item.text p := by
  induction h with
  | nil => simp
  | cons hpiece _ ih =>
    intro p hp
    rcases List.mem_cons.mp hp with rfl | hp
    · exact ⟨_, hpiece⟩
    · exact ih p hp

/-- Padding is trimmed off, and no item is lost as empty. -/
theorem map_trim_padded {entries : List Entry} {pieces : List (List Char)}
    (h : List.Forall₂ (fun e p => IsPadded e.item.text p) entries pieces) :
    (pieces.map fun p => String.ofList (Text.trim p)).filter (· ≠ "") =
      entries.map fun e => String.ofList e.item.text := by
  induction h with
  | nil => rfl
  | @cons e p entries pieces hpiece _ ih =>
    have hsome : String.ofList e.item.text ≠ "" := by
      intro hempty
      exact e.item.text_ne_nil (String.ofList_eq_empty_iff.mp hempty)
    rw [List.map_cons, hpiece.trim_eq, List.filter_cons_of_pos (by simpa using hsome), ih,
      List.map_cons]

/-- Items are not taken for `..`, since an item has a letter of its own. -/
theorem trim_padded_ne {entries : List Entry} {pieces : List (List Char)} (hne : entries ≠ [])
    (h : List.Forall₂ (fun e p => IsPadded e.item.text p) entries pieces) :
    Text.trim ([','].intercalate pieces) ≠ ['.', '.'] := by
  obtain ⟨e, entries, rfl⟩ := List.exists_cons_of_ne_nil hne
  obtain ⟨piece, pieces, ⟨before, after, -, -, rfl⟩, -, rfl⟩ := List.forall₂_cons_left_iff.mp h
  obtain ⟨name, mark, htext, hname, hall, -⟩ := e.item.exists_identifier
  obtain ⟨c, more, rfl⟩ := List.exists_cons_of_ne_nil hname
  have hc := hall c (List.mem_cons_self ..)
  have hmem : c ∈ [','].intercalate ((before ++ (e.item.text ++ after)) :: pieces) := by
    rw [htext]
    cases pieces with
    | nil => simp [List.intercalate_singleton]
    | cons q pieces => simp [List.intercalate_cons_cons]
  intro hdots
  have htrim := Text.mem_trim hmem (isBlank_of_isTokenChar (isTokenChar_of_identifier hc))
  rw [hdots] at htrim
  have hdot : c = '.' := by simpa using htrim
  rw [hdot] at hc
  exact absurd hc (by decide)

/-- Padded items are cut apart and trimmed to what they were. -/
theorem split_padded {entries : List Entry} {pieces : List (List Char)} (hne : entries ≠ [])
    (h : List.Forall₂ (fun e p => IsPadded e.item.text p) entries pieces) :
    Exposing.split ([','].intercalate pieces) =
      .only (NameSet.ofList (entries.map fun e => String.ofList e.item.text)) := by
  have hsome : pieces ≠ [] := by
    rintro rfl
    exact hne (List.forall₂_nil_right_iff.mp h)
  have hnet : ∀ p ∈ pieces, net p = 0 := by
    intro p hp
    obtain ⟨e, hpadded⟩ := padded_of_mem h p hp
    exact hpadded.balanced.settled
  have hcomma : ∀ p ∈ pieces, ∀ before after, p = before ++ ',' :: after → net before ≠ 0 := by
    rintro p hp before after rfl
    obtain ⟨e, hpadded⟩ := padded_of_mem h _ hp
    exact absurd (by simp) hpadded.comma_not_mem
  rw [Exposing.split_intercalate hsome hnet hcomma, if_neg (trim_padded_ne hne h),
    map_trim_padded h]

/-- Whatever gaps a list has, the text between its parentheses reads as the list. -/
theorem joined_list (l : ListLayout) (rest : List Char) :
    ∃ inner, Balanced inner ∧ Exposing.split inner = l.exposing ∧
      joined (keptLines false 0 (l.text ++ ')' :: rest)) =
        inner ++ ')' :: joined (keptLines false 0 rest) := by
  cases l with
  | everything before after =>
    have hdots : ∀ c ∈ ['.', '.'], isTokenChar c = true := isTokenChar_of_all (by decide)
    have hclose : ∀ c ∈ [')'], isTokenChar c = true := isTokenChar_of_all (by decide)
    obtain ⟨front, hfront, -, hleft⟩ :=
      joined_gap_token before (by simp) hdots (after.text ++ ([')'] ++ rest))
    obtain ⟨back, hback, -, hright⟩ := joined_gap_token after (by simp) hclose rest
    refine ⟨front ++ (['.', '.'] ++ back), ?_, ?_, ?_⟩
    · have hmiddle : Balanced ['.', '.'] :=
        Parentheses.balanced_of_not_mem (by decide) (by decide)
      exact (balanced_blanks hfront).append (hmiddle.append (balanced_blanks hback))
    · have htrim : Text.trim (front ++ (['.', '.'] ++ back)) = ['.', '.'] :=
        Text.trim_padded hfront hback (by simp) fun c hc => isBlank_of_isTokenChar (hdots c hc)
      rw [Exposing.split, if_pos htrim]
      rfl
    · have htext : (ListLayout.everything before after).text ++ ')' :: rest =
          before.text ++ (['.', '.'] ++ (after.text ++ ([')'] ++ rest))) := by
        simp [ListLayout.text]
      rw [htext, hleft, hright]
      simp
  | only entries hne =>
    obtain ⟨pieces, hpieces, hjoined⟩ := joined_entries hne rest
    refine ⟨[','].intercalate pieces, ?_, split_padded hne hpieces, hjoined⟩
    apply balanced_intercalate
    intro p hp
    obtain ⟨e, hpadded⟩ := padded_of_mem hpieces p hp
    exact hpadded.balanced

/-- **Every layout of a header is read**: the result is what its list names, whatever
its gaps and their comments hold and whatever follows the list. -/
theorem exposingOfText_layout (l : Layout) :
    exposingOfText (String.ofList l.text) = .ok l.list.exposing := by
  have hword : ∀ c ∈ exposingWord, isTokenChar c = true := isTokenChar_of_all (by decide)
  have hparen : ∀ c ∈ ['('], isTokenChar c = true := isTokenChar_of_all (by decide)
  obtain ⟨inner, hinner, hsplit, hlist⟩ := joined_list l.list l.tail
  obtain ⟨b₃, hb₃, -, hopen⟩ :=
    joined_gap_token l.beforeList (by simp) hparen (l.list.text ++ ')' :: l.tail)
  obtain ⟨b₂, hb₂, hb₂ne, hexposing⟩ := joined_gap_token l.beforeExposing exposingWord_ne_nil hword
    (l.beforeList.text ++ (['('] ++ (l.list.text ++ ')' :: l.tail)))
  obtain ⟨b₁, hb₁, -, hname⟩ := joined_gap_token l.beforeName l.hname.ne_nil
    (isTokenChar_of_name l.hname) (l.beforeExposing.text ++ (exposingWord ++
      (l.beforeList.text ++ (['('] ++ (l.list.text ++ ')' :: l.tail)))))
  rw [hexposing, hopen, hlist] at hname
  have hkept : listText? (joined (Gap.onto l.beforeName (keptLines false 0
      (l.name ++ (l.beforeExposing.text ++ (exposingWord ++
        (l.beforeList.text ++ '(' :: (l.list.text ++ ')' :: l.tail)))))))) = some inner := by
    rw [← keptLines_gap]
    rw [List.singleton_append, List.singleton_append] at hname
    rw [hname]
    exact listText?_header hb₁ l.hname hb₂ (hb₂ne l.hbeforeExposing) hb₃ hinner _
  rw [exposingOfText, String.toList_ofList, Layout.text,
    exposingOfLines_behind_keyword l.hlead l.keyword l.hbeforeName, hkept, outcome, hsplit]

end ElmSuite.Header

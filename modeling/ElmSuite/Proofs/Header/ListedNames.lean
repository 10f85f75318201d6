import ElmSuite.Proofs.Header.CommentFree
import ElmSuite.Proofs.Header.Layout
import ElmSuite.Proofs.Text.Lines

/-!
# The names that a header lists

Whatever a header looks like, the names that are read from it have one form: they are
trimmed, close the parentheses they open, have their commas in parentheses, and hold
neither comments nor line ends. So they can be written on one line with commas between
them, and are read from there as what they are.
-/

namespace ElmSuite.Header

open Text (isBlank isLineEnd)
open Parentheses (Balanced net)
open Exposing (IsPiece)
open Comment (Unmarked)

/-- A text on one line in which no comment begins. -/
structure IsBare (s : List Char) : Prop where
  unmarked : Unmarked s
  oneLine : ∀ c ∈ s, isLineEnd c = false

/-- What can be read as a name from a list. -/
structure IsListed (name : List Char) : Prop extends IsBare name where
  ne_nil : name ≠ []
  trimmed : Text.Trimmed name
  balanced : Balanced name
  /-- Its commas stand in parentheses. -/
  commas : ∀ before after, name = before ++ ',' :: after → 0 < net before

/-! ## Bare texts -/

section Bare

variable {c : Char} {s t : List Char}

theorem isBare_nil : IsBare [] := ⟨Comment.unmarked_nil, by simp⟩

theorem IsBare.of_part (h : IsBare s) (ht : t <:+: s) : IsBare t :=
  ⟨h.unmarked.of_part ht, fun c hc => h.oneLine c (ht.subset hc)⟩

/-- Bare texts that are parted by a plain character are bare as one. -/
theorem IsBare.append_cons (hs : IsBare s) (hc : IsPlain c) (ht : IsBare t) : IsBare (s ++ c :: t) := by
  refine ⟨hs.unmarked.append_cons ht.unmarked hc.ne_dash hc.ne_brace, fun d hd => ?_⟩
  rcases List.mem_append.mp hd with hd | hd
  · exact hs.oneLine d hd
  · rcases List.mem_cons.mp hd with rfl | hd
    · exact hc.not_end
    · exact ht.oneLine d hd

theorem isBare_of_plain (h : ∀ c ∈ s, IsPlain c) : IsBare s :=
  ⟨Comment.unmarked_of_not_mem fun hdash => (h _ hdash).ne_dash rfl, fun c hc => (h c hc).not_end⟩

theorem isBare_append_continued (hs : IsBare s) {lines : List (List Char)}
    (h : ∀ line ∈ lines, IsBare line) : IsBare (s ++ continued lines) := by
  induction lines generalizing s with
  | nil => simpa using hs
  | cons line rest ih =>
    have hrest := ih (h line (List.mem_cons_self ..)) fun l hl => h l (List.mem_cons_of_mem line hl)
    rw [continued_cons]
    exact hs.append_cons isPlain_space hrest

/-- The lines with content are bare. -/
theorem isBare_of_mem_contentLines {lines : List (List Char)}
    (h : ∀ line ∈ lines, ∀ c ∈ line, isLineEnd c = false) (depth : Int) :
    ∀ line ∈ contentLines depth lines, IsBare line := by
  induction lines generalizing depth with
  | nil => simp [contentLines]
  | cons line rest ih =>
    have hline := h line (List.mem_cons_self ..)
    have hrest := ih (fun l hl => h l (List.mem_cons_of_mem line hl))
      (Comment.strip depth (Text.dropLineEnd line)).2
    have hkept : IsBare (Comment.strip depth (Text.dropLineEnd line)).1 := by
      refine ⟨Comment.unmarked_stripFrom false depth _, fun c hc => ?_⟩
      rcases Comment.mem_stripFrom hc with rfl | hc
      · decide
      · exact hline c (dropLineEnd_eq hline ▸ hc)
    simp only [contentLines]
    split
    · exact hrest
    · exact List.forall_mem_cons.mpr ⟨hkept, hrest⟩

theorem ofText_of_oneLine (h : ∀ c ∈ s, isLineEnd c = false) : Lines.ofText s = ⟨s, []⟩ := by
  induction s with
  | nil => rfl
  | cons c s ih =>
    rw [ofText_cons (h c (List.mem_cons_self ..)), ih fun d hd => h d (List.mem_cons_of_mem c hd)]
    rfl

/-- A bare text is kept as it is. -/
theorem keptLines_of_bare (h : IsBare s) : keptLines false 0 s = ⟨s, []⟩ := by
  have hstrip := Comment.strip_of_unmarked h.unmarked
  rw [Comment.strip] at hstrip
  rw [keptLines, ofText_of_oneLine h.oneLine]
  simp [hstrip, keepLines]

end Bare

/-! ## Names that are read -/

/-- What a header exposes is read from a bare text. -/
theorem exists_bare_list {text : String} {exposing : Exposing} (h : exposingOfText text = .ok exposing) :
    ∃ inner, IsBare inner ∧ Balanced inner ∧ exposing = Exposing.split inner := by
  rw [exposingOfText, exposingOfLines_eq] at h
  obtain ⟨first, after, rest, inner, hlines, ⟨keyword, -, rfl, -⟩, hlist, rfl⟩ :=
    exists_list_of_readWhole h
  have hbare := isBare_of_mem_contentLines
    (@isLineEnd_of_mem_splitLinesFrom [] text.toList (by simp)) 0
  rw [← Text.splitLines, hlines, List.forall_mem_cons] at hbare
  have hafter : IsBare after := hbare.1.of_part (List.suffix_append _ _).isInfix
  have hwhole := isBare_append_continued hafter hbare.2
  rw [← joinPieces_cons] at hwhole
  obtain ⟨hinside, hbalanced⟩ := infix_of_listText? hlist
  exact ⟨inner, hwhole.of_part hinside, hbalanced, rfl⟩

/-- What is cut out of a bare list, trimmed, is a name unless it is empty. -/
theorem isListed_trim {inner item : List Char} (hbare : IsBare inner) (hbalanced : Balanced inner)
    (hitem : item ∈ Exposing.items 0 inner) (hne : Text.trim item ≠ []) :
    IsListed (Text.trim item) := by
  obtain ⟨hpiece, hinside⟩ := Exposing.isPiece_of_mem_items hbalanced hitem
  obtain ⟨before, after, hbefore, hafter, heq⟩ := Text.exists_trim item
  have hmiddle : Text.trim item <:+: item := ⟨before, after, by rw [List.append_assoc, ← heq]⟩
  have htrimmed : IsPiece 0 (Text.trim item) := .of_padded hbefore hafter (heq ▸ hpiece)
  have hnet := Parentheses.balanced_iff.mpr htrimmed.settles
  refine ⟨hbare.of_part (hmiddle.trans hinside), hne, Text.trimmed_trim item, hnet, ?_⟩
  intro front back hcomma
  have hsane := hnet.sane front ⟨',' :: back, hcomma.symm⟩
  have hinner := htrimmed.commas front back hcomma
  omega

theorem isListed_of_mem_split {inner : List Char} (hbare : IsBare inner) (hbalanced : Balanced inner)
    {names : NameSet} (h : Exposing.split inner = .only names) :
    ∀ n ∈ names, IsListed n.toList := by
  intro n hn
  rw [Exposing.split] at h
  split at h
  · cases h
  · rw [← Exposing.only.inj h, NameSet.mem_ofList, List.mem_filter, List.mem_map] at hn
    obtain ⟨⟨item, hitem, rfl⟩, hne⟩ := hn
    rw [String.toList_ofList]
    exact isListed_trim hbare hbalanced hitem (by simpa using hne)

/-! ## Names that are written -/

section Written

variable {name : List Char}

theorem IsListed.isPiece (h : IsListed name) : IsPiece 0 name := by
  refine ⟨Parentheses.balanced_iff.mp h.balanced, fun before after heq => ?_⟩
  have hinside := h.commas before after heq
  omega

theorem IsListed.isPiece_space (h : IsListed name) : IsPiece 0 (' ' :: name) :=
  h.isPiece.cons (Int.le_refl 0) (by decide)

theorem IsListed.isBare_space (h : IsListed name) : IsBare (' ' :: name) :=
  isBare_nil.append_cons isPlain_space h.toIsBare

theorem IsListed.trim_space (h : IsListed name) : Text.trim (' ' :: name) = name := by
  have hblank : ∀ c ∈ [' '], isBlank c = true := List.forall_mem_singleton.mpr (by decide)
  simpa using h.trimmed.trim_padded h.ne_nil hblank (List.forall_mem_nil _)

end Written

/-- The names of a list as they stand between its commas. -/
def spaced (items : List (List Char)) : List (List Char) := Text.bulleted [] [' '] items

theorem intercalate_spaced (items : List (List Char)) :
    [','].intercalate (spaced items) = [',', ' '].intercalate items := by
  have hrest : ∀ (item : List Char) (items : List (List Char)),
      [','].intercalate (item :: items.map ([' '] ++ ·)) = [',', ' '].intercalate (item :: items) := by
    intro item items
    induction items generalizing item with
    | nil => rfl
    | cons next items ih =>
      have htail := ih (' ' :: next)
      rw [List.map_cons, List.intercalate_cons_cons, List.intercalate_cons_cons, List.singleton_append,
        htail]
      cases items <;> simp [List.intercalate_cons_cons]
  cases items with
  | nil => rfl
  | cons item items => exact hrest item items

theorem spaced_ne_nil {items : List (List Char)} (h : items ≠ []) : spaced items ≠ [] := by
  obtain ⟨item, items, rfl⟩ := List.exists_cons_of_ne_nil h
  exact List.cons_ne_nil _ _

section Spaced

variable {items : List (List Char)} (h : ∀ n ∈ items, IsListed n)

include h

theorem isPiece_of_mem_spaced : ∀ p ∈ spaced items, IsPiece 0 p ∧ IsBare p := by
  intro p hp
  obtain ⟨item, hitem, hfirst | hother⟩ := Text.mem_bulleted hp
  · rw [hfirst]
    exact ⟨(h item hitem).isPiece, (h item hitem).toIsBare⟩
  · rw [hother]
    exact ⟨(h item hitem).isPiece_space, (h item hitem).isBare_space⟩

/-- The names are what is between the commas, trimmed. -/
theorem map_trim_spaced : (spaced items).map Text.trim = items := by
  cases items with
  | nil => rfl
  | cons item items =>
    rw [List.forall_mem_cons] at h
    have hrest : items.map (Text.trim ∘ ([' '] ++ ·)) = items.map id :=
      List.map_congr_left fun n hn => (h.2 n hn).trim_space
    rw [spaced, Text.bulleted, List.map_cons, List.nil_append, h.1.trimmed.trim_eq, List.map_map, hrest,
      List.map_id]

theorem isBare_intercalate : IsBare ([','].intercalate (spaced items)) := by
  have hpieces := fun p hp => (isPiece_of_mem_spaced h p hp).2
  generalize spaced items = pieces at hpieces
  induction pieces with
  | nil => exact isBare_nil
  | cons p pieces ih =>
    rw [List.forall_mem_cons] at hpieces
    cases pieces with
    | nil => simpa using hpieces.1
    | cons q pieces =>
      rw [List.intercalate_cons_cons, List.append_assoc, List.singleton_append]
      exact hpieces.1.append_cons (isPlain_of_isTokenChar (by decide)) (ih hpieces.2)

theorem balanced_spaced : Balanced ([','].intercalate (spaced items)) :=
  balanced_intercalate fun p hp => Parentheses.balanced_iff.mpr (isPiece_of_mem_spaced h p hp).1.settles

/-- Names are not taken for `..`, unless this is what they are. -/
theorem trim_spaced_ne (hdots : items ≠ [['.', '.']]) :
    Text.trim ([','].intercalate (spaced items)) ≠ ['.', '.'] := by
  intro htrim
  match items with
  | [] => simp [spaced, Text.bulleted] at htrim
  | [item] =>
    have hitem := (h item (List.mem_singleton_self item)).trimmed.trim_eq
    simp [spaced, Text.bulleted, hitem] at htrim
    exact hdots (by rw [htrim])
  | item :: next :: rest =>
    have hcomma : ',' ∈ [','].intercalate (spaced (item :: next :: rest)) := by
      simp [spaced, Text.bulleted, List.intercalate_cons_cons]
    have hmem := Text.mem_trim hcomma (by decide)
    rw [htrim] at hmem
    exact absurd hmem (by decide)

/-- Names that are written with commas between them are read. -/
theorem split_spaced (hdots : items ≠ [['.', '.']]) :
    Exposing.split ([','].intercalate (spaced items)) =
      .only (NameSet.ofList (items.map String.ofList)) := by
  by_cases hne : items = []
  · subst hne
    decide
  · have hpieces := fun p hp => (isPiece_of_mem_spaced h p hp).1
    have hnet : ∀ p ∈ spaced items, net p = 0 := fun p hp => by
      simpa using (hpieces p hp).settles.settled
    have hcommas : ∀ p ∈ spaced items, ∀ before after, p = before ++ ',' :: after → net before ≠ 0 :=
      fun p hp before after heq => by simpa using (hpieces p hp).commas before after heq
    have hmap : ((spaced items).map fun p => String.ofList (Text.trim p)) = items.map String.ofList :=
      calc
        _ = ((spaced items).map Text.trim).map String.ofList := List.map_map.symm
        _ = items.map String.ofList := by rw [map_trim_spaced h]
    have hall : (items.map String.ofList).filter (· ≠ "") = items.map String.ofList := by
      rw [List.filter_eq_self]
      intro n hn
      obtain ⟨item, hitem, rfl⟩ := List.mem_map.mp hn
      simpa using (h item hitem).ne_nil
    rw [Exposing.split_intercalate (spaced_ne_nil hne) hnet hcommas, if_neg (trim_spaced_ne h hdots),
      hmap, hall]

end Spaced

/-! ## A header on one line -/

/-- A header on one line, with these items in its list. -/
def headerText (moduleName : String) (items : List String) : String :=
  "module " ++ moduleName ++ " exposing (" ++ String.intercalate ", " items ++ ")"

/-- The list of a header on one line is read as it is. -/
theorem exposingOfText_headerText {moduleName : String} (hname : IsDottedName moduleName.toList)
    {items : List String} {inner : List Char} (hitems : (String.intercalate ", " items).toList = inner)
    (hbare : IsBare inner) (hbalanced : Balanced inner) :
    exposingOfText (headerText moduleName items) = .ok (Exposing.split inner) := by
  have hblank : ∀ c ∈ [' '], isBlank c = true := List.forall_mem_singleton.mpr (by decide)
  let gap : Gap := [.blank ' ' (by decide)]
  let behind : List Char := moduleName.toList ++ ([' '] ++ (exposingWord ++ ([' '] ++ '(' :: (inner ++ [')']))))
  have htext : (headerText moduleName items).toList =
      Gap.text [] ++ (Keyword.plain.text ++ (gap.text ++ behind)) := by
    have hstart : "module ".toList = Keyword.plain.text ++ [' '] := by decide
    have hmiddle : " exposing (".toList = [' '] ++ (exposingWord ++ [' ', '(']) := by decide
    rw [headerText, String.toList_append, String.toList_append, String.toList_append,
      String.toList_append, hitems, hstart, hmiddle]
    simp only [List.append_assoc, List.cons_append, List.nil_append]
    rfl
  have hlist : IsBare ([' '] ++ '(' :: (inner ++ [')'])) :=
    (isBare_of_plain (List.forall_mem_singleton.mpr isPlain_space)).append_cons
      (isPlain_of_isTokenChar (by decide))
      (hbare.append_cons (isPlain_of_isTokenChar (by decide)) isBare_nil)
  have hchars : ∀ c ∈ exposingWord, isTokenChar c = true := isTokenChar_of_all (by decide)
  have hword : IsBare exposingWord := isBare_of_plain fun c hc => isPlain_of_isTokenChar (hchars c hc)
  have hbehind : IsBare behind :=
    (isBare_of_plain fun c hc => isPlain_of_isTokenChar (isTokenChar_of_name hname c hc)).append_cons
      isPlain_space (hword.append_cons isPlain_space (hlist.of_part (List.suffix_cons _ _).isInfix))
  have hfound : listText? (joined (gap.onto (keptLines false 0 behind))) = some inner := by
    rw [keptLines_of_bare hbehind]
    change listText? (joined ⟨[' '] ++ behind, []⟩) = _
    rw [joined_eq]
    have hheader := listText?_header hblank hname hblank (List.cons_ne_nil _ _) hblank hbalanced []
    simpa [behind, withContent] using hheader
  rw [exposingOfText, htext, exposingOfLines_behind_keyword (by simp) .plain (List.cons_ne_nil _ _), hfound,
    outcome]

/-- The items that write what is exposed, in any order. -/
def WrittenAs : Exposing → List String → Prop
  | .everything, items => items = [".."]
  | .only names, items => ∀ n, n ∈ items ↔ n ∈ names

/-- **What is read from a header is in canonical form, and is read again as what it is.** It is
everything, or names that can be listed; written on one line, the names in any order, it is read
again, except that the single name `..` stands for everything. -/
theorem exposingOfText_canonical {text : String} {exposing : Exposing}
    (h : exposingOfText text = .ok exposing) :
    ((exposing = .everything ∧ exposing.names = ∅) ∨
      ∃ names, exposing = .only names ∧ ∀ n ∈ names, IsListed n.toList) ∧
    (exposing ≠ .only (NameSet.ofList [".."]) →
      ∀ (moduleName : String) (items : List String), IsDottedName moduleName.toList →
        WrittenAs exposing items → exposingOfText (headerText moduleName items) = .ok exposing) := by
  obtain ⟨inner, hbare, hbalanced, hsplit⟩ := exists_bare_list h
  cases exposing with
  | everything =>
    refine ⟨.inl ⟨rfl, rfl⟩, fun _ moduleName items hname hitems => ?_⟩
    obtain rfl : items = [".."] := hitems
    have hdots : ∀ c ∈ ['.', '.'], isTokenChar c = true := isTokenChar_of_all (by decide)
    have hjoined : (String.intercalate ", " [".."]).toList = ['.', '.'] := by simp
    rw [exposingOfText_headerText hname hjoined
      (isBare_of_plain fun c hc => isPlain_of_isTokenChar (hdots c hc))
      (Parentheses.balanced_of_not_mem (by decide) (by decide))]
    rfl
  | only names =>
    have hnames := isListed_of_mem_split hbare hbalanced hsplit.symm
    refine ⟨.inr ⟨names, rfl, hnames⟩, fun hdots moduleName items hname hitems => ?_⟩
    have hlisted : ∀ n ∈ items.map String.toList, IsListed n := by
      intro n hn
      obtain ⟨s, hs, rfl⟩ := List.mem_map.mp hn
      exact hnames s ((hitems s).mp hs)
    have hsame : NameSet.ofList items = names :=
      Std.ExtTreeSet.ext_mem fun n => by rw [NameSet.mem_ofList, hitems n]
    have hitemsne : items.map String.toList ≠ [['.', '.']] := by
      intro heq
      have hone : items = [".."] := by
        have hback := congrArg (List.map String.ofList) heq
        simpa [Function.comp_def] using hback
      exact hdots (by rw [← hsame, hone])
    rw [exposingOfText_headerText hname (by rw [String.toList_intercalate, intercalate_spaced]; rfl)
      (isBare_intercalate hlisted) (balanced_spaced hlisted), split_spaced hlisted hitemsne]
    simp [Function.comp_def, hsame]

/-- A header over several lines, with comments in its list. -/
def raggedText : String :=
  "-- module Z exposing (z)\nmodule A exposing -- (y)\n  ( b, C ( D, E(..) )\x7b- , \x7b- f -\x7d -\x7d\n  , .., g-h, b ,,\t)\n"

/-- The names it lists. -/
def raggedNames : List String := ["b", "..", "C ( D, E(..) )", "g-h"]

theorem exposingOfText_ragged :
    exposingOfText raggedText = .ok (.only (NameSet.ofList raggedNames)) ∧
    (∀ n ∈ raggedNames, IsListed n.toList) ∧
    exposingOfText "module M exposing (g-h, C ( D, E(..) ), .., b)" =
      .ok (.only (NameSet.ofList raggedNames)) := by
  have hread : exposingOfText raggedText = .ok (.only (NameSet.ofList raggedNames)) := by
    decide +kernel
  obtain ⟨hlisted, hreread⟩ := exposingOfText_canonical hread
  have hwritten : WrittenAs (.only (NameSet.ofList raggedNames)) raggedNames.reverse := by
    intro n
    rw [List.mem_reverse, NameSet.mem_ofList]
  refine ⟨hread, ?_, ?_⟩
  · obtain ⟨hall, -⟩ | ⟨names, hnames, hall⟩ := hlisted
    · cases hall
    · intro n hn
      exact hall n (Exposing.only.inj hnames ▸ NameSet.mem_ofList.mpr hn)
  · have hname : IsDottedName "M".toList :=
      ⟨[['M']], by simp, List.forall_mem_singleton.mpr ⟨'M', [], rfl, rfl, by simp⟩, rfl⟩
    have hitems := hreread (by decide) "M" raggedNames.reverse hname hwritten
    exact hitems

end ElmSuite.Header

import ElmSuite.Path

/-!
# Texts and names in pieces

Cutting a text at a character and joining pieces with it undo one another. So a path
gives back the names it was written with.
-/

namespace ElmSuite

/-! ## Pieces of a text -/

theorem splitAt_eq_splitOn {α : Type} [DecidableEq α] (sep : α) (s : List α) :
    splitAt sep s = s.splitOn sep := by
  induction s with
  | nil => rfl
  | cons c rest ih =>
    have hcons : (c :: rest).splitOn sep =
        if c == sep then [] :: rest.splitOn sep else (rest.splitOn sep).modifyHead (List.cons c) :=
      List.splitOnP_cons_eq_if_modifyHead c rest
    rw [splitAt, ih, hcons]
    by_cases h : c = sep
    · rw [if_pos h, if_pos (beq_iff_eq.mpr h)]
    · rw [if_neg h, if_neg (by simpa using h)]
      obtain ⟨piece, pieces, hpieces⟩ := List.exists_cons_of_ne_nil (List.splitOn_ne_nil sep rest)
      rw [hpieces, List.modifyHead_cons]

theorem toList_splitString (sep : Char) (s : String) :
    (splitString sep s).map String.toList = s.toList.splitOn sep := by
  simp [splitString, splitAt_eq_splitOn, Function.comp_def]

/-- Another spelling of all characters, no two alike, is cut at the same places. -/
theorem splitAt_map {α β : Type} [DecidableEq α] [DecidableEq β] {f : α → β}
    (hf : Function.Injective f) (sep : α) (s : List α) :
    splitAt (f sep) (s.map f) = (splitAt sep s).map (List.map f) := by
  induction s with
  | nil => rfl
  | cons c rest ih =>
    rw [List.map_cons, splitAt, splitAt, ih]
    by_cases h : c = sep
    · rw [if_pos h, if_pos (congrArg f h)]
      rfl
    · rw [if_neg h, if_neg (hf.ne h)]
      cases splitAt sep rest <;> rfl

theorem splitString_ne_nil (sep : Char) (s : String) : splitString sep s ≠ [] := by
  simp [splitString, splitAt_eq_splitOn]

/-- The pieces are made of what the text is made of. -/
theorem mem_of_mem_splitAt {α : Type} [DecidableEq α] {sep c : α} {s piece : List α}
    (hpiece : piece ∈ splitAt sep s) (hc : c ∈ piece) : c ∈ s := by
  fun_induction splitAt sep s generalizing piece with
  | case1 =>
    rw [List.mem_singleton.mp hpiece] at hc
    cases hc
  | case2 rest ih =>
    rcases List.mem_cons.mp hpiece with rfl | hpiece
    · cases hc
    · exact List.mem_cons_of_mem _ (ih hpiece hc)
  | case3 d rest hne hnil ih =>
    rw [splitAt_eq_splitOn] at hnil
    exact absurd hnil (List.splitOn_ne_nil sep rest)
  | case4 d rest hne first pieces hcons ih =>
    rcases List.mem_cons.mp hpiece with rfl | hpiece
    · rcases List.mem_cons.mp hc with rfl | hc
      · exact List.mem_cons_self ..
      · exact List.mem_cons_of_mem d (ih (hcons ▸ List.mem_cons_self ..) hc)
    · exact List.mem_cons_of_mem d (ih (hcons ▸ List.mem_cons_of_mem _ hpiece) hc)

theorem mem_of_mem_splitString {sep c : Char} {s piece : String}
    (hpiece : piece ∈ splitString sep s) (hc : c ∈ piece.toList) : c ∈ s.toList := by
  obtain ⟨chars, hchars, rfl⟩ := List.mem_map.mp hpiece
  rw [String.toList_ofList] at hc
  exact mem_of_mem_splitAt hchars hc

/-- The pieces do not hold the character at which the text was cut. -/
theorem not_mem_of_mem_splitAt {sep : Char} {s piece : List Char} (h : piece ∈ splitAt sep s) :
    sep ∉ piece := by
  fun_induction splitAt sep s generalizing piece with
  | case1 => simp [List.mem_singleton.mp h]
  | case2 rest ih =>
    rcases List.mem_cons.mp h with rfl | h
    · simp
    · exact ih h
  | case3 d rest hne hnil ih =>
    rw [splitAt_eq_splitOn] at hnil
    exact absurd hnil (List.splitOn_ne_nil sep rest)
  | case4 d rest hne first pieces hcons ih =>
    rcases List.mem_cons.mp h with rfl | h
    · rw [List.mem_cons, not_or]
      exact ⟨Ne.symm hne, ih (hcons ▸ List.mem_cons_self ..)⟩
    · exact ih (hcons ▸ List.mem_cons_of_mem _ h)

theorem not_mem_of_mem_splitString {sep : Char} {s piece : String}
    (h : piece ∈ splitString sep s) : sep ∉ piece.toList := by
  obtain ⟨chars, hchars, rfl⟩ := List.mem_map.mp h
  rw [String.toList_ofList]
  exact not_mem_of_mem_splitAt hchars

/-- Joined again, the pieces of a text are the text. -/
theorem intercalate_splitString (sep : Char) (s : String) :
    String.intercalate (String.singleton sep) (splitString sep s) = s := by
  apply String.toList_inj.mp
  rw [String.toList_intercalate, String.toList_singleton, toList_splitString,
    List.intercalate_splitOn]

/-- Pieces without the character between them are cut apart. -/
theorem splitString_intercalate {sep : Char} {pieces : List String} (hne : pieces ≠ [])
    (h : ∀ p ∈ pieces, sep ∉ p.toList) :
    splitString sep (String.intercalate (String.singleton sep) pieces) = pieces := by
  have hsplit : ([sep].intercalate (pieces.map String.toList)).splitOn sep =
      pieces.map String.toList :=
    List.splitOn_intercalate sep (by simpa using h) (by simpa using hne)
  rw [splitString, splitAt_eq_splitOn, String.toList_intercalate, String.toList_singleton, hsplit,
    List.map_map]
  exact List.map_id'' (fun p => String.ofList_toList) pieces

/-- What is cut off behind a separator is not seen by the pieces before it. -/
theorem splitString_append_singleton (sep : Char) (s t : String) :
    splitString sep (s ++ String.singleton sep ++ t) = splitString sep s ++ splitString sep t := by
  have hsplit : (s.toList ++ sep :: t.toList).splitOn sep =
      s.toList.splitOn sep ++ t.toList.splitOn sep :=
    List.splitOnP_append_cons _ _ (by simp)
  simp [splitString, splitAt_eq_splitOn, hsplit]

theorem splitString_of_not_mem {sep : Char} {s : String} (h : sep ∉ s.toList) :
    splitString sep s = [s] := by
  simp [splitString, splitAt_eq_splitOn, List.splitOn_eq_singleton h]

/-! ## Names of a path -/

namespace Path

/-- A name that a path may hold: it is not empty, is not `.` and has no slash in it. -/
structure IsName (s : String) : Prop where
  ne_empty : s ≠ ""
  ne_dot : s ≠ "."
  no_slash : '/' ∉ s.toList

theorem eq_of_mem_replicated {n : Nat} {c d : Char}
    (h : d ∈ (String.ofList (List.replicate n c)).toList) : d = c := by
  rw [String.toList_ofList] at h
  exact List.eq_of_mem_replicate h

/-- A name may repeat a character. -/
theorem isName_replicated {n : Nat} {c : Char} (hn : n ≠ 0) (hdot : c ≠ '.') (hslash : c ≠ '/') :
    IsName (String.ofList (List.replicate n c)) := by
  have hmem : c ∈ (String.ofList (List.replicate n c)).toList := by
    rw [String.toList_ofList]
    exact List.mem_replicate.mpr ⟨hn, rfl⟩
  refine ⟨fun hempty => ?_, fun hself => ?_, fun h => hslash (eq_of_mem_replicated h).symm⟩
  · rw [hempty] at hmem
    cases hmem
  · rw [hself] at hmem
    exact hdot (List.mem_singleton.mp hmem)

theorem namesOf_of_isName {s : String} (h : IsName s) : namesOf s = [s] := by
  simp [namesOf, splitString_of_not_mem h.no_slash, h.ne_empty, h.ne_dot]

theorem anchorOf_of_not_mem {s : String} (h : '/' ∉ s.toList) : anchorOf s = .here := by
  cases hs : s.toList with
  | nil => simp [anchorOf, hs]
  | cons c rest =>
    have hc : c ≠ '/' := by
      rintro rfl
      exact h (hs ▸ List.mem_cons_self ..)
    simp [anchorOf, hs, hc]

/-- A name is read as the path of one name. -/
theorem ofString_of_isName {s : String} (h : IsName s) : ofString s = ⟨.here, [s]⟩ := by
  rw [ofString, anchorOf_of_not_mem h.no_slash, namesOf_of_isName h]

/-- A name read from a path is one name more. -/
theorem joinText_of_isName {s : String} (h : IsName s) (p : Path) : p.joinText s = p.child s := by
  rw [joinText, ofString_of_isName h]
  rfl

theorem foldl_joinText {names : List String} (h : ∀ s ∈ names, IsName s) (p : Path) :
    names.foldl joinText p = ⟨p.anchor, p.names ++ names⟩ := by
  induction names generalizing p with
  | nil => simp
  | cons s names ih =>
    rw [List.foldl_cons, joinText_of_isName (h s (List.mem_cons_self ..)),
      ih fun t ht => h t (List.mem_cons_of_mem s ht)]
    simp [child]

/-- A path that was read has names that a path may hold. -/
theorem isName_of_mem_ofString {s name : String} (h : name ∈ (ofString s).names) : IsName name := by
  have hmem : name ∈ (splitString '/' s).filter fun n => n ≠ "" ∧ n ≠ "." := h
  rw [List.mem_filter, decide_eq_true_iff] at hmem
  exact ⟨hmem.2.1, hmem.2.2, not_mem_of_mem_splitString hmem.1⟩

theorem toString_root (names : List String) :
    toString (⟨.root, names⟩ : Path) = "/" ++ String.intercalate "/" names := rfl

/-- An absolute path is read as it was written. -/
theorem ofString_toString {names : List String} (h : ∀ n ∈ names, IsName n) :
    ofString (toString (⟨.root, names⟩ : Path)) = ⟨.root, names⟩ := by
  rw [toString_root]
  cases names with
  | nil => decide
  | cons n names =>
    have hn := h n (List.mem_cons_self ..)
    have htext : "/" ++ String.intercalate "/" (n :: names) =
        String.intercalate (String.singleton '/') ("" :: n :: names) := by
      rw [String.intercalate_cons_cons, String.empty_append]
      rfl
    have hpieces : splitString '/' ("/" ++ String.intercalate "/" (n :: names)) =
        "" :: n :: names := by
      rw [htext]
      refine splitString_intercalate (by simp) fun p hp => ?_
      rcases List.mem_cons.mp hp with rfl | hp
      · simp
      · exact (h p hp).no_slash
    have hnames : namesOf ("/" ++ String.intercalate "/" (n :: names)) = n :: names := by
      rw [namesOf, hpieces, List.filter_cons_of_neg (by simp), List.filter_eq_self]
      exact fun p hp => decide_eq_true ⟨(h p hp).ne_empty, (h p hp).ne_dot⟩
    have hanchor : anchorOf ("/" ++ String.intercalate "/" (n :: names)) = .root := by
      obtain ⟨c, chars, hchars⟩ := List.exists_cons_of_ne_nil
        (show n.toList ≠ [] from fun hnil => hn.ne_empty (String.toList_eq_nil_iff.mp hnil))
      have hslash : c ≠ '/' := by
        rintro rfl
        exact hn.no_slash (hchars ▸ List.mem_cons_self ..)
      obtain ⟨more, hmore⟩ : ∃ more, ("/" ++ String.intercalate "/" (n :: names)).toList =
          '/' :: c :: more := by
        cases names with
        | nil => exact ⟨chars, by simp [hchars]⟩
        | cons m names => exact ⟨_, by simp [String.intercalate_cons_cons, hchars]; rfl⟩
      rw [anchorOf, hmore]
      simp [hslash]
    rw [ofString, hanchor, hnames]

/-- Absolute paths are told apart by their texts. -/
theorem toString_inj {p q : Path} (hp : p.anchor = .root) (hpNames : ∀ n ∈ p.names, IsName n)
    (hq : q.anchor = .root) (hqNames : ∀ n ∈ q.names, IsName n) (h : toString p = toString q) :
    p = q := by
  obtain ⟨anchor, names⟩ := p
  obtain ⟨anchor', names'⟩ := q
  subst hp hq
  rw [← ofString_toString hpNames, h, ofString_toString hqNames]

theorem child_inj {p q : Path} {name : String} (h : p.child name = q.child name) : p = q := by
  rw [child, child, mk.injEq, List.append_left_inj] at h
  cases p
  cases q
  exact mk.injEq .. ▸ h

/-- An absolute path given as text stands for itself. -/
theorem joinText_toString {names : List String} (h : ∀ n ∈ names, IsName n) (p : Path) :
    p.joinText (toString (⟨.root, names⟩ : Path)) = ⟨.root, names⟩ := by
  rw [joinText, ofString_toString h]
  rfl

theorem utf8ByteSize_append {front rest : List String} (hfront : front ≠ []) (hrest : rest ≠ []) :
    (toString (⟨.root, front ++ rest⟩ : Path)).utf8ByteSize =
      (toString (⟨.root, front⟩ : Path)).utf8ByteSize + 1 +
        (String.intercalate "/" rest).utf8ByteSize := by
  have hslash : "/".utf8ByteSize = 1 := by decide
  simp only [toString_root, String.intercalate_append_of_ne_nil hfront hrest,
    String.utf8ByteSize_append]
  omega

/-- A path that goes on is no shorter. -/
theorem utf8ByteSize_le_append (front rest : List String) :
    (toString (⟨.root, front⟩ : Path)).utf8ByteSize ≤
      (toString (⟨.root, front ++ rest⟩ : Path)).utf8ByteSize := by
  by_cases hfront : front = []
  · subst hfront
    simp only [toString_root, String.intercalate_nil, String.utf8ByteSize_append]
    simp
  by_cases hrest : rest = []
  · simp [hrest]
  · rw [utf8ByteSize_append hfront hrest]
    omega

theorem relativeTo?_eq_some_iff {p base : Path} {names : List String} :
    p.relativeTo? base = some names ↔ p = ⟨base.anchor, base.names ++ names⟩ := by
  obtain ⟨anchor, all⟩ := p
  simp only [relativeTo?, List.isPrefixOf_iff_prefix, Option.ite_none_right_eq_some, Option.some.injEq,
    mk.injEq]
  constructor
  · rintro ⟨⟨hanchor, rest, rfl⟩, rfl⟩
    exact ⟨hanchor, by rw [List.drop_left]⟩
  · rintro ⟨hanchor, rfl⟩
    exact ⟨⟨hanchor, List.prefix_append ..⟩, List.drop_left⟩

/-- A suffix without a dot is cut off with the dot before it. -/
theorem stem_append {s suffix : String} (hs : s ≠ "") (hsuffix : suffix ≠ "")
    (hdot : '.' ∉ suffix.toList) : stem (s ++ "." ++ suffix) = s := by
  have hlist : (s ++ "." ++ suffix).toList.reverse =
      suffix.toList.reverse ++ '.' :: s.toList.reverse := by
    simp
  have htake : (suffix.toList.reverse ++ '.' :: s.toList.reverse).takeWhile (· ≠ '.') =
      suffix.toList.reverse := by
    rw [List.takeWhile_append_of_pos]
    · simp
    · intro c hc
      have hne : c ≠ '.' := by
        rintro rfl
        exact hdot (List.mem_reverse.mp hc)
      simpa using hne
  have hlen : (suffix.toList.reverse ++ '.' :: s.toList.reverse).drop
      (suffix.toList.reverse.length + 1) = s.toList.reverse := by
    rw [← List.drop_drop, List.drop_left]
    rfl
  rw [stem, hlist]
  simp only [htake, hlen]
  simp [hs, hsuffix]

end Path

end ElmSuite

import ElmSuite.Proofs.Header.Parentheses

/-!
# Cutting an exposing list

A list is cut at its commas at depth zero. Pieces without such commas that close
the parentheses they open are what a list that is made of them is cut into, and a
list that closes the parentheses it opens is cut into such pieces only.
-/

namespace ElmSuite.Exposing

open Parentheses

theorem items_cons_of_ne {depth : Int} {c : Char} (h : c = ',' → depth ≠ 0) (rest : List Char)
    {item : List Char} {more : List (List Char)} (hrest : items (depth + delta c) rest = item :: more) :
    items depth (c :: rest) = (c :: item) :: more := by
  rw [items, if_neg (fun hc => h hc.1 hc.2), depthAfter_eq, hrest]

/-- A piece stays whole in front of whatever follows it. -/
theorem items_append {depth : Int} {piece : List Char}
    (h : ∀ before after, piece = before ++ ',' :: after → depth + net before ≠ 0)
    (rest : List Char) {item : List Char} {more : List (List Char)}
    (hrest : items (depth + net piece) rest = item :: more) :
    items depth (piece ++ rest) = (piece ++ item) :: more := by
  induction piece generalizing depth with
  | nil => simpa using hrest
  | cons c piece ih =>
    have hfirst : c = ',' → depth ≠ 0 := by
      rintro rfl
      simpa using h [] piece rfl
    have hlater : ∀ before after, piece = before ++ ',' :: after →
        depth + delta c + net before ≠ 0 := by
      intro before after heq
      have := h (c :: before) after (by rw [heq]; rfl)
      rwa [net_cons, ← Int.add_assoc] at this
    have htail := ih hlater (by rwa [net_cons, ← Int.add_assoc] at hrest)
    exact items_cons_of_ne hfirst (piece ++ rest) htail

/-- A comma at depth zero ends a piece. -/
theorem items_comma (rest : List Char) : items 0 (',' :: rest) = [] :: items 0 rest := by
  rw [items, if_pos ⟨rfl, rfl⟩]

/-- A list is cut into the pieces that it is made of. -/
theorem items_intercalate {pieces : List (List Char)} (hne : pieces ≠ [])
    (hnet : ∀ p ∈ pieces, net p = 0)
    (hcomma : ∀ p ∈ pieces, ∀ before after, p = before ++ ',' :: after → net before ≠ 0) :
    items 0 ([','].intercalate pieces) = pieces := by
  induction pieces with
  | nil => exact absurd rfl hne
  | cons first more ih =>
    have hzero : (0 : Int) + net first = 0 := by rw [hnet first (List.mem_cons_self ..)]; rfl
    have hfirst : ∀ before after, first = before ++ ',' :: after → (0 : Int) + net before ≠ 0 := by
      intro before after h
      simpa using hcomma first (List.mem_cons_self ..) before after h
    cases more with
    | nil =>
      have hone := items_append hfirst []
        (show items (0 + net first) [] = [[]] by rw [hzero]; rfl)
      rw [List.intercalate_singleton]
      simpa using hone
    | cons next more =>
      have htail := ih (by simp) (fun p hp => hnet p (List.mem_cons_of_mem first hp))
        (fun p hp => hcomma p (List.mem_cons_of_mem first hp))
      have hcons := items_append hfirst (',' :: [','].intercalate (next :: more))
        (show items (0 + net first) _ = [] :: next :: more by rw [hzero, items_comma, htail])
      rw [List.intercalate_cons_cons]
      simpa using hcons

/-- A list that is made of pieces exposes what they are when they are trimmed. -/
theorem split_intercalate {pieces : List (List Char)} (hne : pieces ≠ [])
    (hnet : ∀ p ∈ pieces, net p = 0)
    (hcomma : ∀ p ∈ pieces, ∀ before after, p = before ++ ',' :: after → net before ≠ 0) :
    split ([','].intercalate pieces) =
      if Text.trim ([','].intercalate pieces) = ['.', '.'] then everything
      else only (NameSet.ofList
        ((pieces.map fun p => String.ofList (Text.trim p)).filter (· ≠ ""))) := by
  rw [split, items_intercalate hne hnet hcomma]

/-! ## What a list is cut into -/

/-- A text that starts `depth` parentheses deep, closes those too, and has its commas inside
parentheses. -/
structure IsPiece (depth : Int) (s : List Char) : Prop where
  settles : Settles depth s
  commas : ∀ before after, s = before ++ ',' :: after → depth + net before ≠ 0

theorem isPiece_nil : IsPiece 0 [] := ⟨settles_nil.mpr rfl, by simp⟩

theorem IsPiece.cons {depth : Int} {c : Char} {s : List Char} (hd : 0 ≤ depth)
    (hc : c = ',' → depth ≠ 0) (h : IsPiece (depth + delta c) s) : IsPiece depth (c :: s) := by
  refine ⟨settles_cons.mpr ⟨hd, h.settles⟩, fun before after heq => ?_⟩
  cases before with
  | nil => simpa using hc (List.cons.inj heq).1
  | cons d before =>
    obtain ⟨rfl, hs⟩ := List.cons.inj heq
    rw [net_cons, ← Int.add_assoc]
    exact h.commas before after hs

/-- A list that closes what it opens is cut into pieces that do so. -/
theorem isPiece_of_items {depth : Int} {s item : List Char} {more : List (List Char)}
    (h : Settles depth s) (hitems : items depth s = item :: more) :
    IsPiece depth item ∧ ∀ p ∈ more, IsPiece 0 p := by
  induction s generalizing depth item more with
  | nil =>
    obtain ⟨rfl, rfl⟩ := List.cons.inj hitems
    obtain rfl := settles_nil.mp h
    exact ⟨isPiece_nil, by simp⟩
  | cons c s ih =>
    obtain ⟨hd, hs⟩ := settles_cons.mp h
    obtain ⟨next, rest, hnext⟩ := List.exists_cons_of_ne_nil (items_ne_nil (depth + delta c) s)
    obtain ⟨hfirst, hrest⟩ := ih hs hnext
    by_cases hcomma : c = ',' ∧ depth = 0
    · obtain ⟨rfl, rfl⟩ := hcomma
      have hzero : (0 : Int) + delta ',' = 0 := by decide
      rw [hzero] at hnext hfirst
      rw [items_comma, hnext] at hitems
      obtain ⟨rfl, rfl⟩ := List.cons.inj hitems
      exact ⟨isPiece_nil, List.forall_mem_cons.mpr ⟨hfirst, hrest⟩⟩
    · have hstay : c = ',' → depth ≠ 0 := fun hc hz => hcomma ⟨hc, hz⟩
      rw [items_cons_of_ne hstay s hnext] at hitems
      obtain ⟨rfl, rfl⟩ := List.cons.inj hitems
      exact ⟨hfirst.cons hd hstay, hrest⟩

/-- The first piece is what the list starts with, and the others stand in it. -/
theorem infix_of_items {depth : Int} {s item : List Char} {more : List (List Char)}
    (hitems : items depth s = item :: more) : item <+: s ∧ ∀ p ∈ more, p <:+: s := by
  induction s generalizing depth item more with
  | nil =>
    obtain ⟨rfl, rfl⟩ := List.cons.inj hitems
    simp
  | cons c s ih =>
    have hwider : ∀ {p : List Char}, p <:+: s → p <:+: c :: s := fun hp =>
      hp.trans (List.suffix_cons c s).isInfix
    obtain ⟨next, rest, hnext⟩ := List.exists_cons_of_ne_nil (items_ne_nil (depth + delta c) s)
    obtain ⟨hfirst, hrest⟩ := ih hnext
    by_cases hcomma : c = ',' ∧ depth = 0
    · obtain ⟨rfl, rfl⟩ := hcomma
      have hzero : (0 : Int) + delta ',' = 0 := by decide
      rw [hzero] at hnext
      rw [items_comma, hnext] at hitems
      obtain ⟨rfl, rfl⟩ := List.cons.inj hitems
      exact ⟨List.nil_prefix, List.forall_mem_cons.mpr
        ⟨hwider hfirst.isInfix, fun p hp => hwider (hrest p hp)⟩⟩
    · rw [items_cons_of_ne (fun hc hz => hcomma ⟨hc, hz⟩) s hnext] at hitems
      obtain ⟨rfl, rfl⟩ := List.cons.inj hitems
      exact ⟨(List.prefix_cons_inj c).mpr hfirst, fun p hp => hwider (hrest p hp)⟩

/-- What a balanced list is cut into stands in it. -/
theorem isPiece_of_mem_items {s p : List Char} (h : Balanced s) (hp : p ∈ items 0 s) :
    IsPiece 0 p ∧ p <:+: s := by
  obtain ⟨item, more, hitems⟩ := List.exists_cons_of_ne_nil (items_ne_nil 0 s)
  obtain ⟨hfirst, hrest⟩ := isPiece_of_items (balanced_iff.mp h) hitems
  obtain ⟨hstart, hinside⟩ := infix_of_items hitems
  rw [hitems] at hp
  rcases List.mem_cons.mp hp with rfl | hp
  · exact ⟨hfirst, hstart.isInfix⟩
  · exact ⟨hrest p hp, hinside p hp⟩

theorem net_blanks {blanks : List Char} (h : ∀ c ∈ blanks, Text.isBlank c = true) :
    net blanks = 0 :=
  net_of_not_mem (fun hmem => absurd (h _ hmem) (by decide))
    (fun hmem => absurd (h _ hmem) (by decide))

/-- A piece stays one without the blank characters around it. -/
theorem IsPiece.of_padded {text before after : List Char}
    (hbefore : ∀ c ∈ before, Text.isBlank c = true) (hafter : ∀ c ∈ after, Text.isBlank c = true)
    (h : IsPiece 0 (before ++ (text ++ after))) : IsPiece 0 text := by
  have hnet : ∀ t, net (before ++ t) = net t := fun t => by
    rw [net_append, net_blanks hbefore, Int.zero_add]
  refine ⟨⟨fun t ht => ?_, ?_⟩, fun front back heq => ?_⟩
  · have hsane := h.settles.sane (before ++ t)
      ((List.prefix_append_right_inj before).mpr (ht.trans (List.prefix_append text after)))
    rwa [hnet] at hsane
  · have hend := h.settles.settled
    rwa [hnet, net_append, net_blanks hafter, Int.add_zero] at hend
  · have hcomma := h.commas (before ++ front) (back ++ after) (by simp [heq])
    rwa [hnet] at hcomma

end ElmSuite.Exposing

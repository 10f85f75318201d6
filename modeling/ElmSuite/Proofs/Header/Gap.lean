import ElmSuite.Proofs.Header.KeptLines

/-!
# Gaps between tokens

A gap is made of blank characters, line ends among them, line comments and block
comments, which nest and may span lines. Whatever its comments hold, a gap leaves blank text and
line ends behind, and it leaves something if it is not empty.
-/

namespace ElmSuite.Header

open Text (isLineEnd isBlank)

/-- The text of a block comment behind the marker that opens it, up to and with the marker that
closes it. Inside a comment only the two markers mean anything. -/
inductive IsCommentBody : List Char → Prop
  | close : IsCommentBody ['-', '\x7d']
  | nested {inner body : List Char} (hinner : IsCommentBody inner) (hbody : IsCommentBody body) :
      IsCommentBody ('\x7b' :: '-' :: (inner ++ body))
  | char {c : Char} {body : List Char} (hopen : ¬ ['\x7b', '-'] <+: c :: body)
      (hclose : ¬ ['-', '\x7d'] <+: c :: body) (hbody : IsCommentBody body) :
      IsCommentBody (c :: body)

/-- A piece of a gap. -/
inductive GapPiece where
  /-- A space, a tab, a line end or another blank character. -/
  | blank (c : Char) (hblank : isBlank c = true)
  /-- A line comment with the line end behind it. -/
  | lineComment (body : List Char) (hbody : ∀ c ∈ body, isLineEnd c = false) (c : Char)
      (hend : isLineEnd c = true)
  | blockComment (body : List Char) (hbody : IsCommentBody body)

/-- What may stand between two tokens. -/
abbrev Gap := List GapPiece

namespace GapPiece

/-- A piece as it is written. -/
def text : GapPiece → List Char
  | blank c _ => [c]
  | lineComment body _ c _ => '-' :: '-' :: (body ++ [c])
  | blockComment body _ => '\x7b' :: '-' :: body

/-- Whether a piece ends at the start of a line. -/
def endsLine : GapPiece → Bool
  | blank c _ => isLineEnd c
  | lineComment .. => true
  | blockComment .. => false

/-- How many lines a piece ends. -/
def lineEnds : GapPiece → Nat
  | blank c _ => if isLineEnd c then 1 else 0
  | lineComment .. => 1
  | blockComment body _ => body.countP isLineEnd

/-- What a piece that ends no line leaves. -/
def trace : GapPiece → Char
  | blank c _ => c
  | _ => ' '

/-- The lines behind a piece as they go on from it. -/
def onto (p : GapPiece) (l : Lines) : Lines :=
  if p.lineEnds = 0 then l.prepend [p.trace] else l.below p.lineEnds

end GapPiece

namespace Gap

/-- A gap as it is written. -/
def text (g : Gap) : List Char := g.flatMap GapPiece.text

/-- The lines behind a gap as they go on from it. -/
def onto (g : Gap) (l : Lines) : Lines := g.foldr GapPiece.onto l

@[simp] theorem text_nil : text [] = [] := rfl

@[simp] theorem text_cons (p : GapPiece) (g : Gap) : text (p :: g) = p.text ++ text g := rfl

@[simp] theorem onto_nil (l : Lines) : onto [] l = l := rfl

@[simp] theorem onto_cons (p : GapPiece) (g : Gap) (l : Lines) : onto (p :: g) l = p.onto (onto g l) :=
  rfl

end Gap

/-! ## Comments -/

/-- Inside a comment a character that begins no marker is dropped. -/
theorem stripFrom_inside {c : Char} {line : List Char} {depth : Int} (hdepth : 0 < depth)
    (hopen : ¬ ['\x7b', '-'] <+: c :: line) (hclose : ¬ ['-', '\x7d'] <+: c :: line)
    (opened : Bool) :
    Comment.stripFrom opened depth (c :: line) = Comment.stripFrom opened depth line := by
  have hd : depth ≠ 0 := by omega
  cases line with
  | nil => simp [Comment.stripFrom, hd]
  | cons d rest =>
    have hnopen : ¬ (c = '\x7b' ∧ d = '-') := by
      rintro ⟨rfl, rfl⟩
      exact hopen (by simp)
    have hnclose : ¬ (0 < depth ∧ c = '-' ∧ d = '\x7d') := by
      rintro ⟨-, rfl, rfl⟩
      exact hclose (by simp)
    rw [Comment.stripFrom, if_neg (fun h => hd h.1), if_neg hnopen, if_neg hnclose]
    simp [hd]

/-- A comment body holds two characters at least, so that it tells which marker it begins with. -/
theorem IsCommentBody.exists_cons {body : List Char} (h : IsCommentBody body) :
    ∃ c rest, body = c :: rest := by
  cases h <;> exact ⟨_, _, rfl⟩

theorem not_startsMarker {m n c d : Char} {rest more : List Char}
    (h : ¬ [m, n] <+: c :: d :: rest) : ¬ [m, n] <+: c :: d :: more := by
  intro hmore
  simp only [List.cons_prefix_cons, List.nil_prefix, and_true] at h hmore
  exact h hmore

theorem ofText_cons {c : Char} (h : isLineEnd c = false) (rest : List Char) :
    Lines.ofText (c :: rest) = (Lines.ofText rest).prepend [c] := by
  rw [Lines.ofText, if_neg (by simp [h])]

theorem keptLines_open (opened : Bool) (depth : Int) (rest : List Char) :
    keptLines opened depth ('\x7b' :: '-' :: rest) =
      keptLines (opened || decide (depth = 0)) (depth + 1) rest := by
  rw [keptLines, ofText_cons (by decide), ofText_cons (by decide)]
  simp [keptLines, Lines.prepend, Comment.stripFrom]

theorem keptLines_close (opened : Bool) (depth : Int) (hdepth : 0 < depth) (rest : List Char) :
    keptLines opened depth ('-' :: '\x7d' :: rest) =
      (keptLines (opened && !decide (depth = 1)) (depth - 1) rest).prepend
        (if opened && decide (depth = 1) then [' '] else []) := by
  have hd : depth ≠ 0 := by omega
  rw [keptLines, ofText_cons (by decide), ofText_cons (by decide)]
  cases opened <;> by_cases hone : depth = 1 <;>
    simp [keptLines, Lines.prepend, Comment.stripFrom, hd, hdepth, hone]

theorem keptLines_inside {c d : Char} {rest : List Char} {depth : Int} (hdepth : 0 < depth)
    (hc : isLineEnd c = false) (hopen : ¬ ['\x7b', '-'] <+: c :: d :: rest)
    (hclose : ¬ ['-', '\x7d'] <+: c :: d :: rest) (opened : Bool) :
    keptLines opened depth (c :: d :: rest) = keptLines opened depth (d :: rest) := by
  have hskip : Comment.stripFrom opened depth (c :: (Lines.ofText (d :: rest)).first) =
      Comment.stripFrom opened depth (Lines.ofText (d :: rest)).first := by
    cases hd : isLineEnd d with
    | true =>
      have hline : (Lines.ofText (d :: rest)).first = [] := by
        rw [Lines.ofText, if_pos hd]
        rfl
      rw [hline]
      exact stripFrom_inside hdepth (by simp) (by simp) opened
    | false =>
      rw [ofText_cons hd]
      exact stripFrom_inside hdepth (not_startsMarker hopen) (not_startsMarker hclose) opened
  rw [keptLines, ofText_cons hc]
  simp only [Lines.first_prepend, Lines.rest_prepend, List.cons_append, List.nil_append]
  rw [hskip]
  rfl

/-- What a comment body leaves of the `depth` comments it is in: a line end for each of its own, or
a space if it has none and closes the comment that began on its line. -/
theorem keptLines_commentBody {body : List Char} (h : IsCommentBody body) (opened : Bool)
    {depth : Int} (hdepth : 0 < depth) (rest : List Char) :
    keptLines opened depth (body ++ rest) =
      if body.countP isLineEnd = 0 then
        (keptLines (opened && !decide (depth = 1)) (depth - 1) rest).prepend
          (if opened && decide (depth = 1) then [' '] else [])
      else (keptLines false (depth - 1) rest).below (body.countP isLineEnd) := by
  induction h generalizing opened depth rest with
  | close => exact keptLines_close opened depth hdepth rest
  | @nested inner body hinner hbody ihinner ihbody =>
    have hdeep : decide (depth + 1 = 1) = false := by simp; omega
    have hcount : ('\x7b' :: '-' :: (inner ++ body)).countP isLineEnd =
        inner.countP isLineEnd + body.countP isLineEnd := by
      rw [List.countP_cons_of_neg (by decide), List.countP_cons_of_neg (by decide),
        List.countP_append]
    have hstart : (opened || decide (depth = 0)) = opened := by
      simp [show depth ≠ 0 by omega]
    have hback : depth + 1 - 1 = depth := by omega
    rw [List.cons_append, List.cons_append, keptLines_open, hstart,
      List.append_assoc, ihinner opened (by omega) (body ++ rest), hcount, hdeep, hback]
    by_cases hzero : inner.countP isLineEnd = 0
    · rw [if_pos hzero, hzero, Nat.zero_add]
      simp only [Bool.and_false, Bool.not_false, Bool.and_true, Bool.false_eq_true, if_false,
        Lines.prepend_nil]
      exact ihbody opened hdepth rest
    · rw [if_neg hzero, if_neg (by omega), ihbody false hdepth rest]
      by_cases hbodyzero : body.countP isLineEnd = 0
      · simp [hbodyzero]
      · simp [hbodyzero]
  | @char c body hopen hclose hbody ih =>
    rw [List.cons_append]
    cases hc : isLineEnd c with
    | true =>
      rw [keptLines_lineEnd hc, ih false hdepth rest, List.countP_cons_of_pos hc]
      by_cases hzero : body.countP isLineEnd = 0
      · simp [hzero]
      · simp [hzero, Nat.add_comm]
    | false =>
      rw [List.countP_cons_of_neg (by simp [hc]), ← ih opened hdepth rest]
      obtain ⟨d, more, rfl⟩ := hbody.exists_cons
      exact keptLines_inside hdepth hc (not_startsMarker hopen) (not_startsMarker hclose) opened

/-- A line comment leaves its line end. -/
theorem keptLines_lineComment {body : List Char} (hbody : ∀ c ∈ body, isLineEnd c = false) {c : Char}
    (hend : isLineEnd c = true) (opened : Bool) (rest : List Char) :
    keptLines opened 0 ('-' :: '-' :: (body ++ c :: rest)) = (keptLines false 0 rest).below 1 := by
  have hcut : Lines.ofText (body ++ c :: rest) = ((Lines.ofText rest).below 1).prepend body := by
    induction body with
    | nil => rw [List.nil_append, Lines.ofText, if_pos hend, Lines.prepend_nil]
    | cons d body ih =>
      rw [List.cons_append, ofText_cons (hbody d (List.mem_cons_self ..)),
        ih fun e he => hbody e (List.mem_cons_of_mem d he), Lines.prepend_prepend]
      rfl
  rw [keptLines, ofText_cons (by decide), ofText_cons (by decide), hcut]
  simp only [Lines.prepend, List.cons_append, List.nil_append, Comment.stripFrom, true_and,
    if_true]
  rfl

/-! ## Gaps -/

theorem isPlain_of_isBlank {c : Char} (hblank : isBlank c = true) (hend : isLineEnd c = false) :
    IsPlain c where
  ne_dash := by
    rintro rfl
    exact absurd hblank (by decide)
  ne_brace := by
    rintro rfl
    exact absurd hblank (by decide)
  not_end := hend

theorem isPlain_space : IsPlain ' ' := isPlain_of_isBlank (by decide) (by decide)

theorem keptLines_gapPiece (p : GapPiece) (rest : List Char) :
    keptLines false 0 (p.text ++ rest) = p.onto (keptLines false 0 rest) := by
  cases p with
  | blank c hblank =>
    by_cases hend : isLineEnd c = true
    · have h := keptLines_lineEnd hend false 0 rest
      simpa [GapPiece.text, GapPiece.onto, GapPiece.lineEnds, hend] using h
    · rw [Bool.not_eq_true] at hend
      have h := keptLines_plain (isPlain_of_isBlank hblank hend) false rest
      simpa [GapPiece.text, GapPiece.onto, GapPiece.lineEnds, GapPiece.trace, hend] using h
  | lineComment body hbody c hend =>
    have h := keptLines_lineComment hbody hend false rest
    simpa [GapPiece.text, GapPiece.onto, GapPiece.lineEnds] using h
  | blockComment body hbody =>
    have h := keptLines_commentBody hbody true (show (0 : Int) < 1 by decide) rest
    simp only [GapPiece.text, List.cons_append]
    rw [keptLines_open]
    exact h

/-- A gap is read as what it leaves, and as nothing else. -/
theorem keptLines_gap (g : Gap) (rest : List Char) :
    keptLines false 0 (g.text ++ rest) = g.onto (keptLines false 0 rest) := by
  induction g with
  | nil => rfl
  | cons p g ih =>
    rw [Gap.text_cons, List.append_assoc, keptLines_gapPiece, ih, Gap.onto_cons]

/-! ## What a gap leaves

Where a gap stands between tokens it leaves blank characters in the joined text
of the lines. -/

/-- The first line and those with content below it, as one text. -/
def joined (l : Lines) : List Char := HeaderPhase.joinPieces (l.first :: withContent l.rest)

theorem joined_eq (l : Lines) : joined l = l.first ++ continued (withContent l.rest) :=
  joinPieces_cons _ _

theorem joined_prepend (s : List Char) (l : Lines) : joined (l.prepend s) = s ++ joined l := by
  simp [joined_eq]

theorem GapPiece.isBlank_trace (p : GapPiece) : isBlank p.trace = true := by
  cases p with
  | blank c hblank => exact hblank
  | _ => exact (by decide : isBlank ' ' = true)

/-- Behind a gap the lines with content are the same, but for blank characters before the first. -/
theorem withContent_onto {l : Lines} (hl : Text.allBlank l.first = false) (g : Gap) :
    ∃ blanks, (∀ c ∈ blanks, isBlank c = true) ∧
      withContent (Gap.onto g l).toList = (blanks ++ l.first) :: withContent l.rest := by
  induction g with
  | nil => exact ⟨[], by simp, withContent_cons_of_content hl _⟩
  | cons p g ih =>
    obtain ⟨blanks, hblanks, hlines⟩ := ih
    rw [Gap.onto_cons, GapPiece.onto]
    by_cases hends : p.lineEnds = 0
    · rw [if_pos hends]
      have hsame : Text.allBlank ([p.trace] ++ (Gap.onto g l).first) =
          Text.allBlank (Gap.onto g l).first := by
        simp [Text.allBlank, p.isBlank_trace]
      rw [Lines.toList, Lines.first_prepend, Lines.rest_prepend]
      cases hfirst : Text.allBlank (Gap.onto g l).first with
      | true =>
        rw [Lines.toList, withContent_cons_of_blank hfirst] at hlines
        exact ⟨blanks, hblanks, by rw [withContent_cons_of_blank (hsame.trans hfirst), hlines]⟩
      | false =>
        rw [Lines.toList, withContent_cons_of_content hfirst] at hlines
        obtain ⟨hhead, hrest⟩ := List.cons.inj hlines
        refine ⟨p.trace :: blanks, List.forall_mem_cons.mpr ⟨p.isBlank_trace, hblanks⟩, ?_⟩
        rw [withContent_cons_of_content (hsame.trans hfirst), hhead, hrest]
        rfl
    · rw [if_neg hends]
      exact ⟨blanks, hblanks, by rw [withContent_below, hlines]⟩

/-- Between tokens a gap leaves blank characters, and at least one if it is not empty. -/
theorem joined_onto {l : Lines} (hl : Text.allBlank l.first = false) (g : Gap) :
    ∃ blanks, (∀ c ∈ blanks, isBlank c = true) ∧ (g ≠ [] → blanks ≠ []) ∧
      joined (Gap.onto g l) = blanks ++ joined l := by
  induction g with
  | nil => exact ⟨[], by simp, by simp, rfl⟩
  | cons p g ih =>
    rw [Gap.onto_cons, GapPiece.onto]
    by_cases hends : p.lineEnds = 0
    · obtain ⟨blanks, hblanks, -, hjoined⟩ := ih
      refine ⟨p.trace :: blanks, List.forall_mem_cons.mpr ⟨p.isBlank_trace, hblanks⟩, by simp, ?_⟩
      rw [if_pos hends, joined_prepend, hjoined]
      rfl
    · obtain ⟨blanks, hblanks, hlines⟩ := withContent_onto hl g
      obtain ⟨n, hn⟩ := Nat.exists_eq_succ_of_ne_zero hends
      refine ⟨' ' :: blanks, List.forall_mem_cons.mpr ⟨by decide, hblanks⟩, by simp, ?_⟩
      rw [if_neg hends, hn, Lines.below, joined_eq, joined_eq, withContent_below, hlines,
        continued_cons]
      simp

/-! ## Gaps at the start of a line -/

/-- Lines that begin with a blank line and have the content of other lines. -/
def BlankAbove (k l : Lines) : Prop :=
  Text.allBlank k.first = true ∧ withContent k.toList = withContent l.toList

theorem blankAbove_below {n : Nat} (h : n ≠ 0) (l : Lines) : BlankAbove (l.below n) l := by
  obtain ⟨m, rfl⟩ := Nat.exists_eq_succ_of_ne_zero h
  exact ⟨rfl, withContent_below _ l⟩

theorem GapPiece.lineEnds_ne_zero {p : GapPiece} (h : p.endsLine = true) : p.lineEnds ≠ 0 := by
  cases p with
  | blank c hblank =>
    have hend : isLineEnd c = true := h
    simp [GapPiece.lineEnds, hend]
  | lineComment => exact Nat.one_ne_zero
  | blockComment => exact absurd h Bool.false_ne_true

theorem BlankAbove.onto {k l : Lines} (h : BlankAbove k l) (p : GapPiece) :
    BlankAbove (p.onto k) l := by
  obtain ⟨hfirst, hlines⟩ := h
  rw [GapPiece.onto]
  by_cases hends : p.lineEnds = 0
  · rw [if_pos hends]
    have hblank : Text.allBlank (k.prepend [p.trace]).first = true := by
      simp only [Text.allBlank, Lines.first_prepend, List.singleton_append, List.all_cons,
        p.isBlank_trace] at hfirst ⊢
      exact hfirst
    refine ⟨hblank, ?_⟩
    rw [← hlines, Lines.toList, Lines.toList, withContent_cons_of_blank hblank,
      withContent_cons_of_blank hfirst]
    rfl
  · rw [if_neg hends]
    obtain ⟨hbelow, hsame⟩ := blankAbove_below hends k
    exact ⟨hbelow, hsame.trans hlines⟩

/-- Blank lines and comments up to the start of a line have no content. -/
theorem blankAbove_lead {lead : Gap} (hne : lead ≠ []) (h : ∀ p ∈ lead.getLast?, p.endsLine = true)
    (l : Lines) : BlankAbove (Gap.onto lead l) l := by
  induction lead with
  | nil => exact absurd rfl hne
  | cons p lead ih =>
    rw [Gap.onto_cons]
    by_cases hlead : lead = []
    · subst hlead
      have hends := GapPiece.lineEnds_ne_zero (h p rfl)
      rw [Gap.onto_nil, GapPiece.onto, if_neg hends]
      exact blankAbove_below hends l
    · refine (ih hlead fun q hq => h q ?_).onto p
      rw [List.getLast?_cons, Option.mem_def.mp hq]
      rfl

theorem withContent_lead {lead : Gap} (h : ∀ p ∈ lead.getLast?, p.endsLine = true) (l : Lines) :
    withContent (Gap.onto lead l).toList = withContent l.toList := by
  by_cases hne : lead = []
  · rw [hne]
    rfl
  · exact (blankAbove_lead hne h l).2

/-- A gap on one line leaves blank characters in front of what follows it. -/
theorem onto_of_oneLine {g : Gap} (h : ∀ c ∈ g.text, isLineEnd c = false) (l : Lines) :
    ∃ blanks, (∀ c ∈ blanks, isBlank c = true) ∧ (g ≠ [] → blanks ≠ []) ∧
      Gap.onto g l = l.prepend blanks := by
  induction g with
  | nil => exact ⟨[], by simp, by simp, rfl⟩
  | cons p g ih =>
    obtain ⟨blanks, hblanks, -, hg⟩ := ih fun c hc => h c (List.mem_append_right _ hc)
    have hp : ∀ c ∈ p.text, isLineEnd c = false := fun c hc => h c (List.mem_append_left _ hc)
    have hends : p.lineEnds = 0 := by
      cases p with
      | blank c hblank => simp [GapPiece.lineEnds, hp c (List.mem_singleton.mpr rfl)]
      | lineComment body hbody c hend =>
        have hc := hp c (by simp [GapPiece.text])
        rw [hend] at hc
        exact absurd hc (by decide)
      | blockComment body hbody =>
        refine List.countP_eq_zero.mpr fun c hc => ?_
        rw [hp c (by simp [GapPiece.text, hc])]
        exact Bool.false_ne_true
    refine ⟨p.trace :: blanks, List.forall_mem_cons.mpr ⟨p.isBlank_trace, hblanks⟩, by simp, ?_⟩
    rw [Gap.onto_cons, GapPiece.onto, if_pos hends, hg, Lines.prepend_prepend]
    rfl

/-- A gap in front of a name is blank at its start, or starts a new line. -/
theorem isBlank_head_onto {g : Gap} (hne : g ≠ []) (l : Lines) :
    ∀ c ∈ (Gap.onto g l).first.head?, isBlank c = true := by
  cases g with
  | nil => exact absurd rfl hne
  | cons p g =>
    intro c hc
    rw [Gap.onto_cons, GapPiece.onto] at hc
    by_cases hends : p.lineEnds = 0
    · rw [if_pos hends] at hc
      rw [← Option.some.inj hc]
      exact p.isBlank_trace
    · rw [if_neg hends] at hc
      obtain ⟨n, hn⟩ := Nat.exists_eq_succ_of_ne_zero hends
      rw [hn] at hc
      cases hc

end ElmSuite.Header

import ElmSuite.Header.Scanner
import ElmSuite.Proofs.Header.Parentheses
import ElmSuite.Proofs.Text.WholeWord

/-!
# Headers read as one text

The scanner takes a header line by line and stops in the middle of a line, with
what it has counted and kept so far. What it finds is what a search of the whole
text finds: the lines with content are joined by single spaces, the first whole
word `exposing` is looked for in the text behind the module keyword, then the
first opening parenthesis, then the parenthesis that closes it.
-/

namespace ElmSuite

namespace Header

/-- The lines with content of a file that starts `depth` block comments deep, without line ends and
comments. -/
def contentLines (depth : Int) : List (List Char) → List (List Char)
  | [] => []
  | line :: rest =>
    let (kept, after) := Comment.strip depth (Text.dropLineEnd line)
    if Text.allBlank kept then contentLines after rest else kept :: contentLines after rest

/-- Lines as they continue a line before them. -/
def continued (lines : List (List Char)) : List Char := lines.flatMap (' ' :: ·)

/-- The word that comes before an exposing list. -/
def exposingWord : List Char := "exposing".toList

/-- What stands in the parentheses behind the word `exposing`. -/
def listText? (text : List Char) : Option (List Char) :=
  ((Text.afterWord? exposingWord false text).bind HeaderPhase.afterParen?).bind
    (Parentheses.enclosed? 0)

/-- What a header exposes by the text of its list, if it has one. -/
def outcome : Option (List Char) → Except HeaderFault Exposing
  | some inner => .ok (Exposing.split inner)
  | none => .error .unfinished

/-- Reads a header from its lines with content, as one text. -/
def readWhole : List (List Char) → Except HeaderFault Exposing
  | [] => .error .unfinished
  | first :: rest =>
    match HeaderPhase.afterModule? first with
    | none => .error .missingModule
    | some after => outcome (listText? (HeaderPhase.joinPieces (after :: rest)))

theorem exposingWord_ne_nil : exposingWord ≠ [] := by decide
theorem space_not_mem_exposingWord : ' ' ∉ exposingWord := by decide
theorem isWordChar_space : Text.isWordChar ' ' = false := by decide +kernel

/-! ## Joined lines -/

@[simp] theorem continued_nil : continued [] = [] := rfl

@[simp] theorem continued_cons (line : List Char) (rest : List (List Char)) :
    continued (line :: rest) = ' ' :: (line ++ continued rest) := rfl

theorem continued_append (lines more : List (List Char)) :
    continued (lines ++ more) = continued lines ++ continued more :=
  List.flatMap_append

theorem joinPieces_cons (line : List Char) (rest : List (List Char)) :
    HeaderPhase.joinPieces (line :: rest) = line ++ continued rest := by
  induction rest generalizing line with
  | nil => rw [HeaderPhase.joinPieces, List.intercalate_singleton, continued_nil, List.append_nil]
  | cons next rest ih =>
    have hnext := ih next
    rw [HeaderPhase.joinPieces] at hnext ⊢
    rw [List.intercalate_cons_cons, hnext, continued_cons, List.append_assoc]
    rfl

theorem joinPieces_append (line : List Char) (rest more : List (List Char)) :
    HeaderPhase.joinPieces (line :: rest ++ more) =
      HeaderPhase.joinPieces (line :: rest) ++ continued more := by
  rw [List.cons_append, joinPieces_cons, joinPieces_cons, continued_append, List.append_assoc]

/-- A line that is kept as a piece of its own is continued by the next one. -/
theorem joinPieces_concat_pair (pieces : List (List Char)) (s t : List Char) :
    HeaderPhase.joinPieces (pieces ++ [s, t]) =
      HeaderPhase.joinPieces (pieces ++ [s ++ ' ' :: t]) := by
  cases pieces with
  | nil => simp [joinPieces_cons]
  | cons first rest => simp [joinPieces_cons, continued_append]

end Header

namespace HeaderPhase

open Header Parentheses

/-- Reads on from a phase through lines with content. -/
def readLines : HeaderPhase → List (List Char) → Except HeaderFault Exposing
  | done _ _ exposing, _ => .ok exposing
  | _, [] => .error .unfinished
  | phase, line :: rest =>
    match phase.advance line with
    | none => .error .missingModule
    | some next => next.readLines rest

theorem readLines_nil {phase : HeaderPhase} (h : phase.rank ≠ 4) :
    phase.readLines [] = .error .unfinished := by
  cases phase with
  | done => exact absurd rfl h
  | _ => rfl

theorem readLines_cons {phase : HeaderPhase} (h : phase.rank ≠ 4) (line : List Char)
    (rest : List (List Char)) :
    phase.readLines (line :: rest) =
      match phase.advance line with
      | none => .error .missingModule
      | some next => next.readLines rest := by
  cases phase with
  | done => exact absurd rfl h
  | _ => rfl

/-! ## The list

The counters of the scanner tell how deep in parentheses the text goes on; the
text it has kept is a prefix of what the list holds. -/

/-- Reading list text ends at the parenthesis that closes the list, or goes on with the counts. -/
theorem accumulate_eq {opened closed depth : Nat} (hd : opened = closed + depth + 1)
    (pieces : List (List Char)) (piece text : List Char) :
    accumulate opened closed pieces piece text =
      match enclosed? depth text with
      | some inner =>
        done (opened + inner.count '(') (closed + inner.count ')' + 1)
          (Exposing.split (joinPieces (pieces ++ [piece.reverse ++ inner])))
      | none =>
        accumulating (opened + text.count '(') (closed + text.count ')')
          (pieces ++ [piece.reverse ++ text]) := by
  induction text generalizing opened closed depth piece with
  | nil => simp [accumulate, enclosed?]
  | cons c rest ih =>
    by_cases ho : c = '('
    · subst ho
      have hin := ih (show opened + 1 = closed + (depth + 1) + 1 by omega)
        ('(' :: piece)
      simp only [accumulate, enclosed?, if_true, hin]
      cases enclosed? (depth + 1) rest <;> simp [Nat.add_comm, Nat.add_left_comm]
    · by_cases hc : c = ')'
      · subst hc
        cases depth with
        | zero => simp [accumulate, enclosed?, hd]
        | succ outer =>
          have hin := ih (show opened = closed + 1 + outer + 1 by omega)
            (')' :: piece)
          have hopen : closed + 1 ≠ opened := by omega
          simp only [accumulate, enclosed?, ho, hopen, if_false, if_true, hin]
          cases enclosed? outer rest <;> simp [Nat.add_comm, Nat.add_left_comm]
      · have hin := ih hd (c :: piece)
        simp only [accumulate, enclosed?, ho, hc, if_false, hin]
        cases enclosed? depth rest <;> simp [ho, hc]

/-- From inside the list the scanner finds the parenthesis that closes it, on whichever line. -/
theorem readLines_accumulate {opened closed depth : Nat} (hd : opened = closed + depth + 1)
    (pieces : List (List Char)) (text : List Char) (lines : List (List Char)) :
    (accumulate opened closed pieces [] text).readLines lines =
      outcome ((enclosed? depth (text ++ continued lines)).map
        fun inner => joinPieces (pieces ++ [inner])) := by
  induction lines generalizing opened closed depth pieces text with
  | nil =>
    rw [accumulate_eq hd]
    cases h : enclosed? depth text <;> simp [h, readLines, outcome]
  | cons line rest ih =>
    rw [accumulate_eq hd]
    cases h : enclosed? depth text with
    | some inner => simp [enclosed?_append_of_some h, readLines, outcome]
    | none =>
      obtain ⟨after, ha, hmore⟩ := enclosed?_append_of_none h
      have hcounts : opened + text.count '(' = closed + text.count ')' + after + 1 := by
        simp only [net] at ha
        omega
      have hspace : enclosed? after (' ' :: (line ++ continued rest)) =
          (enclosed? after (line ++ continued rest)).map (' ' :: ·) := by
        simp [enclosed?]
      simp only [readLines, advance, List.reverse_nil, List.nil_append]
      rw [ih hcounts, continued_cons, hmore, hspace]
      simp [Function.comp_def, joinPieces_concat_pair]

/-! ## Before the list -/

theorem afterParen?_append_of_some {text rest : List Char} (h : afterParen? text = some rest)
    (more : List Char) : afterParen? (text ++ more) = some (rest ++ more) := by
  induction text with
  | nil => simp [afterParen?] at h
  | cons c text ih =>
    by_cases hc : c = '('
    · simp only [afterParen?, hc, List.cons_append, List.dropWhile_cons] at h ⊢
      simpa using h
    · have hskip : ∀ s, afterParen? (c :: s) = afterParen? s := fun s => by
        simp [afterParen?, hc]
      rw [hskip] at h
      rw [List.cons_append, hskip, ih h]

theorem afterParen?_append_of_none {text : List Char} (h : afterParen? text = none)
    (more : List Char) : afterParen? (text ++ more) = afterParen? more := by
  induction text with
  | nil => rfl
  | cons c text ih =>
    by_cases hc : c = '('
    · simp [afterParen?, hc] at h
    · have hskip : ∀ s, afterParen? (c :: s) = afterParen? s := fun s => by
        simp [afterParen?, hc]
      rw [hskip] at h
      rw [List.cons_append, hskip, ih h]

/-- From behind the word `exposing` the scanner finds the list, on whichever line. -/
theorem readLines_seekParen (text : List Char) (lines : List (List Char)) :
    (seekParen text).readLines lines =
      outcome ((afterParen? (text ++ continued lines)).bind (enclosed? 0)) := by
  induction lines generalizing text with
  | nil =>
    unfold seekParen
    cases h : afterParen? text with
    | none => simp [h, readLines, outcome]
    | some rest =>
      have hlist := readLines_accumulate (show 1 = 0 + 0 + 1 from rfl) [] rest []
      simp [h, hlist, joinPieces_cons, Option.map_id']
  | cons line rest ih =>
    unfold seekParen
    cases h : afterParen? text with
    | none =>
      have hspace : afterParen? (' ' :: (line ++ continued rest)) =
          afterParen? (line ++ continued rest) := by
        simp [afterParen?]
      simp only [readLines, advance]
      rw [ih, continued_cons, afterParen?_append_of_none h, hspace]
    | some inside =>
      have hlist := readLines_accumulate (show 1 = 0 + 0 + 1 from rfl) [] inside
        (line :: rest)
      rw [afterParen?_append_of_some h]
      simp [hlist, joinPieces_cons, Option.map_id']

theorem seekExposing_eq (text : List Char) :
    seekExposing text =
      match Text.afterWord? exposingWord false text with
      | none => awaitingExposing
      | some rest => seekParen rest := rfl

/-- From behind the module keyword the scanner finds the list, on whichever line. -/
theorem readLines_seekExposing (text : List Char) (lines : List (List Char)) :
    (seekExposing text).readLines lines = outcome (listText? (text ++ continued lines)) := by
  induction lines generalizing text with
  | nil =>
    rw [seekExposing_eq, listText?, continued_nil, List.append_nil]
    cases Text.afterWord? exposingWord false text with
    | none => rfl
    | some rest => simp [readLines_seekParen]
  | cons line rest ih =>
    rw [seekExposing_eq, continued_cons]
    cases h : Text.afterWord? exposingWord false text with
    | none =>
      simp only [readLines, advance]
      rw [ih, listText?, listText?, Text.afterWord?_append_of_none exposingWord_ne_nil
        space_not_mem_exposingWord isWordChar_space h]
    | some after =>
      rw [listText?, Text.afterWord?_append_of_some space_not_mem_exposingWord isWordChar_space h]
      simp [readLines_seekParen]

end HeaderPhase

namespace Header

open HeaderPhase

/-- The scanner reads the lines with content, and nothing but them. -/
theorem readFrom_eq (depth : Int) {phase : HeaderPhase} (h : phase.rank ≠ 4)
    (lines : List (List Char)) :
    Scanner.readFrom ⟨depth, phase⟩ lines = phase.readLines (contentLines depth lines) := by
  induction lines generalizing depth phase with
  | nil =>
    rw [contentLines, readLines_nil h]
    cases phase with
    | done => exact absurd rfl h
    | _ => rfl
  | cons line rest ih =>
    have hopen : ∀ d, Scanner.isDone ⟨d, phase⟩ = false := fun d => by simp [Scanner.isDone, h]
    simp only [Scanner.readFrom, Scanner.feed, hopen, contentLines, Bool.false_eq_true, if_false]
    by_cases hblank : Text.allBlank (Comment.strip depth (Text.dropLineEnd line)).1 = true
    · simp only [hblank, if_true, hopen, Bool.false_eq_true, if_false]
      exact ih _ h
    · simp only [hblank, Bool.false_eq_true, if_false]
      rw [readLines_cons h]
      cases phase.advance (Comment.strip depth (Text.dropLineEnd line)).1 with
      | none => rfl
      | some next =>
        by_cases hdone : next.rank = 4
        · cases next with
          | done => simp [Scanner.isDone, HeaderPhase.rank, Scanner.finish, readLines]
          | _ => simp [HeaderPhase.rank] at hdone
        · simp only [Scanner.isDone, hdone, decide_false, Bool.false_eq_true, if_false]
          exact ih _ hdone

/-- A header that is read line by line is read as one text. -/
theorem exposingOfLines_eq (lines : List (List Char)) :
    exposingOfLines lines = readWhole (contentLines 0 lines) := by
  rw [exposingOfLines, Scanner.initial, readFrom_eq 0 (by decide)]
  cases contentLines 0 lines with
  | nil => rfl
  | cons first rest =>
    rw [readLines_cons (by decide), readWhole, advance]
    cases afterModule? first with
    | none => rfl
    | some after =>
      simp only [Option.map_some]
      rw [joinPieces_cons, readLines_seekExposing]

end Header

end ElmSuite

import ElmSuite.Header.Source
import ElmSuite.Proofs.Header.Reading
import ElmSuite.Proofs.Header.ScannerHistory
import ElmSuite.Proofs.Text.LineCuts
import ElmSuite.Proofs.Text.Utf8

/-!
# Source files read block by block

Whatever is read in parts is read as it is at once: the lines of a text, the lines that a
scanner takes, and the blocks of a file. What is left over between two parts is all that has
to be known of the first.
-/

namespace ElmSuite

/-! ## Lines for a scanner -/

namespace Scanner

open Source (feedLines)

/-- Lines that follow others are fed unless the header is complete before them. -/
theorem feedLines_append (s : Scanner) (lines more : List (List Char)) (h : s.isDone = false) :
    feedLines s (lines ++ more) =
      (feedLines s lines).bind fun next =>
        if next.isDone then .ok next else feedLines next more := by
  induction lines generalizing s with
  | nil => simp [feedLines, Except.bind, h]
  | cons line rest ih =>
    simp only [List.cons_append, feedLines]
    rcases s.feed line with ⟨next, _ | fault⟩
    · cases hdone : next.isDone with
      | true => simp [hdone, Except.bind]
      | false => simpa [hdone] using ih next hdone
    · rfl

/-- Reading lines is feeding them and asking for the result. -/
theorem readFrom_eq_feedLines (s : Scanner) (lines : List (List Char)) :
    s.readFrom lines = (feedLines s lines).bind finish := by
  fun_induction feedLines s lines with
  | case1 s => rfl
  | case2 s line rest next fault h => simp only [readFrom, h, Except.bind]
  | case3 s line rest next h hdone => simp only [readFrom, h, hdone, if_true, Except.bind]
  | case4 s line rest next h hdone ih =>
    simp only [readFrom, h, hdone, Bool.false_eq_true, if_false, ih]

theorem isDone_of_finish {s : Scanner} {e : Exposing} (h : s.finish = .ok e) : s.isDone = true := by
  cases hdone : s.isDone with
  | true => rfl
  | false =>
    rw [finish_eq_error_iff.mpr ⟨hdone, rfl⟩] at h
    cases h

/-- Lines give a result if feeding them completes the header. -/
theorem readFrom_eq_ok_iff {s : Scanner} {lines : List (List Char)} {e : Exposing} :
    s.readFrom lines = .ok e ↔ ∃ next, feedLines s lines = .ok next ∧ next.isDone = true ∧
      next.finish = .ok e := by
  rw [readFrom_eq_feedLines]
  cases feedLines s lines with
  | error fault => simp [Except.bind]
  | ok next =>
    constructor
    · exact fun h => ⟨next, rfl, isDone_of_finish h, h⟩
    · rintro ⟨_, ⟨⟩, -, h⟩
      exact h

end Scanner

namespace Source

open Text (UpToEmptyLast continueFirst fileLines)

/-! ## Lines of a text in parts -/

section Lines

variable {c : Char} (line rest : List Char)

@[simp] theorem cutLines_nil (afterReturn : Bool) :
    cutLines afterReturn line [] = ([], afterReturn, line) := rfl

theorem cutLines_lineFeed (afterReturn : Bool) :
    cutLines afterReturn line ('\n' :: rest) =
      (cutLines false [] rest).map (line.reverse :: ·) id := by
  cases afterReturn <;> rfl

theorem cutLines_return :
    cutLines false line ('\r' :: rest) = cutLines true line rest := rfl

theorem cutLines_return_return :
    cutLines true line ('\r' :: rest) = (cutLines true [] rest).map (line.reverse :: ·) id := rfl

theorem cutLines_cons (hfeed : c ≠ '\n') (hreturn : c ≠ '\r') :
    cutLines false line (c :: rest) = cutLines false (c :: line) rest := by
  rw [cutLines, if_neg Bool.false_ne_true, if_neg hfeed, if_neg hreturn]

theorem cutLines_return_cons (hfeed : c ≠ '\n') (hreturn : c ≠ '\r') :
    cutLines true line (c :: rest) = (cutLines false [c] rest).map (line.reverse :: ·) id := by
  rw [cutLines, if_pos rfl, if_neg hfeed, if_neg hreturn]
  rfl

end Lines

/-- A text that follows another is cut on from what that leaves over. -/
theorem cutLines_append (afterReturn : Bool) (line text more : List Char) :
    cutLines afterReturn line (text ++ more) =
      let first := cutLines afterReturn line text
      (cutLines first.2.1 first.2.2 more).map (first.1 ++ ·) id := by
  induction text generalizing afterReturn line with
  | nil => rfl
  | cons c rest ih =>
    rw [List.cons_append]
    by_cases hfeed : c = '\n'
    · subst hfeed
      simp only [cutLines_lineFeed, ih]
      rfl
    · by_cases hreturn : c = '\r'
      · subst hreturn
        cases afterReturn with
        | false => simp only [cutLines_return, ih]
        | true =>
          simp only [cutLines_return_return, ih]
          rfl
      · cases afterReturn with
        | false => simp only [cutLines_cons _ _ hfeed hreturn, ih]
        | true =>
          simp only [cutLines_return_cons _ _ hfeed hreturn, ih]
          rfl

/-- The line that is left over at the end of a text. -/
def leftOver (afterReturn : Bool) (line : List Char) : List (List Char) :=
  if afterReturn ∨ line ≠ [] then [line.reverse] else []

/-- The lines that are cut off, and the one that is left over, are the lines of the text. -/
theorem cutLines_upToEmptyLast (afterReturn : Bool) (line text : List Char) :
    UpToEmptyLast
      ((cutLines afterReturn line text).1 ++
        leftOver (cutLines afterReturn line text).2.1 (cutLines afterReturn line text).2.2)
      (continueFirst line.reverse
        (fileLines (if afterReturn then '\r' :: text else text))) := by
  induction text generalizing afterReturn line with
  | nil =>
    cases afterReturn with
    | true =>
      rw [if_pos rfl, Text.fileLines_return (by simp), Text.continueFirst_cons, List.append_nil]
      exact .empty
    | false =>
      by_cases hline : line = []
      · subst hline
        exact .empty
      · simpa [leftOver, hline] using .same
  | cons c rest ih =>
    by_cases hfeed : c = '\n'
    · subst hfeed
      have hcut : fileLines (if afterReturn then '\r' :: '\n' :: rest else '\n' :: rest) =
          [] :: fileLines rest := by
        cases afterReturn with
        | true => exact Text.fileLines_pair rest
        | false => exact Text.fileLines_lineFeed rest
      rw [hcut, cutLines_lineFeed]
      simpa using (ih false []).cons line.reverse
    · by_cases hreturn : c = '\r'
      · subst hreturn
        cases afterReturn with
        | false => simpa [cutLines_return] using ih true line
        | true =>
          rw [if_pos rfl, Text.fileLines_return (by simp), cutLines_return_return]
          simpa using (ih true []).cons line.reverse
      · cases afterReturn with
        | false =>
          have ih := ih false (c :: line)
          simp only [Bool.false_eq_true, if_false, List.reverse_cons] at ih ⊢
          rwa [cutLines_cons _ _ hfeed hreturn, Text.fileLines_cons hfeed hreturn,
            Text.continueFirst_continueFirst]
        | true =>
          have hnext : ∀ tail, c :: rest ≠ '\n' :: tail := fun tail h =>
            hfeed (List.cons.inj h).1
          rw [if_pos rfl, Text.fileLines_return hnext, Text.fileLines_cons hfeed hreturn,
            cutLines_return_cons _ _ hfeed hreturn]
          simpa using (ih false [c]).cons line.reverse

/-! ## Blocks -/

section Blocks

variable {carry after : Carry} {lines : List (List Char)} {bytes more : List UInt8}

theorem readBlock_eq (carry : Carry) (bytes : List UInt8) :
    readBlock carry bytes = (Utf8.decodeFrom carry.decoder [] bytes).map fun p =>
      let cut := cutLines carry.afterReturn carry.line p.1
      (cut.1, ⟨p.2, cut.2.1, cut.2.2⟩) := by
  rw [readBlock]
  cases Utf8.decodeFrom carry.decoder [] bytes <;> rfl

theorem readBlock_nil (carry : Carry) : readBlock carry [] = some ([], carry) := rfl

/-- Bytes that follow others are read on from what those leave over. -/
theorem readBlock_append (carry : Carry) (bytes more : List UInt8) :
    readBlock carry (bytes ++ more) =
      (readBlock carry bytes).bind fun first =>
        (readBlock first.2 more).map fun second => (first.1 ++ second.1, second.2) := by
  simp only [readBlock_eq, Utf8.decodeFrom_append]
  cases Utf8.decodeFrom carry.decoder [] bytes with
  | none => rfl
  | some first =>
    simp only [Option.bind_some, Option.map_some]
    rw [Utf8.decodeFrom_eq_map]
    cases Utf8.decodeFrom first.2 [] more with
    | none => rfl
    | some second =>
      simp only [Option.map_some, List.reverse_reverse, cutLines_append]
      rfl

/-- Bytes that are decoded leave nothing over if they end with a line feed. -/
theorem eq_none_of_lineFeed (h : readBlock .none bytes = some (lines, after))
    (hend : bytes.getLast? = some 10) : after = .none := by
  rw [readBlock_eq, Option.map_eq_some_iff] at h
  obtain ⟨⟨text, decoder⟩, hdecode, hcut⟩ := h
  obtain ⟨front, rfl⟩ := List.getLast?_eq_some_iff.mp hend
  obtain ⟨rfl, before, rfl⟩ := Utf8.decodeFrom_concat_lineFeed hdecode
  simp only [cutLines_append, cutLines_lineFeed] at hcut
  exact (Prod.mk.inj hcut).2.symm

theorem blocks_nil : blocks [] = [] := rfl

/-- The first block of some bytes, and the others. -/
theorem blocks_eq (h : bytes ≠ []) :
    blocks bytes = bytes.take blockSize :: blocks (bytes.drop blockSize) := by
  have hlength := List.length_pos_iff.mpr h
  have hcount : (bytes.length + blockSize - 1) / blockSize =
      ((bytes.drop blockSize).length + blockSize - 1) / blockSize + 1 := by
    rw [List.length_drop, blockSize]
    omega
  rw [blocks, hcount, List.range_succ_eq_map, List.map_cons, List.map_map, Nat.zero_mul,
    List.drop_zero, blocks]
  refine congrArg (_ :: ·) (List.map_congr_left fun i _ => ?_)
  rw [Function.comp_apply, Nat.succ_mul, List.drop_drop, Nat.add_comm]

/-- Behind whole blocks the blocks of the other bytes come. -/
theorem blocks_append {k : Nat} (h : bytes.length = k * blockSize) :
    blocks (bytes ++ more) = blocks bytes ++ blocks more := by
  induction k generalizing bytes with
  | zero =>
    rw [Nat.zero_mul, List.length_eq_zero_iff] at h
    rw [h, blocks_nil, List.nil_append, List.nil_append]
  | succ k ih =>
    have hsize : 0 < blockSize := by decide
    rw [Nat.succ_mul] at h
    have hne : bytes ≠ [] := by
      rintro rfl
      rw [List.length_nil] at h
      omega
    have hle : blockSize ≤ bytes.length := by omega
    rw [blocks_eq hne, blocks_eq (by simp [hne]), List.take_append_of_le_length hle,
      List.drop_append_of_le_length hle, ih (by rw [List.length_drop]; omega), List.cons_append]

theorem flatten_blocks (bytes : List UInt8) : (blocks bytes).flatten = bytes := by
  by_cases hne : bytes = []
  · rw [hne]
    rfl
  · rw [blocks_eq hne, List.flatten_cons, flatten_blocks (bytes.drop blockSize),
      List.take_append_drop]
termination_by bytes.length
decreasing_by
  rw [List.length_drop, blockSize]
  have := List.length_pos_iff.mpr hne
  omega

end Blocks

/-- Blocks that can be decoded are read as their bytes are at once. -/
theorem readBlocks_append {s : Scanner} {carry after : Carry} {lines : List (List Char)}
    {bs : List (List UInt8)} (hopen : s.isDone = false)
    (h : readBlock carry bs.flatten = some (lines, after)) (more : List (List UInt8)) :
    readBlocks s carry (bs ++ more) =
      match feedLines s lines with
      | .error fault => .error (.header fault)
      | .ok next =>
        if next.isDone then next.finish.mapError .header else readBlocks next after more := by
  induction bs generalizing s carry lines with
  | nil =>
    rw [List.flatten_nil, readBlock_nil] at h
    cases h
    simp [feedLines, hopen]
  | cons block bs ih =>
    rw [List.flatten_cons, readBlock_append, Option.bind_eq_some_iff] at h
    obtain ⟨⟨first, between⟩, hblock, hrest⟩ := h
    obtain ⟨⟨second, after'⟩, hsecond, heq⟩ := Option.map_eq_some_iff.mp hrest
    cases heq
    rw [List.cons_append, readBlocks, hblock, Scanner.feedLines_append s first second hopen]
    dsimp only
    cases feedLines s first with
    | error fault => rfl
    | ok next =>
      cases hdone : next.isDone with
      | true => simp [Except.bind, hdone]
      | false => simpa [Except.bind, hdone] using ih hdone hsecond

/-! ## Whole files -/

/-- At the end of a file the line that is left over is read. -/
theorem readBlocks_nil (s : Scanner) {carry : Carry} (h : carry.decoder = .ready) :
    readBlocks s carry [] =
      (s.readFrom (leftOver carry.afterReturn carry.line)).mapError .header := by
  have hlast : lastLines carry = some (leftOver carry.afterReturn carry.line) := by
    rw [lastLines, if_neg (not_not.mpr h), leftOver]
    split_ifs <;> rfl
  rw [readBlocks, hlast, Scanner.readFrom_eq_feedLines]

/-- An empty line at the end changes nothing. -/
theorem exposingOfLines_congr {lines more : List (List Char)} (h : UpToEmptyLast lines more) :
    exposingOfLines lines = exposingOfLines more := by
  cases h with
  | same => rfl
  | empty => rw [Header.exposingOfLines_eq, Header.exposingOfLines_eq, Header.contentLines_concat_nil]

/-- A file that can be decoded is read as its lines are. -/
theorem exposingOfBytes_eq {bytes : List UInt8} {text : List Char}
    (h : Utf8.decodeFrom .ready [] bytes = some (text, .ready)) :
    exposingOfBytes bytes = (exposingOfLines (fileLines text)).mapError .header := by
  obtain ⟨lines, carry, hblock, hready, hlines⟩ : ∃ lines carry,
      readBlock .none (blocks bytes).flatten = some (lines, carry) ∧ carry.decoder = .ready ∧
        UpToEmptyLast (lines ++ leftOver carry.afterReturn carry.line) (fileLines text) := by
    let cut := cutLines false [] text
    refine ⟨cut.1, ⟨.ready, cut.2.1, cut.2.2⟩, ?_, rfl, ?_⟩
    · rw [flatten_blocks, readBlock_eq, Carry.none, h, Option.map_some]
    · simpa using cutLines_upToEmptyLast false [] text
  have hread := readBlocks_append (s := .initial) rfl hblock []
  rw [List.append_nil] at hread
  rw [exposingOfBytes, hread, ← exposingOfLines_congr hlines, exposingOfLines,
    Scanner.readFrom_eq_feedLines, Scanner.feedLines_append .initial lines _ rfl]
  cases feedLines .initial lines with
  | error fault => rfl
  | ok next =>
    cases hdone : next.isDone with
    | true => simp [Except.bind, hdone]
    | false =>
      simp only [Except.bind, hdone, Bool.false_eq_true, if_false]
      rw [readBlocks_nil next hready, Scanner.readFrom_eq_feedLines]
      rfl

theorem exposing_eq {fs : FileSystem} {path : Path} {bytes : List UInt8}
    (h : fs.read path = .ok bytes) :
    exposing fs path = (exposingOfBytes bytes).mapError fun e => .problem (problemAt path e) := by
  rw [exposing, h]

end Source

end ElmSuite

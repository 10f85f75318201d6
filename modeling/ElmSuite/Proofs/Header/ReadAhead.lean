import ElmSuite.Proofs.Header.SourceText

/-!
# Reading ahead of a header

The header of a file is read from blocks that are decoded as a whole, so that bytes behind
the header are looked at if they are in its last block. Whatever they are, they never
change what is exposed: a text has to start with them, and that is all.
-/

namespace ElmSuite.Source

/-- Bytes that complete lines which hold a header. -/
def HoldsHeader (bytes : List UInt8) : Prop :=
  ∃ lines carry e, readBlock .none bytes = some (lines, carry) ∧ exposingOfLines lines = .ok e

/-- Some whole blocks in front of the last one hold the header of a file. -/
def EndsEarly (bytes : List UInt8) : Prop :=
  ∃ k, k * blockSize < bytes.length ∧ HoldsHeader (bytes.take (k * blockSize))

/-- How many bytes more the last block of a file may have. -/
def room (bytes : List UInt8) : Nat := (blockSize - bytes.length % blockSize) % blockSize

/-- Bytes with which a text may start, the last character of which may be unfinished. -/
def StartsText (bytes : List UInt8) : Prop := ∃ text : String, bytes <+: text.toUTF8.toList

theorem readBlock_none_eq_none_iff {bytes : List UInt8} :
    readBlock .none bytes = none ↔ ¬ StartsText bytes := by
  rw [readBlock_eq, Option.map_eq_none_iff, StartsText, ← Utf8.exists_decodeFrom_iff,
    Option.eq_none_iff_forall_ne_some]
  simp [Carry.none]

/-! ## Whole blocks -/

/-- The first block of a file that gives a result is decoded, and its lines complete the header or
the next blocks are read. -/
theorem exists_of_readBlocks_cons {s : Scanner} {carry : Carry} {block : List UInt8}
    {rest : List (List UInt8)} {e : Exposing} (h : readBlocks s carry (block :: rest) = .ok e) :
    ∃ lines after next, readBlock carry block = some (lines, after) ∧
      feedLines s lines = .ok next ∧
      (next.isDone = true ∧ next.finish = .ok e ∨
        next.isDone = false ∧ readBlocks next after rest = .ok e) := by
  rw [readBlocks] at h
  cases hblock : readBlock carry block with
  | none =>
    rw [hblock] at h
    cases h
  | some read =>
    obtain ⟨lines, after⟩ := read
    rw [hblock] at h
    dsimp only at h
    cases hfeed : feedLines s lines with
    | error fault =>
      rw [hfeed] at h
      cases h
    | ok next =>
      rw [hfeed] at h
      refine ⟨lines, after, next, rfl, hfeed, ?_⟩
      cases hdone : next.isDone with
      | false =>
        simp only [hdone, Bool.false_eq_true, if_false] at h
        exact .inr ⟨rfl, h⟩
      | true =>
        simp only [hdone, if_true] at h
        cases hfinish : next.finish with
        | error fault =>
          rw [hfinish] at h
          cases h
        | ok e' =>
          rw [hfinish] at h
          cases h
          exact .inl ⟨rfl, rfl⟩

/-- What has become of the scanner when the lines in some bytes are fed, and what is left over. -/
def Leads (bytes : List UInt8) (s : Scanner) (carry : Carry) : Prop :=
  ∃ lines, readBlock .none bytes = some (lines, carry) ∧ feedLines .initial lines = .ok s

section Leads

variable {front block bytes : List UInt8} {s next : Scanner} {carry after : Carry}
  {lines : List (List Char)} {k n : Nat} {e : Exposing}

theorem leads_nil : Leads [] .initial .none := ⟨[], rfl, rfl⟩

/-- One block more. -/
theorem Leads.append (h : Leads front s carry) (hopen : s.isDone = false)
    (hblock : readBlock carry block = some (lines, after)) (hfeed : feedLines s lines = .ok next) :
    Leads (front ++ block) next after := by
  obtain ⟨before, hfront, hbefore⟩ := h
  refine ⟨before ++ lines, ?_, ?_⟩
  · rw [readBlock_append, hfront, Option.bind_some, hblock, Option.map_some]
  · rw [Scanner.feedLines_append .initial before lines rfl, hbefore, Except.bind, hopen,
      if_neg Bool.false_ne_true, hfeed]

theorem holdsHeader_iff :
    HoldsHeader bytes ↔ ∃ s carry e, Leads bytes s carry ∧ s.isDone = true ∧ s.finish = .ok e := by
  constructor
  · rintro ⟨lines, carry, e, hread, hlines⟩
    obtain ⟨s, hfeed, hdone, hfinish⟩ := Scanner.readFrom_eq_ok_iff.mp hlines
    exact ⟨s, carry, e, ⟨lines, hread, hfeed⟩, hdone, hfinish⟩
  · rintro ⟨s, carry, e, ⟨lines, hread, hfeed⟩, hdone, hfinish⟩
    exact ⟨lines, carry, e, hread, Scanner.readFrom_eq_ok_iff.mpr ⟨s, hfeed, hdone, hfinish⟩⟩

/-- Behind whole blocks the scanner goes on, unless the header is complete. -/
theorem Leads.exposingOfBytes_append (h : Leads front s carry)
    (hlength : front.length = k * blockSize) (more : List UInt8) :
    exposingOfBytes (front ++ more) =
      if s.isDone then s.finish.mapError .header else readBlocks s carry (blocks more) := by
  obtain ⟨lines, hread, hfeed⟩ := h
  rw [exposingOfBytes, blocks_append hlength,
    readBlocks_append rfl (by rwa [flatten_blocks]), hfeed]

/-- No bytes matter behind whole blocks that hold the header. -/
theorem HoldsHeader.exposingOfBytes_append (h : HoldsHeader front)
    (hlength : front.length = k * blockSize) :
    ∃ e, ∀ more, exposingOfBytes (front ++ more) = .ok e := by
  obtain ⟨s, carry, e, hleads, hdone, hfinish⟩ := holdsHeader_iff.mp h
  refine ⟨e, fun more => ?_⟩
  rw [hleads.exposingOfBytes_append hlength, if_pos hdone, hfinish]
  rfl

/-- How a file that gives a result is read on behind whole blocks that do not complete its header. -/
theorem Leads.exists_next (h : Leads (bytes.take (n * blockSize)) s carry) (hopen : s.isDone = false)
    (hok : exposingOfBytes bytes = .ok e) (hn : n * blockSize < bytes.length) :
    ∃ lines after next,
      readBlock carry ((bytes.drop (n * blockSize)).take blockSize) = some (lines, after) ∧
      feedLines s lines = .ok next ∧ Leads (bytes.take ((n + 1) * blockSize)) next after ∧
      (next.isDone = true ∧ next.finish = .ok e ∨
        next.isDone = false ∧
          readBlocks next after (blocks (bytes.drop ((n + 1) * blockSize))) = .ok e) := by
  have hne : bytes.drop (n * blockSize) ≠ [] := by
    rw [ne_eq, List.drop_eq_nil_iff]
    omega
  have hrun := h.exposingOfBytes_append (List.length_take_of_le (Nat.le_of_lt hn))
    (bytes.drop (n * blockSize))
  rw [List.take_append_drop, hok, hopen, if_neg Bool.false_ne_true, blocks_eq hne] at hrun
  obtain ⟨lines, after, next, hblock, hfeed, hnext⟩ := exists_of_readBlocks_cons hrun.symm
  have hleads := h.append hopen hblock hfeed
  rw [← List.take_add, ← Nat.succ_mul] at hleads
  rw [List.drop_drop, ← Nat.succ_mul] at hnext
  exact ⟨lines, after, next, hblock, hfeed, hleads, hnext⟩

/-- While a file is read that gives a result, its first blocks hold the header, or they lead to a
scanner that wants more. -/
theorem holdsHeader_or_leads (hok : exposingOfBytes bytes = .ok e)
    (h : n * blockSize ≤ bytes.length) :
    (∃ k, k ≤ n ∧ HoldsHeader (bytes.take (k * blockSize))) ∨
      ∃ s carry, Leads (bytes.take (n * blockSize)) s carry ∧ s.isDone = false := by
  induction n with
  | zero =>
    rw [Nat.zero_mul, List.take_zero]
    exact .inr ⟨.initial, .none, leads_nil, rfl⟩
  | succ n ih =>
    have hsize : 0 < blockSize := by decide
    rw [Nat.succ_mul] at h
    rcases ih (by omega) with ⟨k, hk, hholds⟩ | ⟨s, carry, hleads, hopen⟩
    · exact .inl ⟨k, by omega, hholds⟩
    · obtain ⟨-, after, next, -, -, hleads, ⟨hdone, hfinish⟩ | ⟨hwants, -⟩⟩ :=
        hleads.exists_next hopen hok (by omega)
      · exact .inl ⟨n + 1, Nat.le_refl _,
          holdsHeader_iff.mpr ⟨next, after, e, hleads, hdone, hfinish⟩⟩
      · exact .inr ⟨next, after, hleads, hwants⟩

end Leads

/-! ## The last block -/

section Last

variable {h t : List UInt8} {n : Nat} {e : Exposing}

theorem length_last_block (hlast : h.length ≤ (n + 1) * blockSize) :
    (h.drop (n * blockSize)).length ≤ blockSize := by
  rw [List.length_drop, Nat.sub_le_iff_le_add', ← Nat.succ_mul]
  exact hlast

/-- The room in the last block is what it lacks. -/
theorem room_eq (hn : n * blockSize < h.length) (hlast : h.length ≤ (n + 1) * blockSize) :
    room h = blockSize - (h.drop (n * blockSize)).length := by
  rw [List.length_drop, room]
  rw [blockSize] at hn hlast ⊢
  omega

/-- How the last block of a file that ends with a line feed is read if the header ends in it. -/
theorem exists_last_block (hok : exposingOfBytes h = .ok e) (hend : h.getLast? = some 10)
    (hearly : ¬ EndsEarly h) :
    ∃ n s carry lines next, n * blockSize < h.length ∧ h.length ≤ (n + 1) * blockSize ∧
      Leads (h.take (n * blockSize)) s carry ∧ s.isDone = false ∧
      readBlock carry (h.drop (n * blockSize)) = some (lines, .none) ∧
      feedLines s lines = .ok next ∧ next.isDone = true ∧ next.finish = .ok e := by
  have hpos : 0 < h.length := by
    obtain ⟨before, rfl⟩ := List.getLast?_eq_some_iff.mp hend
    simp
  obtain ⟨n, hn, hlast⟩ : ∃ n, n * blockSize < h.length ∧ h.length ≤ (n + 1) * blockSize := by
    refine ⟨(h.length - 1) / blockSize, ?_⟩
    rw [blockSize]
    omega
  rcases holdsHeader_or_leads hok (Nat.le_of_lt hn) with ⟨k, hk, hholds⟩ | ⟨s, carry, hleads, hopen⟩
  · exact absurd ⟨k, Nat.lt_of_le_of_lt (Nat.mul_le_mul_right _ hk) hn, hholds⟩ hearly
  · obtain ⟨lines, after, next, hblock, hfeed, hwhole, hnext⟩ := hleads.exists_next hopen hok hn
    rw [List.take_of_length_le (length_last_block hlast)] at hblock
    rw [List.take_of_length_le hlast] at hwhole
    obtain ⟨all, hall, -⟩ := hwhole
    obtain rfl := eq_none_of_lineFeed hall hend
    refine ⟨n, s, carry, lines, next, hn, hlast, hleads, hopen, hblock, hfeed, ?_⟩
    rcases hnext with hdone | ⟨hwants, hempty⟩
    · exact hdone
    · -- without a line left over there is nothing to read at the end
      rw [List.drop_of_length_le hlast, blocks_nil, readBlocks_nil next rfl] at hempty
      change (next.finish.mapError SourceFault.header) = .ok e at hempty
      rw [Scanner.finish_eq_error_iff.mpr ⟨hwants, rfl⟩] at hempty
      cases hempty

/-- What follows a file whose header ends in its last block has to start a text, as far as it is in
that block. -/
theorem exposingOfBytes_of_not_endsEarly (hok : exposingOfBytes h = .ok e)
    (hend : h.getLast? = some 10) (hearly : ¬ EndsEarly h) :
    (StartsText (t.take (room h)) → exposingOfBytes (h ++ t) = .ok e) ∧
      (¬ StartsText (t.take (room h)) → exposingOfBytes (h ++ t) = .error .undecodable) := by
  obtain ⟨n, s, carry, lines, next, hn, hlast, hleads, hopen, hblock, hfeed, hdone, hfinish⟩ :=
    exists_last_block hok hend hearly
  have hne : h.drop (n * blockSize) ++ t ≠ [] := by
    rw [ne_eq, List.append_eq_nil_iff, List.drop_eq_nil_iff]
    omega
  have hread : readBlock carry ((h.drop (n * blockSize) ++ t).take blockSize) =
      (readBlock .none (t.take (room h))).map fun second => (lines ++ second.1, second.2) := by
    rw [List.take_append, List.take_of_length_le (length_last_block hlast), ← room_eq hn hlast,
      readBlock_append, hblock, Option.bind_some]
  have hrun := hleads.exposingOfBytes_append (List.length_take_of_le (Nat.le_of_lt hn))
    (h.drop (n * blockSize) ++ t)
  rw [← List.append_assoc, List.take_append_drop, hopen, if_neg Bool.false_ne_true, blocks_eq hne,
    readBlocks, hread] at hrun
  rw [hrun]
  constructor
  · intro hstart
    obtain ⟨⟨more, after⟩, hmore⟩ := Option.ne_none_iff_exists'.mp
      (mt readBlock_none_eq_none_iff.mp (not_not.mpr hstart))
    rw [hmore, Option.map_some]
    dsimp only
    rw [Scanner.feedLines_append s lines more hopen, hfeed, Except.bind, if_pos hdone]
    simp only [hdone, if_true, hfinish]
    rfl
  · intro hstart
    rw [readBlock_none_eq_none_iff.mpr hstart]
    rfl

/-- What follows a file whose header ends early does not matter. -/
theorem exposingOfBytes_of_endsEarly (hok : exposingOfBytes h = .ok e) (hearly : EndsEarly h) :
    exposingOfBytes (h ++ t) = .ok e := by
  obtain ⟨k, hk, hholds⟩ := hearly
  obtain ⟨e', hall⟩ := hholds.exposingOfBytes_append (List.length_take_of_le (Nat.le_of_lt hk))
  have hwhole := hall (h.drop (k * blockSize))
  rw [List.take_append_drop, hok] at hwhole
  have hmore := hall (h.drop (k * blockSize) ++ t)
  rwa [← List.append_assoc, List.take_append_drop, ← hwhole] at hmore

end Last

/-! ## Files -/

theorem exposing_eq_ok_iff {fs : FileSystem} {path : Path} {bytes : List UInt8} {e : Exposing}
    (h : fs.read path = .ok bytes) : exposing fs path = .ok e ↔ exposingOfBytes bytes = .ok e := by
  rw [exposing_eq h]
  cases exposingOfBytes bytes <;> simp [Except.mapError]

/-- **What follows the header of a file never changes what it exposes.** Whatever bytes follow a file
that ends with a line feed and exposes something, the longer file exposes the same, or it cannot be
read. It cannot be read if and only if the header ends in the last block of the shorter file, and no
text starts with the bytes that follow in this block; so a text may always follow. -/
theorem exposing_append {fs fs' : FileSystem} {path path' : Path} {h t : List UInt8} {e : Exposing}
    (hread : fs.read path = .ok h) (hread' : fs'.read path' = .ok (h ++ t))
    (hend : h.getLast? = some 10) (hok : exposing fs path = .ok e) :
    (EndsEarly h ∨ StartsText (t.take (room h)) → exposing fs' path' = .ok e) ∧
    (¬ EndsEarly h → ¬ StartsText (t.take (room h)) →
      exposing fs' path' = .error (.problem (.unreadableSource (some path')))) ∧
    ∀ text : String, t = text.toUTF8.toList → exposing fs' path' = .ok e := by
  have hok := (exposing_eq_ok_iff hread).mp hok
  have hsame : EndsEarly h ∨ StartsText (t.take (room h)) → exposing fs' path' = .ok e := by
    intro hcase
    rw [exposing_eq_ok_iff hread']
    by_cases hearly : EndsEarly h
    · exact exposingOfBytes_of_endsEarly hok hearly
    · exact (exposingOfBytes_of_not_endsEarly hok hend hearly).1 (hcase.resolve_left hearly)
  refine ⟨hsame, fun hearly hstart => ?_, ?_⟩
  · rw [exposing_eq hread', (exposingOfBytes_of_not_endsEarly hok hend hearly).2 hstart]
    rfl
  · rintro text rfl
    exact hsame (.inr ⟨text, List.take_prefix _ _⟩)

/-- A file that is its header. -/
def headerBytes : List UInt8 := "module A exposing (t)\n".toUTF8.toList

/-- An unfinished character may follow. -/
theorem exposing_unfinishedCharacter :
    exposing (oneFile (headerBytes ++ [0xC3])) ⟨.here, ["A.elm"]⟩ =
      .ok (.only (NameSet.ofList ["t"])) := by
  have hread : (oneFile headerBytes).read ⟨.here, ["A.elm"]⟩ = .ok headerBytes := by decide +kernel
  have hread' : (oneFile (headerBytes ++ [0xC3])).read ⟨.here, ["A.elm"]⟩ =
      .ok (headerBytes ++ [0xC3]) := by decide +kernel
  have hsame := exposing_append hread hread' (by decide +kernel)
    (show exposing (oneFile headerBytes) _ = .ok (.only (NameSet.ofList ["t"])) by decide +kernel)
  exact hsame.1 (.inr ⟨"é", by decide +kernel⟩)

/-- A byte with which no character starts may not. -/
theorem exposing_badByte :
    exposing (oneFile headerBytes) ⟨.here, ["A.elm"]⟩ = .ok (.only (NameSet.ofList ["t"])) ∧
    exposing (oneFile (headerBytes ++ [0xFF])) ⟨.here, ["A.elm"]⟩ =
      .error (.problem (.unreadableSource (some ⟨.here, ["A.elm"]⟩))) := by
  decide +kernel

end ElmSuite.Source

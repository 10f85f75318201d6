import ElmSuite.Proofs.Header.LineLoop

/-!
# The history of a scanner

A scanner may be asked anything in any order: to read a line, for the result, and
whether a name is exposed; also after it has refused a line. Whatever was asked of
it before, its counters are right, it has not gone back, and a complete header
takes no more lines.
-/

namespace ElmSuite

namespace Scanner

/-- What is asked of a scanner. -/
inductive Request where
  /-- To read a line. -/
  | feed (line : List Char)
  /-- What the header exposes. -/
  | finish
  /-- Whether the header exposes a name. -/
  | exposes (name : CodePoints)
  deriving DecidableEq

/-- What a scanner answers. -/
inductive Answer where
  /-- Whether the header is complete. -/
  | complete (isDone : Bool)
  | exposing (result : Exposing)
  | exposed (isExposed : Bool)
  deriving DecidableEq

/-- The scanner after a request, and its answer. -/
def request (s : Scanner) : Request → Scanner × Except HeaderFault Answer
  | .feed line =>
    match s.feed line with
    | (next, none) => (next, .ok (.complete next.isDone))
    | (next, some fault) => (next, .error fault)
  | .finish => (s, s.finish.map .exposing)
  | .exposes name => (s, s.finish.map fun result => .exposed (result.exposes name))

/-- The scanner after some requests, whatever it answered to them. -/
def after (s : Scanner) (requests : List Request) : Scanner :=
  requests.foldl (fun s r => (s.request r).1) s

/-- A scanner whose counters are right. -/
structure Consistent (s : Scanner) : Prop where
  depth : 0 ≤ s.commentDepth
  counted : s.phase.Counted

variable {s : Scanner} {line : List Char} {fault : HeaderFault}

/-! ## One line -/

/-- A complete header takes no more lines. -/
theorem feed_of_isDone (h : s.isDone = true) (line : List Char) : s.feed line = (s, none) := by
  rw [feed, if_pos h]

/-- A line without content leads nowhere. -/
theorem feed_of_allBlank (h : s.isDone = false) {kept : List Char} {depth : Int}
    (hstrip : Comment.strip s.commentDepth (Text.dropLineEnd line) = (kept, depth))
    (hblank : Text.allBlank kept = true) : s.feed line = (⟨depth, s.phase⟩, none) := by
  simp [feed, h, hstrip, hblank]

/-- A line with content leads where the loop over it leads. -/
theorem exists_loop_feed (h : s.isDone = false) {kept : List Char} {depth : Int}
    (hstrip : Comment.strip s.commentDepth (Text.dropLineEnd line) = (kept, depth))
    (hblank : Text.allBlank kept = false) :
    ∃ n last fault?, s.phase.Loop (some kept) n last fault? ∧
      s.feed line = (⟨depth, last⟩, fault?) := by
  simp only [feed, h, hstrip, hblank, Bool.false_eq_true, if_false]
  cases hadvance : s.phase.advance kept with
  | none =>
    obtain ⟨n, hloop⟩ := HeaderPhase.loop_of_advance_eq_none hadvance
    exact ⟨n, s.phase, some .missingModule, hloop, rfl⟩
  | some next =>
    obtain ⟨n, hloop⟩ := HeaderPhase.loop_of_advance hadvance
    exact ⟨n, next, none, hloop, rfl⟩

/-- Reading a line leaves the phase, or takes it through a loop; the depth is that after the line. -/
theorem feed_cases (s : Scanner) (line : List Char) :
    s.feed line = (s, none) ∨
      ∃ left n last fault?, s.phase.Loop left n last fault? ∧
        s.feed line =
          (⟨(Comment.strip s.commentDepth (Text.dropLineEnd line)).2, last⟩, fault?) := by
  by_cases hdone : s.isDone = true
  · exact .inl (feed_of_isDone hdone line)
  · right
    have hopen : s.isDone = false := by simpa using hdone
    by_cases hblank : Text.allBlank (Comment.strip s.commentDepth (Text.dropLineEnd line)).1 = true
    · exact ⟨none, 0, s.phase, none, .usedUp _, feed_of_allBlank hopen rfl hblank⟩
    · have hstrip : Comment.strip s.commentDepth (Text.dropLineEnd line) = (_, _) := rfl
      obtain ⟨n, last, fault?, hloop, hfeed⟩ :=
        exists_loop_feed hopen hstrip (Bool.not_eq_true _ ▸ hblank)
      exact ⟨_, n, last, fault?, hloop, hfeed⟩

theorem rank_feed (s : Scanner) (line : List Char) :
    s.phase.rank ≤ (s.feed line).1.phase.rank := by
  rcases feed_cases s line with h | ⟨left, n, last, fault?, hloop, h⟩
  · simp [h]
  · rw [h]
    exact hloop.rank_le

theorem Consistent.feed (h : s.Consistent) (line : List Char) : (s.feed line).1.Consistent := by
  rcases feed_cases s line with hfeed | ⟨left, n, last, fault?, hloop, hfeed⟩
  · rw [hfeed]
    exact h
  · rw [hfeed]
    exact ⟨Comment.stripFrom_depth_nonneg false _ _ h.depth, hloop.counted h.counted⟩

/-- A line is refused for the missing module keyword, and leaves the phase as it was. -/
theorem phase_feed_of_fault (h : (s.feed line).2 = some fault) :
    (s.feed line).1.phase = s.phase ∧ fault = .missingModule := by
  rcases feed_cases s line with hfeed | ⟨left, n, last, fault?, hloop, hfeed⟩
  · rw [hfeed] at h
    cases h
  · rw [hfeed] at h ⊢
    cases h
    exact hloop.eq_of_fault

/-! ## One request -/

theorem finish_eq_error_iff : s.finish = .error fault ↔ s.isDone = false ∧ fault = .unfinished := by
  cases hphase : s.phase <;> simp [finish, isDone, HeaderPhase.rank, hphase, eq_comm]

@[simp] theorem request_feed_fst (s : Scanner) (line : List Char) :
    (s.request (.feed line)).1 = (s.feed line).1 := by
  rw [request]
  rcases s.feed line with ⟨next, _ | fault⟩ <;> rfl

theorem request_feed_eq_error :
    (s.request (.feed line)).2 = .error fault ↔ (s.feed line).2 = some fault := by
  rw [request]
  rcases s.feed line with ⟨next, _ | fault⟩ <;> simp

/-- Only a line changes a scanner. -/
theorem request_of_question {r : Request} (h : ∀ line, r ≠ .feed line) : (s.request r).1 = s := by
  cases r with
  | feed line => exact absurd rfl (h line)
  | finish | exposes => rfl

/-- No request takes a scanner back. -/
theorem rank_request (s : Scanner) (r : Request) :
    s.phase.rank ≤ (s.request r).1.phase.rank := by
  cases r with
  | feed line =>
    rw [request_feed_fst]
    exact rank_feed s line
  | finish | exposes => exact Nat.le_refl _

theorem Consistent.request (h : s.Consistent) (r : Request) : (s.request r).1.Consistent := by
  cases r with
  | feed line =>
    rw [request_feed_fst]
    exact h.feed line
  | finish | exposes => exact h

/-- A request that fails leaves the phase as it was. -/
theorem phase_request_of_error {r : Request} (h : (s.request r).2 = .error fault) :
    (s.request r).1.phase = s.phase := by
  cases r with
  | feed line =>
    rw [request_feed_fst]
    exact (phase_feed_of_fault (request_feed_eq_error.mp h)).1
  | finish | exposes => rfl

/-- No request changes a complete header. -/
theorem request_of_isDone (h : s.isDone = true) (r : Request) : (s.request r).1 = s := by
  cases r with
  | feed line => rw [request_feed_fst, feed_of_isDone h]
  | finish | exposes => rfl

/-! ## Many requests -/

theorem rank_after (s : Scanner) (requests : List Request) :
    s.phase.rank ≤ (s.after requests).phase.rank := by
  induction requests generalizing s with
  | nil => exact Nat.le_refl _
  | cons r more ih => exact Nat.le_trans (rank_request s r) (ih _)

theorem Consistent.after (h : s.Consistent) (requests : List Request) :
    (s.after requests).Consistent := by
  induction requests generalizing s with
  | nil => exact h
  | cons r more ih => exact ih (h.request r)

theorem consistent_initial : initial.Consistent :=
  ⟨Int.le_refl 0, HeaderPhase.counted_of_rank (by decide)⟩

/-- Lines behind those that settle what is read do not matter. -/
theorem readFrom_append_of_ne {lines : List (List Char)} (h : s.isDone = false)
    (hread : s.readFrom lines ≠ .error .unfinished) (more : List (List Char)) :
    s.readFrom (lines ++ more) = s.readFrom lines := by
  induction lines generalizing s with
  | nil => exact absurd (finish_eq_error_iff.mpr ⟨h, rfl⟩) hread
  | cons line rest ih =>
    rw [List.cons_append]
    simp only [readFrom] at hread ⊢
    generalize s.feed line = outcome at hread ⊢
    obtain ⟨next, fault?⟩ := outcome
    cases fault? with
    | some fault => rfl
    | none =>
      by_cases hdone : next.isDone = true
      · simp [hdone]
      · simp only [hdone, Bool.false_eq_true, if_false] at hread ⊢
        exact ih (by simpa using hdone) hread

/-- Lines behind those that give a result do not matter. -/
theorem readFrom_append {lines : List (List Char)} {result : Exposing} (h : s.isDone = false)
    (hread : s.readFrom lines = .ok result) (more : List (List Char)) :
    s.readFrom (lines ++ more) = .ok result :=
  (readFrom_append_of_ne h (by rw [hread]; exact nofun) more).trans hread

/-- What may be relied on in a scanner, and in what any request does to it. -/
structure Sound (s : Scanner) : Prop where
  consistent : s.Consistent
  /-- It never goes back. -/
  forward : ∀ requests, s.phase.rank ≤ (s.after requests).phase.rank
  /-- A request that fails changes at most the depth of comments. -/
  failed : ∀ r fault, (s.request r).2 = .error fault → (s.request r).1.phase = s.phase
  /-- A question changes nothing. -/
  asked : ∀ r, (∀ line, r ≠ .feed line) → (s.request r).1 = s
  /-- A complete header is not changed. -/
  final : s.isDone = true → ∀ r, (s.request r).1 = s
  /-- There is a result if and only if the header is complete. -/
  result : ∀ fault, s.finish = .error fault ↔ s.isDone = false ∧ fault = .unfinished
  /-- The loop over a line with content ends, after four steps at most and in one way only, and what
  it leaves is what the line leaves. -/
  loop : ∀ line kept depth, s.isDone = false →
    Comment.strip s.commentDepth (Text.dropLineEnd line) = (kept, depth) →
    Text.allBlank kept = false →
      ∃ n last fault?, s.phase.Loop (some kept) n last fault? ∧ n ≤ 4 ∧
        (∀ m last' other?, s.phase.Loop (some kept) m last' other? →
          m = n ∧ last' = last ∧ other? = fault?) ∧
        s.feed line = (⟨depth, last⟩, fault?)

theorem Consistent.sound (h : s.Consistent) : s.Sound where
  consistent := h
  forward := rank_after s
  failed _ _ := phase_request_of_error
  asked _ := request_of_question
  final := request_of_isDone
  result _ := finish_eq_error_iff
  loop := by
    intro line kept depth hopen hstrip hblank
    obtain ⟨n, last, fault?, hloop, hfeed⟩ := exists_loop_feed hopen hstrip hblank
    have hsteps := hloop.steps_le
    exact ⟨n, last, fault?, hloop, by omega, fun _ _ _ h' => hloop.unique h', hfeed⟩

/-- **Whatever a scanner was asked, it is sound**; and lines behind a complete header never change what
is read from a file. -/
theorem sound_after (requests : List Request) :
    (initial.after requests).Sound ∧
      ∀ lines more result, exposingOfLines lines = .ok result →
        exposingOfLines (lines ++ more) = .ok result :=
  ⟨(consistent_initial.after requests).sound,
    fun _ more _ h => readFrom_append rfl h more⟩

/-- A refused line leaves its comment open; the header may still follow. -/
example : (initial.after [.feed "import Html \x7b- not yet".toList, .finish,
    .feed "-\x7dmodule Main exposing (main".toList]) = ⟨0, .accumulating 1 0 ["main".toList]⟩ := by
  decide +kernel

end Scanner

end ElmSuite

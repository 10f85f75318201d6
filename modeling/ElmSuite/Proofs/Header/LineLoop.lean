import ElmSuite.Proofs.Header.WholeText

/-!
# The loop over a line

A line with content is read in steps. A step takes the text up to what the phase
waits for and hands on the rest, or takes all of it. As long as text is left and
the header is not complete there is another step; since each step that leaves text
also moves to a later phase, there are four at most.
-/

namespace ElmSuite.HeaderPhase

open Header Parentheses

/-- One step within a line: the next phase, with the text that is left if not all of it was taken. -/
def step (text : List Char) : HeaderPhase → Except HeaderFault (HeaderPhase × Option (List Char))
  | awaitingModule =>
    match afterModule? text with
    | none => .error .missingModule
    | some rest => .ok (awaitingExposing, some rest)
  | awaitingExposing =>
    match Text.afterWord? exposingWord false text with
    | none => .ok (awaitingExposing, none)
    | some rest => .ok (awaitingParen, some rest)
  | awaitingParen =>
    match afterParen? text with
    | none => .ok (awaitingParen, none)
    | some rest => .ok (accumulating 1 0 [], some rest)
  | accumulating opened closed pieces => .ok (accumulate opened closed pieces [] text, none)
  | done opened closed exposing => .ok (done opened closed exposing, none)

/-- `Loop phase left steps last fault?`: from `phase`, with what is left of a line, the loop ends
after so many steps in the phase `last`, and with a fault if a step refuses the text. -/
inductive Loop : HeaderPhase → Option (List Char) → Nat → HeaderPhase → Option HeaderFault → Prop where
  | usedUp (phase : HeaderPhase) : Loop phase none 0 phase none
  | complete {phase : HeaderPhase} (text : List Char) (h : phase.rank = 4) :
    Loop phase (some text) 0 phase none
  | refused {phase : HeaderPhase} {text : List Char} {fault : HeaderFault} (h : phase.rank ≠ 4)
    (hstep : phase.step text = .error fault) : Loop phase (some text) 1 phase (some fault)
  | onward {phase next last : HeaderPhase} {text : List Char} {left : Option (List Char)} {n : Nat}
    {fault? : Option HeaderFault} (h : phase.rank ≠ 4) (hstep : phase.step text = .ok (next, left))
    (hrest : Loop next left n last fault?) : Loop phase (some text) (n + 1) last fault?

/-- What the counters of a phase say about the list. -/
structure Counted (phase : HeaderPhase) : Prop where
  /-- Before the list nothing is counted. -/
  before : phase.rank < 3 → phase.opened = 0 ∧ phase.closed = 0
  /-- Inside the list the counters give the net depth of what was kept of it, which nowhere closes
  more than it opens. -/
  inside : ∀ opened closed pieces, phase = accumulating opened closed pieces →
    closed < opened ∧ (opened : Int) - closed - 1 = net (joinPieces pieces) ∧
      ∀ t, t <+: joinPieces pieces → 0 ≤ net t
  /-- Behind the list all that was opened is closed. -/
  settled : ∀ opened closed exposing, phase = done opened closed exposing →
    closed = opened ∧ 1 ≤ opened

variable {phase next last : HeaderPhase} {text : List Char} {left : Option (List Char)} {n : Nat}
  {fault : HeaderFault} {fault? : Option HeaderFault}

theorem rank_le_four (phase : HeaderPhase) : phase.rank ≤ 4 := by
  cases phase <;> simp [rank]

/-! ## One step -/

theorem rank_accumulate (opened closed : Nat) (pieces : List (List Char)) (piece text : List Char) :
    3 ≤ (accumulate opened closed pieces piece text).rank := by
  induction text generalizing opened closed piece with
  | nil => simp [accumulate, rank]
  | cons c rest ih =>
    unfold accumulate
    split
    · exact ih ..
    · split
      · split
        · simp [rank]
        · exact ih ..
      · exact ih ..

/-- A step leads to no earlier phase, and to a later one if it leaves text. -/
theorem rank_step (h : phase.step text = .ok (next, left)) :
    phase.rank ≤ next.rank ∧ (left ≠ none → phase.rank < next.rank) := by
  cases phase with
  | awaitingModule | awaitingExposing | awaitingParen =>
    simp only [step] at h
    split at h <;> cases h <;> simp [rank]
  | accumulating opened closed pieces =>
    cases h
    exact ⟨rank_accumulate .., by simp⟩
  | done opened closed exposing =>
    cases h
    simp

/-- Only a text in which the module keyword is missing is refused. -/
theorem step_eq_error (h : phase.step text = .error fault) :
    phase = awaitingModule ∧ fault = .missingModule := by
  cases phase with
  | awaitingModule =>
    simp only [step] at h
    split at h <;> cases h
    exact ⟨rfl, rfl⟩
  | awaitingExposing | awaitingParen =>
    simp only [step] at h
    split at h <;> cases h
  | accumulating | done => cases h

/-! ## Counters -/

theorem counted_of_rank (h : phase.rank < 3) : phase.Counted := by
  cases phase with
  | awaitingModule | awaitingExposing | awaitingParen => exact ⟨by simp [opened, closed], by simp, by simp⟩
  | accumulating | done => simp [rank] at h

theorem counted_accumulating_iff {opened closed : Nat} {pieces : List (List Char)} :
    (accumulating opened closed pieces).Counted ↔
      closed < opened ∧ (opened : Int) - closed - 1 = net (joinPieces pieces) ∧
        ∀ t, t <+: joinPieces pieces → 0 ≤ net t := by
  constructor
  · intro h
    exact h.inside opened closed pieces rfl
  · intro h
    refine ⟨by simp [rank], ?_, by simp⟩
    intro o c ps heq
    cases heq
    exact h

theorem counted_done_iff {opened closed : Nat} {exposing : Exposing} :
    (done opened closed exposing).Counted ↔ closed = opened ∧ 1 ≤ opened := by
  constructor
  · intro h
    exact h.settled opened closed exposing rfl
  · intro h
    refine ⟨by simp [rank], by simp, ?_⟩
    intro o c e heq
    cases heq
    exact h

/-- Text that closes no more than is open may be added to a list. -/
theorem sane_joinPieces_concat {pieces : List (List Char)}
    (hpieces : ∀ t, t <+: joinPieces pieces → 0 ≤ net t)
    (htext : ∀ t, t <+: text → 0 ≤ net (joinPieces pieces) + net t) :
    net (joinPieces (pieces ++ [text])) = net (joinPieces pieces) + net text ∧
      ∀ t, t <+: joinPieces (pieces ++ [text]) → 0 ≤ net t := by
  have hspace : delta ' ' = 0 := by decide
  cases pieces with
  | nil =>
    have hnil : joinPieces [] = [] := rfl
    have hone : joinPieces ([] ++ [text]) = text := by simp [joinPieces_cons]
    rw [hnil] at htext
    rw [hone, hnil]
    exact ⟨by simp, by simpa using htext⟩
  | cons first rest =>
    have hjoin : joinPieces (first :: rest ++ [text]) = joinPieces (first :: rest) ++ ' ' :: text := by
      rw [joinPieces_append, continued_cons, continued_nil, List.append_nil]
    rw [hjoin]
    refine ⟨by simp [hspace], ?_⟩
    intro t ht
    rcases List.prefix_or_prefix_of_prefix ht (List.prefix_append _ _) with hbefore | ⟨u, rfl⟩
    · exact hpieces t hbefore
    · rw [List.prefix_append_right_inj] at ht
      rcases List.prefix_cons_iff.mp ht with rfl | ⟨v, rfl, hv⟩
      · simpa using hpieces _ (List.prefix_refl _)
      · simpa [hspace] using htext v hv

theorem counted_accumulate {opened closed : Nat} {pieces : List (List Char)}
    (h : (accumulating opened closed pieces).Counted) (text : List Char) :
    (accumulate opened closed pieces [] text).Counted := by
  obtain ⟨hlt, hnet, hsane⟩ := counted_accumulating_iff.mp h
  have hopened : opened = closed + (opened - closed - 1) + 1 := by omega
  have hdepth : ((opened - closed - 1 : Nat) : Int) = net (joinPieces pieces) := by omega
  rw [accumulate_eq hopened]
  cases hin : enclosed? (opened - closed - 1) text with
  | some inner =>
    obtain ⟨-, -, hsettles⟩ := enclosed?_eq_some_iff.mp hin
    have hend := hsettles.settled
    simp only [net] at hend
    exact counted_done_iff.mpr ⟨by omega, by omega⟩
  | none =>
    have htext : ∀ t, t <+: text → 0 ≤ net (joinPieces pieces) + net t := by
      intro t ht
      rw [← hdepth]
      exact nonneg_of_enclosed?_eq_none hin ht
    obtain ⟨hall, hprefix⟩ := sane_joinPieces_concat hsane htext
    have hend := htext text (List.prefix_refl text)
    have hcounts : net text = (text.count '(' : Int) - text.count ')' := rfl
    simp only [List.reverse_nil, List.nil_append]
    exact counted_accumulating_iff.mpr ⟨by omega, by omega, hprefix⟩

/-- A step keeps the counters right. -/
theorem Counted.step (h : phase.Counted) (hstep : phase.step text = .ok (next, left)) :
    next.Counted := by
  cases phase with
  | awaitingModule | awaitingExposing =>
    simp only [HeaderPhase.step] at hstep
    split at hstep <;> cases hstep <;> exact counted_of_rank (by simp [rank])
  | awaitingParen =>
    simp only [HeaderPhase.step] at hstep
    split at hstep <;> cases hstep
    · exact counted_of_rank (by simp [rank])
    · exact counted_accumulating_iff.mpr ⟨by omega, by simp [joinPieces], by simp [joinPieces]⟩
  | accumulating opened closed pieces =>
    cases hstep
    exact counted_accumulate h text
  | done opened closed exposing =>
    cases hstep
    exact h

/-! ## The whole loop -/

theorem Loop.rank_le (h : Loop phase left n last fault?) : phase.rank ≤ last.rank := by
  induction h with
  | usedUp | complete | refused => exact Nat.le_refl _
  | onward _ hstep _ ih => exact Nat.le_trans (rank_step hstep).1 ih

theorem Loop.counted (h : Loop phase left n last fault?) (hphase : phase.Counted) :
    last.Counted := by
  induction h with
  | usedUp | complete | refused => exact hphase
  | onward _ hstep _ ih => exact ih (hphase.step hstep)

/-- Each phase takes one step of a line at most. -/
theorem Loop.steps_le (h : Loop phase left n last fault?) : n + phase.rank ≤ 4 := by
  induction h with
  | usedUp phase => have := rank_le_four phase; omega
  | complete _ h => omega
  | @refused phase _ _ h _ => have := rank_le_four phase; omega
  | @onward phase next last _ left n _ h hstep hrest ih =>
    have hle := rank_le_four phase
    cases left with
    | none =>
      cases hrest
      omega
    | some more =>
      have hlt := (rank_step hstep).2 (by simp)
      omega

/-- A loop in which a step is refused has gone nowhere. -/
theorem Loop.eq_of_fault (h : Loop phase left n last (some fault)) :
    last = phase ∧ fault = .missingModule := by
  have hend : last = awaitingModule ∧ fault = .missingModule := by
    generalize hf : some fault = outcome at h
    induction h with
    | usedUp | complete => cases hf
    | refused _ hstep =>
      cases hf
      exact step_eq_error hstep
    | onward _ _ _ ih => exact ih hf
  refine ⟨?_, hend.2⟩
  have hle := h.rank_le
  rw [hend.1] at hle ⊢
  cases phase <;> simp [rank] at hle ⊢

/-- The loop ends in one way only. -/
theorem Loop.unique {m : Nat} {last' : HeaderPhase} {other? : Option HeaderFault}
    (h : Loop phase left n last fault?) (h' : Loop phase left m last' other?) :
    m = n ∧ last' = last ∧ other? = fault? := by
  induction h generalizing m with
  | usedUp =>
    cases h'
    exact ⟨rfl, rfl, rfl⟩
  | complete _ h =>
    cases h' with
    | complete => exact ⟨rfl, rfl, rfl⟩
    | refused hne | onward hne => exact absurd h hne
  | refused h hstep =>
    cases h' with
    | complete _ hfour => exact absurd hfour h
    | refused _ hstep' =>
      rw [hstep] at hstep'
      cases hstep'
      exact ⟨rfl, rfl, rfl⟩
    | onward _ hstep' =>
      rw [hstep] at hstep'
      cases hstep'
  | onward h hstep _ ih =>
    cases h' with
    | complete _ hfour => exact absurd hfour h
    | refused _ hstep' =>
      rw [hstep] at hstep'
      cases hstep'
    | onward _ hstep' hrest' =>
      rw [hstep] at hstep'
      cases hstep'
      obtain ⟨rfl, rfl, rfl⟩ := ih hrest'
      exact ⟨rfl, rfl, rfl⟩

/-! ## The loop reads the line -/

theorem loop_accumulate (opened closed : Nat) (pieces : List (List Char)) (text : List Char) :
    ∃ n, Loop (accumulating opened closed pieces) (some text) n
      (accumulate opened closed pieces [] text) none :=
  ⟨1, .onward (by simp [rank]) rfl (.usedUp _)⟩

theorem loop_seekParen (text : List Char) :
    ∃ n, Loop awaitingParen (some text) n (seekParen text) none := by
  have hne : awaitingParen.rank ≠ 4 := by simp [rank]
  unfold seekParen
  cases h : afterParen? text with
  | none => exact ⟨1, .onward hne (by simp [step, h]) (.usedUp _)⟩
  | some rest =>
    obtain ⟨n, hloop⟩ := loop_accumulate 1 0 [] rest
    exact ⟨n + 1, .onward hne (by simp [step, h]) hloop⟩

theorem loop_seekExposing (text : List Char) :
    ∃ n, Loop awaitingExposing (some text) n (seekExposing text) none := by
  have hne : awaitingExposing.rank ≠ 4 := by simp [rank]
  rw [seekExposing_eq]
  cases h : Text.afterWord? exposingWord false text with
  | none => exact ⟨1, .onward hne (by simp [step, h]) (.usedUp _)⟩
  | some rest =>
    obtain ⟨n, hloop⟩ := loop_seekParen rest
    exact ⟨n + 1, .onward hne (by simp [step, h]) hloop⟩

/-- A line that is acceptable leads where the loop over it leads. -/
theorem loop_of_advance (h : phase.advance text = some next) :
    ∃ n, Loop phase (some text) n next none := by
  cases phase with
  | awaitingModule =>
    rw [advance, Option.map_eq_some_iff] at h
    obtain ⟨rest, hrest, rfl⟩ := h
    obtain ⟨n, hloop⟩ := loop_seekExposing rest
    exact ⟨n + 1, .onward (by simp [rank]) (by simp [step, hrest]) hloop⟩
  | awaitingExposing =>
    cases h
    exact loop_seekExposing text
  | awaitingParen =>
    cases h
    exact loop_seekParen text
  | accumulating opened closed pieces =>
    cases h
    exact loop_accumulate opened closed pieces text
  | done opened closed exposing =>
    cases h
    exact ⟨0, .complete text rfl⟩

/-- The loop over a line that is not acceptable ends with a fault. -/
theorem loop_of_advance_eq_none (h : phase.advance text = none) :
    ∃ n, Loop phase (some text) n phase (some .missingModule) := by
  cases phase with
  | awaitingModule =>
    rw [advance, Option.map_eq_none_iff] at h
    exact ⟨1, .refused (by simp [rank]) (by simp [step, h])⟩
  | awaitingExposing | awaitingParen | accumulating | done => cases h

end ElmSuite.HeaderPhase

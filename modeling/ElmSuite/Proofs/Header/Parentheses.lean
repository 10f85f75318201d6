import ElmSuite.Header.Exposing

/-!
# Parentheses in a text

The net depth of a text is how many more parentheses it opens than it closes. A
text is balanced when its net depth is zero and no prefix of it closes more than
it opens; the parenthesis that closes an open one is the first that a balanced
text stands before.
-/

namespace ElmSuite.Parentheses

/-- What one character adds to the depth. -/
def delta (c : Char) : Int := if c = '(' then 1 else if c = ')' then -1 else 0

/-- How many more parentheses a text opens than it closes. -/
def net (s : List Char) : Int := (s.count '(' : Int) - s.count ')'

/-- A text that closes what it opens and nothing else. -/
structure Balanced (s : List Char) : Prop where
  /-- Nothing is closed before it is opened. -/
  sane : ∀ t, t <+: s → 0 ≤ net t
  /-- At the end nothing is open. -/
  settled : net s = 0

/-- A text that starts `depth` parentheses deep and closes those too. -/
structure Settles (depth : Int) (s : List Char) : Prop where
  sane : ∀ t, t <+: s → 0 ≤ depth + net t
  settled : depth + net s = 0

/-- What stands before the parenthesis that closes the innermost open one but for `depth` more
inside it. -/
def enclosed? (depth : Nat) : List Char → Option (List Char)
  | [] => none
  | c :: rest =>
    if c = '(' then (enclosed? (depth + 1) rest).map (c :: ·)
    else if c = ')' then
      match depth with
      | 0 => some []
      | outer + 1 => (enclosed? outer rest).map (c :: ·)
    else (enclosed? depth rest).map (c :: ·)

/-! ## Net depth -/

theorem depthAfter_eq (depth : Int) (c : Char) : Exposing.depthAfter depth c = depth + delta c := by
  unfold Exposing.depthAfter delta
  split
  · rfl
  · split <;> omega

@[simp] theorem net_nil : net [] = 0 := rfl

@[simp] theorem net_cons (c : Char) (s : List Char) : net (c :: s) = delta c + net s := by
  simp only [net, delta, List.count_cons, beq_iff_eq]
  by_cases ho : c = '('
  · have hc : c ≠ ')' := by rw [ho]; decide
    rw [if_pos ho, if_neg hc, if_pos ho]
    omega
  · by_cases hc : c = ')'
    · rw [if_neg ho, if_pos hc, if_neg ho, if_pos hc]
      omega
    · rw [if_neg ho, if_neg hc, if_neg ho, if_neg hc]
      omega

@[simp] theorem net_append (s t : List Char) : net (s ++ t) = net s + net t := by
  simp only [net, List.count_append]
  omega

@[simp] theorem delta_open : delta '(' = 1 := rfl
@[simp] theorem delta_close : delta ')' = -1 := rfl

theorem delta_other {c : Char} (ho : c ≠ '(') (hc : c ≠ ')') : delta c = 0 := by
  simp [delta, ho, hc]

/-! ## Settling -/

theorem balanced_iff {s : List Char} : Balanced s ↔ Settles 0 s := by
  constructor
  · intro h
    exact ⟨fun t ht => by have := h.sane t ht; omega, by have := h.settled; omega⟩
  · intro h
    exact ⟨fun t ht => by have := h.sane t ht; omega, by have := h.settled; omega⟩

theorem Settles.nonneg {depth : Int} {s : List Char} (h : Settles depth s) : 0 ≤ depth := by
  simpa using h.sane [] List.nil_prefix

@[simp] theorem settles_nil {depth : Int} : Settles depth [] ↔ depth = 0 := by
  constructor
  · intro h
    simpa using h.settled
  · rintro rfl
    refine ⟨fun t ht => ?_, rfl⟩
    rw [List.prefix_nil.mp ht]
    simp

/-- One character is settled by starting at the depth that it leads to. -/
theorem settles_cons {depth : Int} {c : Char} {s : List Char} :
    Settles depth (c :: s) ↔ 0 ≤ depth ∧ Settles (depth + delta c) s := by
  constructor
  · intro h
    refine ⟨h.nonneg, fun t ht => ?_, ?_⟩
    · have := h.sane (c :: t) ((List.prefix_cons_inj c).mpr ht)
      rw [net_cons] at this
      omega
    · have := h.settled
      rw [net_cons] at this
      omega
  · rintro ⟨hd, h⟩
    refine ⟨fun t ht => ?_, ?_⟩
    · rcases List.prefix_cons_iff.mp ht with rfl | ⟨u, rfl, hu⟩
      · simpa using hd
      · have := h.sane u hu
        rw [net_cons]
        omega
    · have := h.settled
      rw [net_cons]
      omega

instance decidableSettles : (depth : Int) → (s : List Char) → Decidable (Settles depth s)
  | _, [] => decidable_of_iff _ settles_nil.symm
  | depth, c :: s =>
    have := decidableSettles (depth + delta c) s
    decidable_of_iff _ settles_cons.symm

theorem Settles.append {depth outer : Int} {s t : List Char} (hs : Settles depth s)
    (ht : Settles outer t) : Settles (depth + outer) (s ++ t) := by
  induction s generalizing depth with
  | nil =>
    have hd : depth = 0 := settles_nil.mp hs
    simpa [hd] using ht
  | cons c s ih =>
    obtain ⟨hd, hs⟩ := settles_cons.mp hs
    have hsum : depth + outer + delta c = depth + delta c + outer := by omega
    rw [List.cons_append, settles_cons, hsum]
    exact ⟨by have := ht.nonneg; omega, ih hs⟩

theorem Balanced.append {s t : List Char} (hs : Balanced s) (ht : Balanced t) :
    Balanced (s ++ t) :=
  balanced_iff.mpr ((balanced_iff.mp hs).append (balanced_iff.mp ht))

theorem net_of_not_mem {s : List Char} (ho : '(' ∉ s) (hc : ')' ∉ s) : net s = 0 := by
  rw [net, List.count_eq_zero_of_not_mem ho, List.count_eq_zero_of_not_mem hc]
  rfl

/-- A text without parentheses is balanced. -/
theorem balanced_of_not_mem {s : List Char} (ho : '(' ∉ s) (hc : ')' ∉ s) : Balanced s := by
  refine ⟨fun t ht => ?_, net_of_not_mem ho hc⟩
  have hzero := net_of_not_mem (fun h => ho (ht.subset h)) (fun h => hc (ht.subset h))
  omega

/-! ## The closing parenthesis -/

/-- `inner` is what `s` holds up to the parenthesis that closes the innermost open one but for
`depth` more. -/
def Encloses (depth : Int) (s inner : List Char) : Prop :=
  ∃ tail, s = inner ++ ')' :: tail ∧ Settles depth inner

theorem not_encloses_nil {depth : Int} {inner : List Char} : ¬ Encloses depth [] inner := by
  rintro ⟨tail, heq, -⟩
  simp at heq

/-- At depth zero a closing parenthesis ends the enclosed text. -/
theorem encloses_close {rest inner : List Char} : Encloses 0 (')' :: rest) inner ↔ inner = [] := by
  constructor
  · rintro ⟨tail, heq, hs⟩
    cases inner with
    | nil => rfl
    | cons d more =>
      obtain ⟨rfl, -⟩ := List.cons.inj heq
      have hneg : (0 : Int) ≤ 0 + delta ')' := (settles_cons.mp hs).2.nonneg
      rw [delta_close] at hneg
      omega
  · rintro rfl
    exact ⟨rest, rfl, settles_nil.mpr rfl⟩

/-- Any other character belongs to the enclosed text. -/
theorem encloses_cons {depth : Int} {c : Char} {rest inner : List Char} (hd : 0 ≤ depth)
    (h : c ≠ ')' ∨ depth ≠ 0) :
    Encloses depth (c :: rest) inner ↔
      ∃ more, Encloses (depth + delta c) rest more ∧ c :: more = inner := by
  constructor
  · rintro ⟨tail, heq, hs⟩
    cases inner with
    | nil =>
      have hc : c = ')' := (List.cons.inj heq).1
      have hz : depth = 0 := settles_nil.mp hs
      rcases h with h | h
      · exact absurd hc h
      · exact absurd hz h
    | cons d more =>
      obtain ⟨rfl, hrest⟩ := List.cons.inj heq
      exact ⟨more, ⟨tail, hrest, (settles_cons.mp hs).2⟩, rfl⟩
  · rintro ⟨more, ⟨tail, hrest, hs⟩, rfl⟩
    exact ⟨tail, by rw [hrest, List.cons_append], settles_cons.mpr ⟨hd, hs⟩⟩

/-- The search for the closing parenthesis finds the enclosed text. -/
theorem enclosed?_eq_some_iff {depth : Nat} {s inner : List Char} :
    enclosed? depth s = some inner ↔ Encloses depth s inner := by
  induction s generalizing depth inner with
  | nil => simp [enclosed?, not_encloses_nil]
  | cons c rest ih =>
    by_cases ho : c = '('
    · subst ho
      rw [encloses_cons (by omega) (Or.inl (by decide))]
      simp [enclosed?, ih]
    · by_cases hc : c = ')'
      · subst hc
        cases depth with
        | zero => simp [enclosed?, encloses_close, eq_comm]
        | succ outer =>
          have hout : ((outer + 1 : Nat) : Int) + delta ')' = outer := by rw [delta_close]; omega
          rw [encloses_cons (by omega) (Or.inr (by omega)), hout]
          simp [enclosed?, ih]
      · have hsame : (depth : Int) + delta c = depth := by rw [delta_other ho hc]; omega
        rw [encloses_cons (by omega) (Or.inl hc), hsame]
        simp [enclosed?, ho, hc, ih]

/-- A text that closes the open parenthesis does so whatever follows. -/
theorem enclosed?_append_of_some {depth : Nat} {s inner : List Char}
    (h : enclosed? depth s = some inner) (more : List Char) :
    enclosed? depth (s ++ more) = some inner := by
  obtain ⟨tail, rfl, hs⟩ := enclosed?_eq_some_iff.mp h
  exact enclosed?_eq_some_iff.mpr ⟨tail ++ more, by simp, hs⟩

/-- A text that leaves the open parenthesis open belongs to the enclosed text as a whole. -/
theorem enclosed?_append_of_none {depth : Nat} {s : List Char} (h : enclosed? depth s = none) :
    ∃ after : Nat, (after : Int) = depth + net s ∧
      ∀ more, enclosed? depth (s ++ more) = (enclosed? after more).map (s ++ ·) := by
  induction s generalizing depth with
  | nil => exact ⟨depth, by simp, fun more => by simp⟩
  | cons c rest ih =>
    by_cases ho : c = '('
    · subst ho
      obtain ⟨after, ha, hm⟩ := ih (show enclosed? (depth + 1) rest = none by
        simpa [enclosed?] using h)
      refine ⟨after, by rw [net_cons, delta_open]; omega, fun more => ?_⟩
      simp [enclosed?, hm, Function.comp_def]
    · by_cases hc : c = ')'
      · subst hc
        cases depth with
        | zero => simp [enclosed?] at h
        | succ outer =>
          obtain ⟨after, ha, hm⟩ := ih (show enclosed? outer rest = none by
            simpa [enclosed?] using h)
          refine ⟨after, by rw [net_cons, delta_close]; omega, fun more => ?_⟩
          simp [enclosed?, hm, Function.comp_def]
      · obtain ⟨after, ha, hm⟩ := ih (show enclosed? depth rest = none by
          simpa [enclosed?, ho, hc] using h)
        refine ⟨after, by rw [net_cons, delta_other ho hc]; omega, fun more => ?_⟩
        simp [enclosed?, ho, hc, hm, Function.comp_def]

/-- A text that leaves the open parenthesis open nowhere closes more than is open. -/
theorem nonneg_of_enclosed?_eq_none {depth : Nat} {s t : List Char} (h : enclosed? depth s = none)
    (ht : t <+: s) : 0 ≤ depth + net t := by
  obtain ⟨more, rfl⟩ := ht
  cases hin : enclosed? depth t with
  | some inner => simp [enclosed?_append_of_some hin more] at h
  | none =>
    obtain ⟨after, hafter, -⟩ := enclosed?_append_of_none hin
    omega

end ElmSuite.Parentheses

import Mathlib.Data.List.Forall2

/-!
# Results that may be faults

When a result that is worked on further succeeds or fails, and what comes of doing one
thing to all items of a list.
-/

namespace ElmSuite

/-- What is on the right of related lists is related to something on the left. -/
theorem exists_mem_of_forall₂ {α β : Type} {R : α → β → Prop} {as : List α} {bs : List β}
    (h : List.Forall₂ R as bs) {b : β} (hb : b ∈ bs) : ∃ a ∈ as, R a b := by
  induction h with
  | nil => cases hb
  | @cons a b' as bs hab _ ih =>
    rcases List.mem_cons.mp hb with rfl | hb
    · exact ⟨a, List.mem_cons_self .., hab⟩
    · obtain ⟨a', ha', hab'⟩ := ih hb
      exact ⟨a', List.mem_cons_of_mem a ha', hab'⟩

section Results

variable {α β ε : Type} {f : α → Except ε β} {items : List α}

/-- Whether a result is a fault is told from the faults alone, whatever the other results are. -/
instance decidableEqError [DecidableEq ε] (e : ε) : (r : Except ε β) → Decidable (r = .error e)
  | .ok _ => .isFalse nofun
  | .error e' => decidable_of_iff (e' = e) ⟨congrArg Except.error, Except.error.inj⟩

theorem mapM_cons_of_error {a : α} {e : ε} (h : f a = .error e) : (a :: items).mapM f = .error e := by
  rw [List.mapM_cons, h]
  rfl

theorem mapM_cons_of_ok {a : α} {b : β} (h : f a = .ok b) :
    (a :: items).mapM f = (items.mapM f).map (b :: ·) := by
  rw [List.mapM_cons, h]
  change (items.mapM f >>= fun rest => pure (b :: rest)) = _
  cases items.mapM f <;> rfl

theorem mapM_singleton (f : α → Except ε β) (a : α) : [a].mapM f = (f a).map fun b => [b] := by
  cases h : f a with
  | error e =>
    rw [mapM_cons_of_error h]
    rfl
  | ok b =>
    rw [mapM_cons_of_ok h, List.mapM_nil]
    rfl

theorem map_eq_error_iff {γ : Type} {g : β → γ} {r : Except ε β} {e : ε} :
    r.map g = .error e ↔ r = .error e := by
  cases r with
  | error e' => simp [Except.map]
  | ok b => simp [Except.map]

theorem map_eq_ok_iff {γ : Type} {g : β → γ} {r : Except ε β} {c : γ} :
    r.map g = .ok c ↔ ∃ b, r = .ok b ∧ c = g b := by
  cases r with
  | error e => simp [Except.map]
  | ok b => simp [Except.map, eq_comm]

theorem mapError_eq_ok_iff {ε' : Type} {g : ε → ε'} {r : Except ε β} {b : β} :
    r.mapError g = .ok b ↔ r = .ok b := by
  cases r <;> simp [Except.mapError]

theorem mapError_eq_error_iff {ε' : Type} {g : ε → ε'} {r : Except ε β} {e' : ε'} :
    r.mapError g = .error e' ↔ ∃ e, r = .error e ∧ e' = g e := by
  cases r <;> simp [Except.mapError, eq_comm]

/-- The items before the first one that fails have results. -/
theorem mapM_eq_error_iff {e : ε} :
    items.mapM f = .error e ↔
      ∃ before item after, items = before ++ item :: after ∧ (∀ a ∈ before, ∃ b, f a = .ok b) ∧
        f item = .error e := by
  induction items with
  | nil =>
    refine ⟨nofun, ?_⟩
    rintro ⟨before, item, after, h, -⟩
    simp at h
  | cons a items ih =>
    cases ha : f a with
    | error e' =>
      rw [mapM_cons_of_error ha]
      constructor
      · intro h
        obtain rfl := Except.error.inj h
        exact ⟨[], a, items, rfl, by simp, ha⟩
      · rintro ⟨before, item, after, heq, hbefore, hitem⟩
        cases before with
        | nil =>
          obtain ⟨rfl, -⟩ := List.cons.inj heq
          rw [ha] at hitem
          rw [Except.error.inj hitem]
        | cons b before =>
          obtain ⟨rfl, -⟩ := List.cons.inj heq
          obtain ⟨_, hok⟩ := hbefore _ (List.mem_cons_self ..)
          rw [ha] at hok
          cases hok
    | ok b =>
      rw [mapM_cons_of_ok ha, map_eq_error_iff, ih]
      constructor
      · rintro ⟨before, item, after, rfl, hbefore, hitem⟩
        exact ⟨a :: before, item, after, rfl, List.forall_mem_cons.mpr ⟨⟨b, ha⟩, hbefore⟩, hitem⟩
      · rintro ⟨before, item, after, heq, hbefore, hitem⟩
        cases before with
        | nil =>
          obtain ⟨rfl, -⟩ := List.cons.inj heq
          rw [ha] at hitem
          cases hitem
        | cons c before =>
          obtain ⟨-, rfl⟩ := List.cons.inj heq
          exact ⟨before, item, after, rfl, (List.forall_mem_cons.mp hbefore).2, hitem⟩

theorem mapM_eq_ok_iff {results : List β} :
    items.mapM f = .ok results ↔ List.Forall₂ (fun a b => f a = .ok b) items results := by
  induction items generalizing results with
  | nil =>
    rw [List.mapM_nil, List.forall₂_nil_left_iff]
    exact ⟨fun h => (Except.ok.inj h).symm, fun h => congrArg Except.ok h.symm⟩
  | cons a items ih =>
    rw [List.forall₂_cons_left_iff]
    cases ha : f a with
    | error e =>
      rw [mapM_cons_of_error ha]
      exact ⟨nofun, fun ⟨_, _, hb, _⟩ => nomatch hb⟩
    | ok b =>
      rw [mapM_cons_of_ok ha, map_eq_ok_iff]
      constructor
      · rintro ⟨rest, hrest, rfl⟩
        exact ⟨b, rest, rfl, ih.mp hrest, rfl⟩
      · rintro ⟨_, rest, hb, hrest, rfl⟩
        obtain rfl := Except.ok.inj hb
        exact ⟨rest, ih.mpr hrest, rfl⟩

/-- All items have results, or there is one that fails. -/
theorem mapM_cases (f : α → Except ε β) (items : List α) :
    (∃ results, items.mapM f = .ok results ∧ List.Forall₂ (fun a b => f a = .ok b) items results) ∨
      ∃ a ∈ items, ∃ e, f a = .error e ∧ items.mapM f = .error e := by
  cases h : items.mapM f with
  | ok results => exact .inl ⟨results, rfl, mapM_eq_ok_iff.mp h⟩
  | error e =>
    obtain ⟨before, a, after, rfl, -, ha⟩ := mapM_eq_error_iff.mp h
    exact .inr ⟨a, by simp, e, ha, rfl⟩

/-- All items are gone through, or there is one that fails. -/
theorem forM_cases (f : α → Except ε PUnit) (items : List α) :
    items.forM f = .ok () ∧ (∀ a ∈ items, f a = .ok ()) ∨
      ∃ a ∈ items, ∃ e, f a = .error e ∧ items.forM f = .error e := by
  induction items with
  | nil => exact .inl ⟨rfl, by simp⟩
  | cons a items ih =>
    have hcons : (a :: items).forM f = f a >>= fun _ => items.forM f := rfl
    cases ha : f a with
    | error e => exact .inr ⟨a, List.mem_cons_self .., e, ha, by rw [hcons, ha]; rfl⟩
    | ok _ =>
      have hrest : (a :: items).forM f = items.forM f := by rw [hcons, ha]; rfl
      rw [hrest]
      rcases ih with ⟨hok, hall⟩ | ⟨b, hb, e, hbe, he⟩
      · exact .inl ⟨hok, List.forall_mem_cons.mpr ⟨ha, hall⟩⟩
      · exact .inr ⟨b, List.mem_cons_of_mem a hb, e, hbe, he⟩

/-- The items that pass are kept, or there is one of which that cannot be told. -/
theorem filterM_cases (f : α → Except ε Bool) (items : List α) :
    (∃ kept, items.filterM f = .ok kept ∧ (∀ a ∈ items, ∃ b, f a = .ok b) ∧
        ∀ a, a ∈ kept ↔ a ∈ items ∧ f a = .ok true) ∨
      ∃ a ∈ items, ∃ e, f a = .error e ∧ items.filterM f = .error e := by
  -- The items kept so far are an argument of the loop, so the induction is for all of them.
  have haux (before : List α) :
      (∃ kept, items.filterAuxM f before = .ok kept ∧ (∀ a ∈ items, ∃ b, f a = .ok b) ∧
          ∀ a, a ∈ kept ↔ a ∈ before ∨ a ∈ items ∧ f a = .ok true) ∨
        ∃ a ∈ items, ∃ e, f a = .error e ∧ items.filterAuxM f before = .error e := by
    induction items generalizing before with
    | nil => exact .inl ⟨before, rfl, by simp, by simp⟩
    | cons a items ih =>
      cases ha : f a with
      | error e =>
        refine .inr ⟨a, List.mem_cons_self .., e, ha, ?_⟩
        rw [List.filterAuxM, ha]
        rfl
      | ok passes =>
        have hrest : (a :: items).filterAuxM f before =
            items.filterAuxM f (if passes then a :: before else before) := by
          rw [List.filterAuxM, ha]
          cases passes <;> rfl
        rw [hrest]
        rcases ih (if passes then a :: before else before) with
          ⟨kept, hkept, hall, hmem⟩ | ⟨b, hb, e, hbe, he⟩
        · refine .inl ⟨kept, hkept, List.forall_mem_cons.mpr ⟨⟨passes, ha⟩, hall⟩, fun b => ?_⟩
          rw [hmem b, List.mem_cons]
          cases passes <;> grind
        · exact .inr ⟨b, List.mem_cons_of_mem a hb, e, hbe, he⟩
  rcases haux [] with ⟨kept, hkept, hall, hmem⟩ | ⟨a, ha, e, hae, he⟩
  · refine .inl ⟨kept.reverse, ?_, hall, fun a => by simp [hmem a]⟩
    rw [List.filterM, hkept]
    rfl
  · refine .inr ⟨a, ha, e, hae, ?_⟩
    rw [List.filterM, he]
    rfl

end Results

end ElmSuite

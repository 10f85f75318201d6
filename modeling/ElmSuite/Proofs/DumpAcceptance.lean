import ElmSuite.Proofs.DumpRecords

/-!
# Dumps are accepted as a whole

A dump is accepted if each of its items is a record by itself, and then its records are those of
its items, in their order. Else it is refused for the faults of all its items together, and none
of its records is kept. Two dumps in one are therefore accepted or refused together, and what an
item holds under other names than those that are read makes no difference.
-/

namespace ElmSuite.InterfaceDump

/-- A text that is a JSON array of the given items. -/
def HoldsArray (text : String) (items : List JsonValue) : Prop :=
  JsonReader.document text.toList = .ok (.array items)

/-- The fault of a dump with so many faults in its records. -/
def refusal (faults : Nat) : Fault :=
  .problem (.malformedDump (toString faults ++ " invalid module record field(s)"))

/-! ## Items one by one -/

theorem totalFaults_append (faults : JsonValue → Nat) (items more : List JsonValue) :
    totalFaults faults (items ++ more) = totalFaults faults items + totalFaults faults more := by
  induction items with
  | nil => rw [List.nil_append, totalFaults, Nat.zero_add]
  | cons x rest ih => rw [List.cons_append, totalFaults, totalFaults, ih, Nat.add_assoc]

/-- The items of a list stand for something together if each of them does. -/
theorem exists_forall₂_iff {α : Type} {meant : JsonValue → α → Prop} {items : List JsonValue} :
    (∃ as, List.Forall₂ meant items as) ↔ ∀ x ∈ items, ∃ a, meant x a := by
  induction items with
  | nil => simp
  | cons x rest ih =>
    simp only [List.forall₂_cons_left_iff, List.forall_mem_cons, ← ih]
    constructor
    · rintro ⟨_, a, as, ha, has, -⟩
      exact ⟨⟨a, ha⟩, as, has⟩
    · rintro ⟨⟨a, ha⟩, as, has⟩
      exact ⟨a :: as, a, as, ha, has, rfl⟩

/-! ## Names that are not read -/

section Names

open JsonValue (field? firstField? firstField?_alike)

/-- The names under which a declaration is read. -/
def declarationKeys : List String := ["name", "signature"]

/-- The names under which a record is read. -/
def recordKeys : List String := ["moduleName", "module_name", "types", "declarations"]

/-- Two values that are the same, or objects that hold alike values under the names that are
read. -/
inductive AlikeOn (keys : List String) (alike : Option JsonValue → Option JsonValue → Prop) :
    JsonValue → JsonValue → Prop
  | refl (x : JsonValue) : AlikeOn keys alike x x
  | objects {fields others : List (CodePoints × JsonValue)}
      (h : ∀ key ∈ keys, alike (field? fields key) (field? others key)) :
      AlikeOn keys alike (.object fields) (.object others)

/-- Two fields that are the same, or list declarations that differ in nothing that is read. -/
inductive AlikeField : Option JsonValue → Option JsonValue → Prop
  | refl (value : Option JsonValue) : AlikeField value value
  | listed {items others : List JsonValue}
      (h : List.Forall₂ (AlikeOn declarationKeys Eq) items others) :
      AlikeField (some (.array items)) (some (.array others))

/-- Two items of a dump that differ in nothing that is read. -/
def AlikeRecord : JsonValue → JsonValue → Prop := AlikeOn recordKeys AlikeField

theorem checkAll_congr {α : Type} {check : JsonValue → Checked α} {items others : List JsonValue}
    (h : List.Forall₂ (fun x y => check x = check y) items others) :
    checkAll check items = checkAll check others := by
  induction h with
  | nil => rfl
  | cons hxy _ ih => rw [checkAll, checkAll, hxy, ih]

theorem AlikeOn.checkDeclaration_eq {x y : JsonValue} (h : AlikeOn declarationKeys Eq x y) :
    checkDeclaration x = checkDeclaration y := by
  cases h with
  | refl => rfl
  | objects h =>
    rw [checkDeclaration, checkDeclaration, h "name" (by simp [declarationKeys]),
      h "signature" (by simp [declarationKeys])]

theorem AlikeField.checkText_eq {a b : Option JsonValue} (h : AlikeField a b) :
    checkText a = checkText b := by
  cases h with
  | refl => rfl
  | listed h => rfl

theorem AlikeField.checkDeclarations_eq {a b : Option JsonValue} (h : AlikeField a b) :
    checkDeclarations a = checkDeclarations b := by
  cases h with
  | refl => rfl
  | listed h => exact checkAll_congr (h.imp fun _ _ => AlikeOn.checkDeclaration_eq)

theorem AlikeField.isSome_eq {a b : Option JsonValue} (h : AlikeField a b) :
    a.isSome = b.isSome := by
  cases h with
  | refl => rfl
  | listed h => rfl

theorem AlikeRecord.checkRecord_eq {x y : JsonValue} (h : AlikeRecord x y) :
    checkRecord x = checkRecord y := by
  cases h with
  | refl => rfl
  | @objects fields others h =>
    have hfirst (keys : List String) (hkeys : keys ⊆ recordKeys) :
        AlikeField (firstField? fields keys) (firstField? others keys) :=
      firstField?_alike (.refl none) (fun _ _ => AlikeField.isSome_eq) fun key hkey =>
        h key (hkeys hkey)
    rw [checkRecord, checkRecord,
      (hfirst ["moduleName", "module_name"] (by simp [recordKeys])).checkText_eq,
      (hfirst ["types", "declarations"] (by simp [recordKeys])).checkDeclarations_eq]

end Names

/-! ## Whole dumps -/

/-- What two dumps are read as, and what their items in one dump are read as. -/
inductive Joins : Except Fault (List ModuleRecord) → Except Fault (List ModuleRecord) →
    Except Fault (List ModuleRecord) → Prop
  | accepted (records more : List ModuleRecord) :
      Joins (.ok records) (.ok more) (.ok (records ++ more))
  | first {m : Nat} (hm : 0 < m) (more : List ModuleRecord) :
      Joins (.error (refusal m)) (.ok more) (.error (refusal m))
  | second (records : List ModuleRecord) {n : Nat} (hn : 0 < n) :
      Joins (.ok records) (.error (refusal n)) (.error (refusal n))
  | both {m n : Nat} (hm : 0 < m) (hn : 0 < n) :
      Joins (.error (refusal m)) (.error (refusal n)) (.error (refusal (m + n)))

/-- A refused dump is refused for the same behind an accepted one. -/
theorem Joins.eq_of_accepted {records : List ModuleRecord} {fault : Fault}
    {both : Except Fault (List ModuleRecord)} (h : Joins (.ok records) (.error fault) both) :
    both = .error fault := by
  cases h with
  | second => rfl

/-- A dump of the given items is accepted with all of them or with none. -/
structure AllOrNothing (stdout : String) (items : List JsonValue) : Prop where
  /-- It is accepted if each item is a record. -/
  accepted_iff : (∃ records, read stdout = .ok records) ↔ ∀ x ∈ items, ∃ r, IsRecord x r
  /-- The records are those of the items, in their order. -/
  inOrder {records : List ModuleRecord} (h : read stdout = .ok records) :
    List.Forall₂ IsRecord items records
  /-- One item that is no record has the dump refused for the faults of all items. -/
  refused (h : ∃ x ∈ items, ∀ r, ¬IsRecord x r) :
    0 < totalFaults recordFaults items ∧
      read stdout = .error (refusal (totalFaults recordFaults items))
  /-- Fields under names that are not read make no difference. -/
  alike {other : String} {others : List JsonValue} (hother : HoldsArray other others)
    (h : List.Forall₂ AlikeRecord items others) : read other = read stdout
  /-- With the items of another dump behind them, both are accepted or the faults of both are
  reported. -/
  joined {other both : String} {more : List JsonValue} (hother : HoldsArray other more)
    (hboth : HoldsArray both (items ++ more)) : Joins (read stdout) (read other) (read both)

section Whole

variable {stdout other both : String} {items more : List JsonValue}

/-- A dump is read as the records of its items, or there are none and it is refused. -/
theorem read_cases (h : HoldsArray stdout items) :
    (∃ records, List.Forall₂ IsRecord items records ∧ totalFaults recordFaults items = 0 ∧
      read stdout = .ok records) ∨
    ((∀ records, ¬List.Forall₂ IsRecord items records) ∧ 0 < totalFaults recordFaults items ∧
      read stdout = .error (refusal (totalFaults recordFaults items))) := by
  rw [read_of_array h]
  have hmeets := meets_checkAll meets_checkRecord items
  generalize checkAll checkRecord items = checked at hmeets ⊢
  generalize totalFaults recordFaults items = n at hmeets ⊢
  cases hmeets with
  | @accepted records h => exact .inl ⟨records, (h records).mpr rfl, rfl, rfl⟩
  | rejected h hpos => exact .inr ⟨h, hpos, rfl⟩

theorem read_eq_ok_iff (h : HoldsArray stdout items) {records : List ModuleRecord} :
    read stdout = .ok records ↔ List.Forall₂ IsRecord items records := by
  constructor
  · intro hread
    obtain ⟨records', hrecords, -, heq⟩ | ⟨-, -, heq⟩ := read_cases h
    · rw [heq, Except.ok.injEq] at hread
      exact hread ▸ hrecords
    · rw [heq] at hread
      cases hread
  · intro hrecords
    exact (Reads.records hrecords h).read_eq

theorem joins_read (h : HoldsArray stdout items) (hother : HoldsArray other more)
    (hboth : HoldsArray both (items ++ more)) : Joins (read stdout) (read other) (read both) := by
  have hsum := totalFaults_append recordFaults items more
  obtain ⟨rs, hrs, hm, hread⟩ | ⟨-, hm, hread⟩ := read_cases h
  · obtain ⟨ss, hss, -, hread'⟩ | ⟨-, hn, hread'⟩ := read_cases hother
    · rw [hread, hread', (read_eq_ok_iff hboth).mpr (List.rel_append hrs hss)]
      exact .accepted rs ss
    · rw [hm, Nat.zero_add] at hsum
      rw [hread, hread', (Reads.faulty (hsum ▸ hn) hboth).read_eq, hsum]
      exact .second rs hn
  · have hpos : 0 < totalFaults recordFaults (items ++ more) := by omega
    rw [hread, (Reads.faulty hpos hboth).read_eq, hsum]
    obtain ⟨ss, -, hn, hread'⟩ | ⟨-, hn, hread'⟩ := read_cases hother
    · rw [hread', hn]
      exact .first hm ss
    · rw [hread']
      exact .both hm hn

theorem read_eq_of_alike {others : List JsonValue} (h : HoldsArray stdout items)
    (hother : HoldsArray other others) (halike : List.Forall₂ AlikeRecord items others) :
    read other = read stdout := by
  rw [read_of_array h, read_of_array hother,
    checkAll_congr (halike.imp fun _ _ => AlikeRecord.checkRecord_eq)]

/-- **A dump is accepted as a whole or not at all.** -/
theorem read_array (h : HoldsArray stdout items) : AllOrNothing stdout items where
  accepted_iff := by simp only [read_eq_ok_iff h, exists_forall₂_iff]
  inOrder := (read_eq_ok_iff h).mp
  refused := by
    intro hbad
    have hnone : ¬∃ records, List.Forall₂ IsRecord items records := by
      rw [exists_forall₂_iff]
      obtain ⟨x, hx, hno⟩ := hbad
      intro hall
      obtain ⟨r, hr⟩ := hall x hx
      exact hno r hr
    obtain ⟨records, hrecords, -⟩ | ⟨-, hpos, hread⟩ := read_cases h
    · exact absurd ⟨records, hrecords⟩ hnone
    · exact ⟨hpos, hread⟩
  alike := read_eq_of_alike h
  joined := joins_read h

end Whole

section Misnamed

/-- A record with a field that is not read. -/
def namedItem : JsonValue :=
  .object [(CodePoints.ofString "moduleName", .string (CodePoints.ofString "A")),
    (CodePoints.ofString "deps", .object [])]

/-- No record: the first of its names that is there holds no text. -/
def misnamedItem : JsonValue :=
  .object [(CodePoints.ofString "module_name", .string (CodePoints.ofString "B")),
    (CodePoints.ofString "moduleName", .array [])]

/-- A dump of a record. -/
def namedDump : String := "[\x7b\"moduleName\":\"A\",\"deps\":\x7b\x7d\x7d]"

/-- A dump of two items that are no records. -/
def misnamedDump : String := "[\x7b\"module_name\":\"B\",\"moduleName\":[]\x7d,[]]"

/-- The items of the two dumps in one. -/
def joinedDump : String :=
  "[\x7b\"moduleName\":\"A\",\"deps\":\x7b\x7d\x7d,\x7b\"module_name\":\"B\",\"moduleName\":[]\x7d,[]]"

/-- A record that is accepted by itself is refused with items behind it that are no records. -/
theorem read_joinedDump :
    HoldsArray namedDump [namedItem] ∧ HoldsArray misnamedDump [misnamedItem, .array []] ∧
      HoldsArray joinedDump [namedItem, misnamedItem, .array []] ∧
      read namedDump = .ok [⟨.ofString "A", []⟩] ∧ read misnamedDump = .error (refusal 2) ∧
      read joinedDump = .error (refusal 2) := by
  obtain ⟨hnamed, hmisnamed, hjoined⟩ : HoldsArray namedDump [namedItem] ∧
      HoldsArray misnamedDump [misnamedItem, .array []] ∧
      HoldsArray joinedDump [namedItem, misnamedItem, .array []] := by
    simp [HoldsArray, JsonReader.document, JsonReader.value, JsonReader.items, JsonReader.fields,
      JsonReader.string, JsonReader.stringBody, JsonReader.skipSpace, JsonReader.isSpace, Except.map,
      JsonValue.setField, CodePoints.ofString, CodePoints.ofChars, namedDump, misnamedDump, joinedDump,
      namedItem, misnamedItem]
  have hno : ∃ x ∈ [misnamedItem, .array []], ∀ r, ¬IsRecord x r := by
    refine ⟨.array [], by simp, ?_⟩
    intro r hr
    cases hr
  have hrefused : read misnamedDump = .error (refusal 2) := ((read_array hmisnamed).refused hno).2
  have haccepted : read namedDump = .ok [⟨.ofString "A", []⟩] := by decide +kernel
  have hjoins : Joins (read namedDump) (read misnamedDump) (read joinedDump) :=
    (read_array hnamed).joined hmisnamed hjoined
  rw [haccepted, hrefused] at hjoins
  exact ⟨hnamed, hmisnamed, hjoined, haccepted, hrefused, hjoins.eq_of_accepted⟩

end Misnamed

end ElmSuite.InterfaceDump

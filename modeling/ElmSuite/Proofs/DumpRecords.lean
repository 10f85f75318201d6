import ElmSuite.InterfaceDump
import ElmSuite.Proofs.Json.Extent
import ElmSuite.Proofs.Text.Identifier

/-!
# What a dump is accepted for

The records that the items of a dump stand for, and the number of faults of those that stand
for none. A dump is read as the records of all its items or refused for the faults of all of
them; a text that is no dump is refused for what it is instead.
-/

namespace ElmSuite.InterfaceDump

/-! ## Records and faults -/

/-- A field that holds a text. -/
inductive HoldsText : Option JsonValue → CodePoints → Prop
  | string (s : CodePoints) : HoldsText (some (.string s)) s

/-- An object with the name and the type of a value. -/
inductive IsDeclaration : JsonValue → Declaration → Prop
  | object {fields : List (CodePoints × JsonValue)} {name signature : CodePoints}
      (hname : HoldsText (JsonValue.field? fields "name") name)
      (hsignature : HoldsText (JsonValue.field? fields "signature") signature) :
      IsDeclaration (.object fields) ⟨name, signature⟩

/-- A field that lists declarations; where it is absent there are none. -/
inductive ListsDeclarations : Option JsonValue → List Declaration → Prop
  | absent : ListsDeclarations none []
  | listed {items : List JsonValue} {declarations : List Declaration}
      (h : List.Forall₂ IsDeclaration items declarations) :
      ListsDeclarations (some (.array items)) declarations

/-- An object with the name of a module and its declarations, under either of their names. -/
inductive IsRecord : JsonValue → ModuleRecord → Prop
  | object {fields : List (CodePoints × JsonValue)} {moduleName : CodePoints}
      {declarations : List Declaration}
      (hname : HoldsText (JsonValue.firstField? fields ["moduleName", "module_name"]) moduleName)
      (hlist : ListsDeclarations (JsonValue.firstField? fields ["types", "declarations"])
        declarations) :
      IsRecord (.object fields) ⟨moduleName, declarations⟩

/-- The faults of a field that has to hold a text. -/
def textFaults : Option JsonValue → Nat
  | some (.string _) => 0
  | _ => 1

/-- The faults of a declaration. -/
def declarationFaults : JsonValue → Nat
  | .object fields =>
    textFaults (JsonValue.field? fields "name") + textFaults (JsonValue.field? fields "signature")
  | _ => 1

/-- The faults of the items of a list. -/
def totalFaults (faults : JsonValue → Nat) : List JsonValue → Nat
  | [] => 0
  | x :: rest => faults x + totalFaults faults rest

/-- The faults of a field that may list declarations. -/
def listFaults : Option JsonValue → Nat
  | none => 0
  | some (.array items) => totalFaults declarationFaults items
  | some _ => 1

/-- The faults of a record. -/
def recordFaults : JsonValue → Nat
  | .object fields =>
    textFaults (JsonValue.firstField? fields ["moduleName", "module_name"]) +
      listFaults (JsonValue.firstField? fields ["types", "declarations"])
  | _ => 1

/-! ## Checking -/

/-- A check gives the one part that is meant, or there is none and it gives the number of faults. -/
inductive Meets {α : Type} (meant : α → Prop) : Nat → Checked α → Prop
  | accepted {a : α} (h : ∀ b, meant b ↔ b = a) : Meets meant 0 (.accepted a)
  | rejected {faults : Nat} (h : ∀ b, ¬meant b) (hpos : 0 < faults) :
      Meets meant faults (.rejected faults)

section Meets

variable {α β γ : Type} {meant : α → Prop} {m n : Nat} {checked : Checked α}

theorem Meets.accepted_iff (h : Meets meant n checked) {a : α} :
    checked = .accepted a ↔ meant a := by
  cases h with
  | accepted h => simp [h, eq_comm]
  | rejected h => simp [h]

theorem Meets.rejected_iff (h : Meets meant n checked) {faults : Nat} :
    checked = .rejected faults ↔ n = faults ∧ 0 < faults := by
  cases h with
  | accepted h =>
    simp only [reduceCtorEq, false_iff, not_and]
    omega
  | rejected h hpos =>
    rw [Checked.rejected.injEq]
    constructor
    · rintro rfl
      exact ⟨rfl, hpos⟩
    · exact fun h => h.1

theorem Meets.congr {other : α → Prop} (h : Meets meant n checked)
    (hsame : ∀ a, meant a ↔ other a) : Meets other n checked := by
  cases h with
  | accepted h => exact .accepted fun b => (hsame b).symm.trans (h b)
  | rejected h hpos => exact .rejected (fun b hb => h b ((hsame b).mpr hb)) hpos

/-- Two checks together give both parts, or the faults of both. -/
theorem Meets.both_map {other : β → Prop} {checked' : Checked β} (h : Meets meant m checked)
    (h' : Meets other n checked') (f : α × β → γ) {pair : γ → Prop}
    (hpair : ∀ c, pair c ↔ ∃ a b, meant a ∧ other b ∧ f (a, b) = c) :
    Meets pair (m + n) ((checked.both checked').map f) := by
  cases h with
  | @accepted a h =>
    cases h' with
    | @accepted b h' =>
      refine .accepted fun c => ?_
      simp [hpair, h, h', eq_comm]
    | rejected h' hpos =>
      rw [Nat.zero_add]
      exact .rejected (fun c => by simp [hpair, h']) hpos
  | rejected h hpos =>
    have hnone : ∀ c, ¬pair c := fun c => by simp [hpair, h]
    cases h' with
    | accepted h' => exact .rejected hnone hpos
    | rejected h' hpos' => exact .rejected hnone (by omega)

end Meets

theorem meets_checkText (value : Option JsonValue) :
    Meets (HoldsText value) (textFaults value) (checkText value) := by
  match value with
  | some (.string s) =>
    refine .accepted fun text => ⟨?_, ?_⟩
    · rintro ⟨⟩
      rfl
    · rintro rfl
      exact .string text
  | none | some .null | some (.bool _) | some (.integer _) | some (.double _) | some (.array _)
  | some (.object _) => exact .rejected nofun Nat.one_pos

/-- The items of a list are checked one by one, and their faults added up. -/
theorem meets_checkAll {α : Type} {check : JsonValue → Checked α} {meant : JsonValue → α → Prop}
    {faults : JsonValue → Nat} (h : ∀ x, Meets (meant x) (faults x) (check x))
    (items : List JsonValue) :
    Meets (List.Forall₂ meant items) (totalFaults faults items) (checkAll check items) := by
  induction items with
  | nil => exact .accepted fun as => List.forall₂_nil_left_iff
  | cons x rest ih =>
    refine (h x).both_map ih _ fun as => ?_
    rw [List.forall₂_cons_left_iff]
    constructor
    · rintro ⟨a, more, ha, hmore, rfl⟩
      exact ⟨a, more, ha, hmore, rfl⟩
    · rintro ⟨a, more, ha, hmore, rfl⟩
      exact ⟨a, more, ha, hmore, rfl⟩

theorem meets_checkDeclaration (x : JsonValue) :
    Meets (IsDeclaration x) (declarationFaults x) (checkDeclaration x) := by
  cases x with
  | object fields =>
    refine (meets_checkText _).both_map (meets_checkText _) _ fun d => ?_
    constructor
    · rintro ⟨hname, hsignature⟩
      exact ⟨_, _, hname, hsignature, rfl⟩
    · rintro ⟨name, signature, hname, hsignature, rfl⟩
      exact .object hname hsignature
  | _ => exact .rejected nofun Nat.one_pos

theorem meets_checkDeclarations (value : Option JsonValue) :
    Meets (ListsDeclarations value) (listFaults value) (checkDeclarations value) := by
  match value with
  | none =>
    refine .accepted fun ds => ⟨?_, ?_⟩
    · rintro ⟨⟩
      rfl
    · rintro rfl
      exact .absent
  | some (.array items) =>
    refine (meets_checkAll meets_checkDeclaration items).congr fun ds => ⟨.listed, ?_⟩
    intro h
    cases h with
    | listed h => exact h
  | some .null | some (.bool _) | some (.integer _) | some (.double _) | some (.string _)
  | some (.object _) => exact .rejected nofun Nat.one_pos

theorem meets_checkRecord (x : JsonValue) : Meets (IsRecord x) (recordFaults x) (checkRecord x) := by
  cases x with
  | object fields =>
    refine (meets_checkText _).both_map (meets_checkDeclarations _) _ fun r => ?_
    constructor
    · rintro ⟨hname, hlist⟩
      exact ⟨_, _, hname, hlist, rfl⟩
    · rintro ⟨moduleName, declarations, hname, hlist, rfl⟩
      exact .object hname hlist
  | _ => exact .rejected nofun Nat.one_pos

/-! ## Outputs -/

/-- Blank characters begin no value. -/
theorem beginsValue_of_isBlank {c : Char} (h : Text.isBlank c = true) :
    JsonReader.beginsValue c = false := by
  have hne : ∀ d : Char, Text.isBlank d = false → c ≠ d := fun _ => ne_of_test h
  have hdigit : c.isDigit = false := by
    rw [← Bool.not_eq_true, isDigit_iff]
    simp only [Text.isBlank, Text.inRanges, Text.blankRanges, List.any_cons, List.any_nil,
      Bool.or_eq_true, Bool.and_eq_true, decide_eq_true_eq, Bool.false_eq_true, or_false] at h
    omega
  simp [JsonReader.beginsValue, JsonPrinter.beginsScalar, hdigit, hne '"' (by decide),
    hne '[' (by decide), hne '\x7b' (by decide), hne 'n' (by decide), hne 't' (by decide),
    hne 'f' (by decide), hne 'N' (by decide), hne 'I' (by decide), hne '-' (by decide)]

/-- What the output of the dump tool is read as. -/
inductive Reads (stdout : String) : Except Fault (List ModuleRecord) → Prop
  /-- There is nothing in it. -/
  | blank (h : Text.allBlank stdout.toList = true) : Reads stdout (.error (.problem .emptyDump))
  /-- It is no JSON, for a mistake at a place in it. -/
  | notJson {mistake : JsonMistake} {position remaining : Nat}
      (hcontent : Text.allBlank stdout.toList = false)
      (hplace : position + remaining = stdout.toList.length)
      (h : JsonReader.document stdout.toList = .error (.malformed mistake remaining)) :
      Reads stdout (.error (.problem (.malformedDump (mistake.detail stdout.toList position))))
  /-- It holds an integer with too many digits. -/
  | longInteger {n : Nat} (hlong : JsonReader.HoldsLong stdout.toList n)
      (h : JsonReader.document stdout.toList = .error (.tooManyDigits n)) :
      Reads stdout (.error (.tooManyDigits n))
  /-- It is a value other than an array. -/
  | notArray {v : JsonValue} (hv : ∀ items, v ≠ .array items)
      (h : JsonReader.document stdout.toList = .ok v) :
      Reads stdout (.error (.problem (.dumpNotArray v.typeName)))
  /-- Some of its items are no records. -/
  | faulty {items : List JsonValue} (hfaults : 0 < totalFaults recordFaults items)
      (h : JsonReader.document stdout.toList = .ok (.array items)) :
      Reads stdout (.error (.problem (.malformedDump
        (toString (totalFaults recordFaults items) ++ " invalid module record field(s)"))))
  /-- Its items are records. -/
  | records {items : List JsonValue} {records : List ModuleRecord}
      (hrecords : List.Forall₂ IsRecord items records)
      (h : JsonReader.document stdout.toList = .ok (.array items)) : Reads stdout (.ok records)

/-- Blank text is refused as JSON for a mistake, if it is read at all. -/
theorem exists_malformed_of_allBlank {text : List Char} (h : Text.allBlank text = true) :
    ∃ mistake remaining, JsonReader.document text = .error (.malformed mistake remaining) :=
  JsonReader.document_of_stray fun c hc => beginsValue_of_isBlank (List.all_eq_true.mp h c hc)

theorem allBlank_of_document {text : List Char} {r : Except JsonFault JsonValue}
    (h : JsonReader.document text = r)
    (hr : ∀ mistake remaining, r ≠ .error (.malformed mistake remaining)) :
    Text.allBlank text = false := by
  rw [← Bool.not_eq_true]
  intro hblank
  obtain ⟨mistake, remaining, heq⟩ := exists_malformed_of_allBlank hblank
  exact hr mistake remaining (h.symm.trans heq)

theorem read_of_array {stdout : String} {items : List JsonValue}
    (h : JsonReader.document stdout.toList = .ok (.array items)) :
    read stdout = match checkAll checkRecord items with
      | .accepted records => .ok records
      | .rejected n =>
        .error (.problem (.malformedDump (toString n ++ " invalid module record field(s)"))) := by
  cases hchecked : checkAll checkRecord items <;>
    simp only [read, allBlank_of_document h nofun, h, hchecked, Bool.false_eq_true, if_false]

theorem reads_read (stdout : String) : Reads stdout (read stdout) := by
  rw [read]
  by_cases hblank : Text.allBlank stdout.toList = true
  · rw [if_pos hblank]
    exact .blank hblank
  · rw [if_neg hblank]
    have hcontent : Text.allBlank stdout.toList = false := by simpa using hblank
    cases h : JsonReader.document stdout.toList with
    | error fault =>
      have hfault := JsonReader.faultIn_of_document h
      cases fault with
      | malformed mistake remaining =>
        exact .notJson hcontent (Nat.sub_add_cancel hfault) h
      | tooManyDigits n => exact .longInteger hfault h
    | ok v =>
      cases v with
      | array items =>
        have hitems := meets_checkAll meets_checkRecord items
        dsimp only
        cases hchecked : checkAll checkRecord items with
        | accepted records => exact .records (hitems.accepted_iff.mp hchecked) h
        | rejected n =>
          obtain ⟨rfl, hpos⟩ := hitems.rejected_iff.mp hchecked
          exact .faulty hpos h
      | _ => exact .notArray nofun h

theorem Reads.read_eq {stdout : String} {r : Except Fault (List ModuleRecord)}
    (h : Reads stdout r) : read stdout = r := by
  cases h with
  | blank h => rw [read, if_pos h]
  | notJson hcontent hplace h =>
    have hposition := Nat.eq_sub_of_add_eq hplace
    simp only [read, hcontent, h, ← hposition, Bool.false_eq_true, if_false]
  | longInteger hlong h =>
    simp only [read, allBlank_of_document h nofun, h, Bool.false_eq_true, if_false]
  | @notArray v hv h =>
    simp only [read, allBlank_of_document h nofun, h, Bool.false_eq_true, if_false]
  | @faulty items hfaults h =>
    have hchecked := (meets_checkAll meets_checkRecord items).rejected_iff.mpr ⟨rfl, hfaults⟩
    rw [read_of_array h, hchecked]
  | @records items records hrecords h =>
    have hchecked := (meets_checkAll meets_checkRecord items).accepted_iff.mpr hrecords
    rw [read_of_array h, hchecked]

/-- An output is read in one way only. -/
theorem read_eq_iff_reads {stdout : String} {r : Except Fault (List ModuleRecord)} :
    read stdout = r ↔ Reads stdout r := by
  constructor
  · rintro rfl
    exact reads_read stdout
  · exact Reads.read_eq

end ElmSuite.InterfaceDump

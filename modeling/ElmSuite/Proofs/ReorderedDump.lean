import ElmSuite.Proofs.DumpRecords
import ElmSuite.Proofs.InterfaceDump
import ElmSuite.Proofs.Results

/-!
# Dumps in another order

A dump may list its records, and each record its declarations, in any order: what is
collected from it is the same, and so is the number of its faults if it is refused.
-/

namespace ElmSuite.InterfaceDump

/-! ## Dumps that differ in order -/

/-- Two fields that are the same, or lists of the same items. -/
inductive SameField : Option JsonValue → Option JsonValue → Prop
  | refl (value : Option JsonValue) : SameField value value
  | reordered {items others : List JsonValue} (h : items.Perm others) :
      SameField (some (.array items)) (some (.array others))

/-- Two items of a dump that are the same, or objects with the same fields up to the order of what
these list. -/
inductive SameRecord : JsonValue → JsonValue → Prop
  | refl (x : JsonValue) : SameRecord x x
  | reordered {fields others : List (CodePoints × JsonValue)}
      (h : ∀ key, SameField (fields.lookup key) (others.lookup key)) :
      SameRecord (.object fields) (.object others)

/-- Two dumps of the same records, in any order. -/
def SameDump (items others : List JsonValue) : Prop :=
  ∃ sorted, items.Perm sorted ∧ List.Forall₂ SameRecord sorted others

/-- Two accepted records of one module with the same declarations. -/
def SameModule (r r' : ModuleRecord) : Prop :=
  r.moduleName = r'.moduleName ∧ r.declarations.Perm r'.declarations

/-- Two lists of accepted records of the same modules. -/
def SameModules (records others : List ModuleRecord) : Prop :=
  ∃ sorted, records.Perm sorted ∧ List.Forall₂ SameModule sorted others

/-! ## Checking -/

/-- Two parts that are accepted and related, or refused with equally many faults. -/
inductive SameCheck {α : Type} (related : α → α → Prop) : Checked α → Checked α → Prop
  | accepted {a b : α} (h : related a b) : SameCheck related (.accepted a) (.accepted b)
  | rejected (faults : Nat) : SameCheck related (.rejected faults) (.rejected faults)

namespace SameCheck

variable {α β γ : Type} {related : α → α → Prop}

theorem of_eq {a b : Checked α} (hrefl : ∀ x, related x x) (h : a = b) : SameCheck related a b := by
  subst h
  cases a with
  | accepted a => exact .accepted (hrefl a)
  | rejected n => exact .rejected n

theorem trans {r s : α → α → Prop} {a b c : Checked α}
    (htrans : ∀ x y z, related x y → r y z → s x z) (hab : SameCheck related a b)
    (hbc : SameCheck r b c) : SameCheck s a c := by
  cases hab with
  | accepted hab =>
    cases hbc with
    | accepted hbc => exact .accepted (htrans _ _ _ hab hbc)
  | rejected n =>
    cases hbc with
    | rejected => exact .rejected n

/-- Pairs of parts that are the same one by one are the same. -/
theorem both_map {r : β → β → Prop} {a b : Checked α} {c d : Checked β} {f : α × β → γ}
    {s : γ → γ → Prop} (hab : SameCheck related a b) (hcd : SameCheck r c d)
    (hf : ∀ x y u v, related x y → r u v → s (f (x, u)) (f (y, v))) :
    SameCheck s ((a.both c).map f) ((b.both d).map f) := by
  cases hab with
  | accepted hab =>
    cases hcd with
    | accepted hcd => exact .accepted (hf _ _ _ _ hab hcd)
    | rejected n => exact .rejected n
  | rejected m =>
    cases hcd with
    | accepted hcd => exact .rejected m
    | rejected n => exact .rejected (m + n)

end SameCheck

section CheckAll

variable {α : Type} {check : JsonValue → Checked α}

/-- Items in another order are accepted in that order, or have as many faults. -/
theorem checkAll_perm {items others : List JsonValue} (h : items.Perm others) :
    SameCheck List.Perm (checkAll check items) (checkAll check others) := by
  induction h with
  | nil => exact .accepted (.refl [])
  | cons x _ ih =>
    have hx : SameCheck Eq (check x) (check x) := .of_eq (fun _ => rfl) rfl
    exact hx.both_map ih fun a b u v hab huv => hab ▸ huv.cons a
  | swap x y rest =>
    simp only [checkAll]
    cases check x <;> cases check y <;> cases checkAll check rest
    all_goals simp only [Checked.both, Checked.map, ← Nat.add_assoc]
    case accepted.accepted.accepted a b as => exact .accepted (.swap a b as)
    case rejected.rejected.rejected m n k =>
      rw [Nat.add_comm n m]
      exact .rejected _
    case rejected.rejected.accepted m n as =>
      rw [Nat.add_comm n m]
      exact .rejected _
    all_goals exact .rejected _
  | trans _ _ ih ih' => exact ih.trans (s := List.Perm) (fun _ _ _ hab hbc => hab.trans hbc) ih'

theorem checkAll_forall₂ {related : α → α → Prop} {items others : List JsonValue}
    (h : List.Forall₂ (fun x y => SameCheck related (check x) (check y)) items others) :
    SameCheck (List.Forall₂ related) (checkAll check items) (checkAll check others) := by
  induction h with
  | nil => exact .accepted .nil
  | cons hxy _ ih => exact hxy.both_map ih fun _ _ _ _ hab huv => .cons hab huv

end CheckAll

/-! ## Records -/

theorem SameField.checkText_eq {a b : Option JsonValue} (h : SameField a b) :
    checkText a = checkText b := by
  cases h with
  | refl => rfl
  | reordered _ => rfl

theorem SameField.checkDeclarations {a b : Option JsonValue} (h : SameField a b) :
    SameCheck List.Perm (checkDeclarations a) (checkDeclarations b) := by
  cases h with
  | refl => exact .of_eq (fun _ => .refl _) rfl
  | reordered h => exact checkAll_perm h

theorem SameField.firstField? {fields others : List (CodePoints × JsonValue)}
    (h : ∀ key, SameField (fields.lookup key) (others.lookup key)) (keys : List String) :
    SameField (JsonValue.firstField? fields keys) (JsonValue.firstField? others keys) := by
  refine JsonValue.firstField?_alike (.refl none) ?_ fun key _ => h (CodePoints.ofString key)
  intro a b hab
  cases hab with
  | refl => rfl
  | reordered h => rfl

theorem SameRecord.checkRecord {x y : JsonValue} (h : SameRecord x y) :
    SameCheck SameModule (checkRecord x) (checkRecord y) := by
  cases h with
  | refl => exact .of_eq (fun r => ⟨rfl, .refl _⟩) rfl
  | reordered h =>
    have hname : SameCheck Eq _ _ := SameCheck.of_eq (fun _ => rfl)
      (SameField.firstField? h ["moduleName", "module_name"]).checkText_eq
    have hlist := (SameField.firstField? h ["types", "declarations"]).checkDeclarations
    exact hname.both_map hlist fun _ _ _ _ hname hlist => ⟨hname, hlist⟩

/-- The same records are accepted as the same modules, or have as many faults. -/
theorem SameDump.checkAll {items others : List JsonValue} (h : SameDump items others) :
    SameCheck SameModules (checkAll checkRecord items) (checkAll checkRecord others) := by
  obtain ⟨sorted, hperm, hsame⟩ := h
  have hrecords := checkAll_forall₂ (hsame.imp fun _ _ => SameRecord.checkRecord)
  exact (checkAll_perm hperm).trans (fun _ b _ hab hbc => ⟨b, hab, hbc⟩) hrecords

/-! ## Texts -/

/-- What reading a dump gives up to the order of records. -/
inductive SameReading : Except Fault (List ModuleRecord) → Except Fault (List ModuleRecord) → Prop
  | ok {records others : List ModuleRecord} (h : SameModules records others) :
      SameReading (.ok records) (.ok others)
  | error (e : Fault) : SameReading (.error e) (.error e)

theorem SameReading.refl (r : Except Fault (List ModuleRecord)) : SameReading r r := by
  cases r with
  | error e => exact .error e
  | ok records =>
    exact .ok ⟨records, .refl _, List.forall₂_same.mpr fun r _ => ⟨rfl, .refl _⟩⟩

/-- Two outputs that hold the same records, in any order. -/
def SameOutput (stdout other : String) : Prop :=
  ∃ items others, JsonReader.document stdout.toList = .ok (.array items) ∧
    JsonReader.document other.toList = .ok (.array others) ∧ SameDump items others

theorem SameOutput.read {stdout other : String} (h : SameOutput stdout other) :
    SameReading (read stdout) (read other) := by
  obtain ⟨items, others, hitems, hothers, hsame⟩ := h
  have hcheck := hsame.checkAll
  rw [read_of_array hitems, read_of_array hothers]
  generalize InterfaceDump.checkAll checkRecord items = a at hcheck ⊢
  generalize InterfaceDump.checkAll checkRecord others = b at hcheck ⊢
  cases hcheck with
  | accepted h => exact .ok h
  | rejected n => exact .error _

/-! ## Collecting -/

theorem SameModules.reports {testType : String} {records others : List ModuleRecord}
    (h : SameModules records others) (m : String) (n : CodePoints) :
    Reports testType records m n ↔ Reports testType others m n := by
  obtain ⟨sorted, hperm, hsame⟩ := h
  have hsorted : Reports testType records m n ↔ Reports testType sorted m n := by
    simp only [Reports, hperm.mem_iff]
  rw [hsorted]
  induction hsame generalizing records with
  | nil => rfl
  | @cons r r' rest rest' hmodule _ ih =>
    have hrest : Reports testType rest m n ↔ Reports testType rest' m n := ih (.refl _) (by rfl)
    simp only [Reports, List.mem_cons, exists_eq_or_imp] at hrest ⊢
    rw [hrest, hmodule.1, hmodule.2.mem_iff]

/-- The order of records and of their declarations does not matter for what is collected. -/
theorem SameModules.collect_eq {records others : List ModuleRecord} (h : SameModules records others)
    (table : NameMap Path) (testType : String) :
    collect table testType records = collect table testType others :=
  (collected_collect table testType records).eq_of_isTest
    (collected_collect table testType others) fun m n => and_congr_right fun _ => h.reports m n

end ElmSuite.InterfaceDump

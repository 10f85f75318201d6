import ElmSuite.Project.Manifest

/-!
# What a manifest says

A manifest names a kind of project and lists source directories, or it is at fault: its
text is not JSON, its value is no object, or some of its fields are not what they should
be. Reading a manifest tells these apart.
-/

namespace ElmSuite.Manifest

/-- The fields of a JSON object. -/
abbrev Fields := List (CodePoints × JsonValue)

/-! ## Fields -/

/-- The value that names the kind of project. -/
def kindValue? (fields : Fields) : Option JsonValue :=
  JsonValue.firstField? fields ["type", "project_type"]

/-- The value that lists the source directories. -/
def listValue? (fields : Fields) : Option JsonValue :=
  JsonValue.firstField? fields [sourceDirectoriesField, "source_directories"]

/-- A manifest names its kind, or none and is that of an application. -/
inductive NamesKind (fields : Fields) : ProjectKind → Prop
  | unnamed (h : kindValue? fields = none) : NamesKind fields .application
  | named {kind : ProjectKind}
      (h : kindValue? fields = some (.string (CodePoints.ofString kind.name))) :
      NamesKind fields kind

/-- A manifest lists strings, at least one, or has no list. -/
inductive ListsDirectories (fields : Fields) : Option (List CodePoints) → Prop
  | missing (h : listValue? fields = none) : ListsDirectories fields none
  | null (h : listValue? fields = some .null) : ListsDirectories fields none
  | listed {strings : List CodePoints} (hne : strings ≠ [])
      (h : listValue? fields = some (.array (strings.map .string))) :
      ListsDirectories fields (some strings)

/-- How many faults the value has that names the kind. -/
def kindFaults (fields : Fields) : Nat :=
  if (kindValue? fields).all fun value => (ProjectKind.ofValue? value).isSome then 0 else 1

/-- Whether a value is a string. -/
def isString : JsonValue → Bool
  | .string _ => true
  | _ => false

/-- How many faults the list of source directories has: its items that are no strings, or the list
itself if it is empty or none. -/
def listFaults (fields : Fields) : Nat :=
  match listValue? fields with
  | none | some .null => 0
  | some (.array []) => 1
  | some (.array items) => items.countP (!isString ·)
  | some _ => 1

/-- A list that is at fault under its usual name, or one that an application lacks. -/
def ListAtFault (fields : Fields) : Prop :=
  (listFaults fields ≠ 0 ∧ (JsonValue.field? fields sourceDirectoriesField).isSome = true) ∨
    (NamesKind fields .application ∧ ListsDirectories fields none)

/-- A manifest that says what fields say. -/
structure Describes (fields : Fields) (m : Manifest) : Prop where
  kind : NamesKind fields m.kind
  directories : ListsDirectories fields m.sourceDirectories
  listed : m.kind = .application → m.sourceDirectories ≠ none
  fields : m.fields = fields

/-! ## Reading the kind -/

theorem ofValue?_eq_some_iff {value : JsonValue} {kind : ProjectKind} :
    ProjectKind.ofValue? value = some kind ↔ value = .string (CodePoints.ofString kind.name) := by
  have hdistinct : CodePoints.ofString ProjectKind.application.name ≠
      CodePoints.ofString ProjectKind.package.name := by decide
  cases value with
  | string s =>
    simp only [ProjectKind.ofValue?, JsonValue.string.injEq, List.find?_cons, List.find?_nil]
    constructor
    · intro h
      split at h
      · next happ =>
        obtain rfl := Option.some.inj h
        exact (of_decide_eq_true happ).symm
      · split at h
        · next hpackage =>
          obtain rfl := Option.some.inj h
          exact (of_decide_eq_true hpackage).symm
        · cases h
    · rintro rfl
      cases kind with
      | application => simp
      | package => simp [hdistinct]
  | _ => simp [ProjectKind.ofValue?]

/-- The kind that fields name, or the number of faults of its value. -/
def readKind (fields : Fields) : Except Nat ProjectKind :=
  match kindValue? fields with
  | none => .ok .application
  | some value => match ProjectKind.ofValue? value with
    | some kind => .ok kind
    | none => .error 1

theorem readKind_eq_ok_iff {fields : Fields} {kind : ProjectKind} :
    readKind fields = .ok kind ↔ NamesKind fields kind := by
  rw [readKind]
  constructor
  · intro h
    split at h
    · next hnone =>
      obtain rfl := Except.ok.inj h
      exact .unnamed hnone
    · next value hvalue =>
      split at h
      · next named hkind =>
        obtain rfl := Except.ok.inj h
        exact .named (by rw [hvalue, ofValue?_eq_some_iff.mp hkind])
      · cases h
  · intro h
    cases h with
    | unnamed h => rw [h]
    | named h => simp only [h, ofValue?_eq_some_iff.mpr rfl]

theorem kindFaults_of_ok {fields : Fields} {kind : ProjectKind} (h : readKind fields = .ok kind) :
    kindFaults fields = 0 := by
  rw [readKind] at h
  split at h
  · next hnone => simp [kindFaults, hnone]
  · next value hvalue =>
    split at h
    · next kind hkind => simp [kindFaults, hvalue, hkind]
    · cases h

theorem kindFaults_of_error {fields : Fields} {n : Nat} (h : readKind fields = .error n) :
    n = kindFaults fields ∧ n ≠ 0 := by
  rw [readKind] at h
  split at h
  · cases h
  · next value hvalue =>
    split at h
    · cases h
    · next hkind =>
      obtain rfl := Except.error.inj h
      simp [kindFaults, hvalue, hkind]

/-! ## Reading the list -/

/-- The directories that fields list, or the number of faults of the list. -/
def readDirectories (fields : Fields) : Except Nat (Option (List CodePoints)) :=
  match listValue? fields with
  | none => .ok none
  | some value => checkDirectories value

theorem exists_strings {items : List JsonValue} (h : items.countP (!isString ·) = 0) :
    ∃ strings : List CodePoints, items = strings.map .string := by
  induction items with
  | nil => exact ⟨[], rfl⟩
  | cons x items ih =>
    rw [List.countP_cons, Nat.add_eq_zero_iff] at h
    obtain ⟨strings, rfl⟩ := ih h.1
    cases x with
    | string s => exact ⟨s :: strings, rfl⟩
    | _ => simp [isString] at h

theorem checkDirectories_strings (strings : List CodePoints) (hne : strings ≠ []) :
    checkDirectories (.array (strings.map .string)) = .ok (some strings) := by
  have hread : (strings.map JsonValue.string).filterMap
      (fun x => match x with | .string s => some s | _ => none) = strings :=
    List.filterMap_map.trans List.filterMap_some
  have hfaults : (strings.map JsonValue.string).filter
      (fun x => match x with | .string _ => false | _ => true) = [] := by
    simp [List.filter_map, Function.comp_def]
  have hempty : ¬(strings.map JsonValue.string).isEmpty = true := by simpa using hne
  unfold checkDirectories
  dsimp only
  rw [if_neg hempty]
  refine (if_neg ?_).trans (congrArg (Except.ok ∘ some) hread)
  exact not_not_intro (congrArg List.length hfaults)

theorem checkDirectories_of_faults {items : List JsonValue} (hne : items ≠ [])
    (h : items.countP (!isString ·) ≠ 0) :
    checkDirectories (.array items) = .error (items.countP (!isString ·)) := by
  have htest : (fun x : JsonValue => match x with | .string _ => false | _ => true) =
      fun x => !isString x := by
    funext x
    cases x <;> rfl
  have hfaults : (items.filter fun x => match x with | .string _ => false | _ => true).length =
      items.countP (!isString ·) := by
    rw [htest, List.countP_eq_length_filter]
  have hempty : ¬items.isEmpty = true := by simpa using hne
  unfold checkDirectories
  dsimp only
  rw [if_neg hempty]
  exact (if_pos (hfaults ▸ h)).trans (congrArg Except.error hfaults)

/-- Each list reads as what it lists or as the number of its faults. -/
theorem readDirectories_spec (fields : Fields) :
    (∃ directories, readDirectories fields = .ok directories ∧ ListsDirectories fields directories ∧
      listFaults fields = 0) ∨
    (readDirectories fields = .error (listFaults fields) ∧ listFaults fields ≠ 0) := by
  cases hvalue : listValue? fields with
  | none =>
    exact .inl ⟨none, by simp [readDirectories, hvalue], .missing hvalue, by simp [listFaults, hvalue]⟩
  | some value =>
    cases value with
    | null => exact .inl ⟨none, by simp [readDirectories, hvalue, checkDirectories], .null hvalue,
        by simp [listFaults, hvalue]⟩
    | array items =>
      cases items with
      | nil => exact .inr (by simp [readDirectories, hvalue, checkDirectories, listFaults])
      | cons x items =>
        have hne : x :: items ≠ [] := List.cons_ne_nil _ _
        have hfaults : listFaults fields = (x :: items).countP (!isString ·) := by
          simp only [listFaults, hvalue]
        have hcheck : readDirectories fields = checkDirectories (.array (x :: items)) := by
          simp only [readDirectories, hvalue]
        by_cases hcount : (x :: items).countP (!isString ·) = 0
        · obtain ⟨strings, hstrings⟩ := exists_strings hcount
          have hsome : strings ≠ [] := by
            rintro rfl
            simp at hstrings
          refine .inl ⟨some strings, ?_, .listed hsome ?_, ?_⟩
          · rw [hcheck, hstrings, checkDirectories_strings strings hsome]
          · rw [hvalue, hstrings]
          · rw [hfaults, hcount]
        · rw [hcheck, checkDirectories_of_faults hne hcount, hfaults]
          exact .inr ⟨rfl, hcount⟩
    | _ => exact .inr (by simp [readDirectories, hvalue, checkDirectories, listFaults])

theorem readDirectories_eq_ok_iff {fields : Fields} {directories : Option (List CodePoints)} :
    readDirectories fields = .ok directories ↔ ListsDirectories fields directories := by
  constructor
  · intro h
    rcases readDirectories_spec fields with ⟨other, hother, hlists, -⟩ | ⟨herror, -⟩
    · rw [h, Except.ok.injEq] at hother
      exact hother ▸ hlists
    · rw [h] at herror
      cases herror
  · intro h
    cases h with
    | missing h => simp [readDirectories, h]
    | null h => simp [readDirectories, h, checkDirectories]
    | listed hne h =>
      simp only [readDirectories, h]
      exact checkDirectories_strings _ hne

/-! ## Reading the fields -/

theorem ofFields_eq (path : Path) (fields : Fields) :
    ofFields path fields =
      match readKind fields, readDirectories fields with
      | .ok kind, .ok directories =>
        if kind = .application ∧ directories = none then .error (.invalidSourceDirectories path)
        else .ok ⟨kind, directories, fields⟩
      | .error m, .ok _ => .error (.malformedManifest path (toString m ++ " invalid field(s)"))
      | .ok _, .error n =>
        if (JsonValue.field? fields sourceDirectoriesField).isSome then
          .error (.invalidSourceDirectories path)
        else .error (.malformedManifest path (toString n ++ " invalid field(s)"))
      | .error m, .error n =>
        if (JsonValue.field? fields sourceDirectoriesField).isSome then
          .error (.invalidSourceDirectories path)
        else .error (.malformedManifest path (toString (m + n) ++ " invalid field(s)")) :=
  rfl

/-- What reading the fields of the manifest at `path` ends in. -/
inductive ReadsFields (path : Path) (fields : Fields) : Except Problem Manifest → Prop
  | read {m : Manifest} (h : Describes fields m) : ReadsFields path fields (.ok m)
  | listAtFault (h : ListAtFault fields) :
      ReadsFields path fields (.error (.invalidSourceDirectories path))
  | fieldsAtFault (h : kindFaults fields + listFaults fields ≠ 0)
      (hlist : listFaults fields ≠ 0 → JsonValue.field? fields sourceDirectoriesField = none) :
      ReadsFields path fields (.error (.malformedManifest path
        (toString (kindFaults fields + listFaults fields) ++ " invalid field(s)")))

theorem readsFields_ofFields (path : Path) (fields : Fields) :
    ReadsFields path fields (ofFields path fields) := by
  rw [ofFields_eq]
  rcases readDirectories_spec fields with ⟨directories, hread, hlists, hnone⟩ | ⟨hread, hsome⟩
  · cases hkind : readKind fields with
    | ok kind =>
      have hnames := readKind_eq_ok_iff.mp hkind
      simp only [hread]
      split
      · next h =>
        obtain ⟨rfl, rfl⟩ := h
        exact .listAtFault (.inr ⟨hnames, hlists⟩)
      · next h => exact .read ⟨hnames, hlists, fun happ hnil => h ⟨happ, hnil⟩, rfl⟩
    | error m =>
      obtain ⟨rfl, hm⟩ := kindFaults_of_error hkind
      simp only [hread]
      have hfaults := @ReadsFields.fieldsAtFault path fields (by omega)
        fun h => absurd hnone h
      rwa [hnone, Nat.add_zero] at hfaults
  · cases hkind : readKind fields with
    | ok kind =>
      have hzero := kindFaults_of_ok hkind
      simp only [hread]
      split
      · next h => exact .listAtFault (.inl ⟨hsome, h⟩)
      · next h =>
        have hfaults := @ReadsFields.fieldsAtFault path fields (by omega)
          fun _ => by simpa using h
        rwa [hzero, Nat.zero_add] at hfaults
    | error m =>
      obtain ⟨rfl, hm⟩ := kindFaults_of_error hkind
      simp only [hread]
      split
      · next h => exact .listAtFault (.inl ⟨hsome, h⟩)
      · next h => exact .fieldsAtFault (by omega) fun _ => by simpa using h

theorem readDirectories_of_faults {fields : Fields} (h : listFaults fields ≠ 0) :
    readDirectories fields = .error (listFaults fields) := by
  rcases readDirectories_spec fields with ⟨_, -, -, hnone⟩ | ⟨hread, -⟩
  · exact absurd hnone h
  · exact hread

theorem readKind_of_faults {fields : Fields} (h : kindFaults fields ≠ 0) :
    readKind fields = .error (kindFaults fields) := by
  cases hread : readKind fields with
  | ok kind => exact absurd (kindFaults_of_ok hread) h
  | error m => rw [(kindFaults_of_error hread).1]

theorem ofFields_eq_iff_reads {path : Path} {fields : Fields} {r : Except Problem Manifest} :
    ofFields path fields = r ↔ ReadsFields path fields r := by
  constructor
  · rintro rfl
    exact readsFields_ofFields path fields
  intro h
  rw [ofFields_eq]
  cases h with
  | @read m h =>
    rw [readKind_eq_ok_iff.mpr h.kind, readDirectories_eq_ok_iff.mpr h.directories]
    refine (if_neg fun hboth => h.listed hboth.1 hboth.2).trans ?_
    rw [← h.fields]
  | listAtFault h =>
    rcases h with ⟨hfaults, husual⟩ | ⟨hnames, hlists⟩
    · rw [readDirectories_of_faults hfaults]
      cases readKind fields <;> exact if_pos husual
    · rw [readKind_eq_ok_iff.mpr hnames, readDirectories_eq_ok_iff.mpr hlists]
      exact if_pos ⟨rfl, rfl⟩
  | fieldsAtFault h hlist =>
    by_cases hnone : listFaults fields = 0
    · rw [readKind_of_faults (by omega), hnone, Nat.add_zero]
      rcases readDirectories_spec fields with ⟨_, hread, -, -⟩ | ⟨-, hsome⟩
      · rw [hread]
      · exact absurd hnone hsome
    · have husual : ¬(JsonValue.field? fields sourceDirectoriesField).isSome = true := by
        simp [hlist hnone]
      rw [readDirectories_of_faults hnone]
      cases hkind : readKind fields with
      | ok kind =>
        rw [kindFaults_of_ok hkind, Nat.zero_add]
        exact if_neg husual
      | error m =>
        rw [← (kindFaults_of_error hkind).1]
        exact if_neg husual

/-! ## Reading the text -/

/-- What is wrong with a text that is not a manifest, apart from its list of directories. -/
inductive Malformed (text : List Char) : String → Prop
  | notJson {mistake : JsonMistake} {remaining : Nat}
      (h : JsonReader.document text = .error (.malformed mistake remaining)) :
      Malformed text (mistake.detail text (text.length - remaining))
  | notObject {value : JsonValue} (h : JsonReader.document text = .ok value)
      (hvalue : ∀ fields, value ≠ .object fields) : Malformed text "expected a JSON object"
  | fieldsAtFault {fields : Fields} (h : JsonReader.document text = .ok (.object fields))
      (hfaults : kindFaults fields + listFaults fields ≠ 0)
      (hlist : listFaults fields ≠ 0 → JsonValue.field? fields sourceDirectoriesField = none) :
      Malformed text (toString (kindFaults fields + listFaults fields) ++ " invalid field(s)")

/-- What reading the text of the manifest at `path` ends in. -/
inductive Reads (path : Path) (text : List Char) : Except Fault Manifest → Prop
  | read {fields : Fields} {m : Manifest} (h : JsonReader.document text = .ok (.object fields))
      (hm : Describes fields m) : Reads path text (.ok m)
  | malformed {detail : String} (h : Malformed text detail) :
      Reads path text (.error (.problem (.malformedManifest path detail)))
  | listAtFault {fields : Fields} (h : JsonReader.document text = .ok (.object fields))
      (hlist : ListAtFault fields) :
      Reads path text (.error (.problem (.invalidSourceDirectories path)))
  | longInteger {digits : Nat} (h : JsonReader.document text = .error (.tooManyDigits digits)) :
      Reads path text (.error (.tooManyDigits digits))

theorem ofText_of_fields {path : Path} {text : List Char} {fields : Fields}
    {r : Except Problem Manifest} (h : JsonReader.document text = .ok (.object fields))
    (hr : ReadsFields path fields r) : ofText path text = r.mapError .problem := by
  rw [ofText, h, ← ofFields_eq_iff_reads.mpr hr]

theorem ofText_eq_iff_reads {path : Path} {text : List Char} {r : Except Fault Manifest} :
    ofText path text = r ↔ Reads path text r := by
  constructor
  · rintro rfl
    cases hdocument : JsonReader.document text with
    | error e =>
      rw [ofText, hdocument]
      cases e with
      | malformed mistake remaining => exact .malformed (.notJson hdocument)
      | tooManyDigits digits => exact .longInteger hdocument
    | ok value =>
      cases value with
      | object fields =>
        have hreads := readsFields_ofFields path fields
        rw [ofText_of_fields hdocument hreads]
        generalize ofFields path fields = r at hreads
        cases hreads with
        | read h => exact .read hdocument h
        | listAtFault h => exact .listAtFault hdocument h
        | fieldsAtFault h hlist => exact .malformed (.fieldsAtFault hdocument h hlist)
      | _ =>
        rw [ofText, hdocument]
        exact .malformed (.notObject hdocument nofun)
  · intro h
    cases h with
    | read h hm => exact ofText_of_fields h (.read hm)
    | malformed h =>
      cases h with
      | notJson h => rw [ofText, h]
      | fieldsAtFault h hfaults hlist => exact ofText_of_fields h (.fieldsAtFault hfaults hlist)
      | @notObject value h hvalue =>
        rw [ofText, h]
        cases value with
        | object fields => exact absurd rfl (hvalue fields)
        | _ => rfl
    | listAtFault h hlist => exact ofText_of_fields h (.listAtFault hlist)
    | longInteger h => rw [ofText, h]

/-! ## Reading the file -/

/-- The text of the manifest of the project at `root`. -/
def HasText (fs : FileSystem) (root : Path) (text : List Char) : Prop :=
  ∃ bytes chars, fs.read (root.child fileName) = .ok bytes ∧ Utf8.decode bytes = .ok chars ∧
    text = Text.unifyLineEnds chars

theorem read_of_hasText {fs : FileSystem} {root : Path} {text : List Char}
    (h : HasText fs root text) : read fs root = ofText (root.child fileName) text := by
  obtain ⟨bytes, chars, hread, hdecode, rfl⟩ := h
  simp only [read, hread, hdecode]

theorem hasNul_manifest (root : Path) :
    FileSystem.hasNul (root.child fileName) = FileSystem.hasNul root := by
  have hname : '\x00' ∉ fileName.toList := by decide
  simp [FileSystem.hasNul, Path.child, hname]

theorem read_of_nul {fs : FileSystem} {root : Path} (h : FileSystem.hasNul root = true) :
    fs.read (root.child fileName) = .error .embeddedNul := by
  rw [FileSystem.read, hasNul_manifest, if_pos h]

/-- A file without a text is reported, unless its path holds `U+0000`. -/
theorem read_of_not_hasText {fs : FileSystem} {root : Path} (hnul : FileSystem.hasNul root = false)
    (h : ¬∃ text, HasText fs root text) :
    read fs root = .error (.problem (.unreadableManifest (root.child fileName))) := by
  rw [read]
  split
  · rfl
  · next e hfile hread =>
    rw [FileSystem.read, hasNul_manifest, hnul, if_neg (by decide)] at hread
    split at hread
    · cases hread
    · exact absurd (Except.error.inj hread).symm (hfile _)
    · exact absurd (Except.error.inj hread).symm (hfile _)
  · next bytes hread =>
    split
    · rfl
    · next chars hdecode => exact absurd ⟨_, bytes, chars, hread, hdecode, rfl⟩ h

end ElmSuite.Manifest

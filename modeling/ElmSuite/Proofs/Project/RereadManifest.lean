import ElmSuite.Proofs.Files.Written
import ElmSuite.Proofs.Project.GeneratedManifest
import ElmSuite.Proofs.Project.Load

/-!
# Rereading the manifest for the generated program

The fields of a project, written for the generated program, are read back as they were, in
the same order, but for the list of source directories.
-/

namespace ElmSuite

open JsonValue

/-! ## One field set -/

namespace JsonValue

/-- Fields with one of them set: in the place where it was, or last if it was not there. -/
inductive WithField (key : CodePoints) (value : JsonValue) :
    Manifest.Fields → Manifest.Fields → Prop
  | inPlace (before : Manifest.Fields) {after : Manifest.Fields} {old : JsonValue}
      (hother : ∀ f ∈ before ++ after, f.1 ≠ key) :
      WithField key value (before ++ (key, old) :: after) (before ++ (key, value) :: after)
  | last {fields : Manifest.Fields} (hother : ∀ f ∈ fields, f.1 ≠ key) :
      WithField key value fields (fields ++ [(key, value)])

theorem WithField.cons {key other : CodePoints} {value x : JsonValue} {fields gs : Manifest.Fields}
    (h : WithField key value fields gs) (hne : other ≠ key) :
    WithField key value ((other, x) :: fields) ((other, x) :: gs) := by
  cases h with
  | @inPlace before after old hother =>
    exact .inPlace ((other, x) :: before) (List.forall_mem_cons.mpr ⟨hne, hother⟩)
  | last hother => exact .last (List.forall_mem_cons.mpr ⟨hne, hother⟩)

/-- Setting a field changes no other one, nor their order. -/
theorem withField_setField (key : CodePoints) (value : JsonValue) {fields : Manifest.Fields}
    (hnodup : (fields.map Prod.fst).Nodup) :
    WithField key value fields (setField key value fields) := by
  induction fields with
  | nil => exact .last (by simp)
  | cons f rest ih =>
    obtain ⟨k, v⟩ := f
    obtain ⟨hnew, hrest⟩ := List.nodup_cons.mp hnodup
    rw [setField]
    split
    · next heq =>
      subst heq
      exact .inPlace [] fun g hg heq => hnew (List.mem_map.mpr ⟨g, hg, heq⟩)
    · next hne => exact (ih hrest).cons hne

end JsonValue

/-! ## The text that is written -/

namespace JsonPrinter

/-- The text of an object ends with its closing brace. -/
theorem exists_document_object (fields : Manifest.Fields) :
    ∃ front, (document (.object fields)).toList = front ++ ['\x7d'] := by
  rw [document, String.toList_ofList]
  cases fields with
  | nil => exact ⟨['\x7b'], value_emptyObject 0⟩
  | cons f rest =>
    rw [value_object, ← List.cons_append]
    exact ⟨_, rfl⟩

end JsonPrinter

namespace Manifest

/-- The text of a manifest ends with one line feed. -/
theorem exists_text (fields : Fields) :
    ∃ front, (Manifest.text fields).toList = front ++ ['\x7d', '\n'] := by
  obtain ⟨front, hfront⟩ := JsonPrinter.exists_document_object fields
  refine ⟨front, ?_⟩
  rw [Manifest.text, String.toList_append, hfront, List.append_assoc]
  rfl

/-- Fields without doubles that list directories are read as they were written. -/
theorem document_listing {text : List Char} {fields : Fields}
    (hread : JsonReader.document text = .ok (.object fields))
    (hfree : ∀ f ∈ fields, f.2.DoubleFree) (directories : List String) :
    JsonReader.document (Manifest.text (listing directories fields)).toList =
      .ok (.object (listing directories fields)) := by
  have hsound : SoundFields fields := (JsonReader.sound_of_document hread).fields
  obtain ⟨gs, hdocument, hkeys, hlike⟩ :=
    JsonReader.document_written (soundFields_listing hsound directories)
  have hlisting : ∀ f ∈ listing directories fields, f.2.DoubleFree := by
    intro f hf
    rcases mem_setField hf with rfl | hf
    · refine .array fun x hx => ?_
      obtain ⟨codes, -, rfl⟩ := List.mem_map.mp hx
      exact .string codes
    · exact hfree f hf
  obtain rfl := fields_eq_of_like hkeys hlike fun f hf w hw => hw.eq (hlisting f hf)
  rw [Manifest.text, String.toList_append]
  exact hdocument

end Manifest

/-! ## The file that is written -/

namespace Project

open Manifest

/-- What a project holds of its manifest is what its file was read as. -/
theorem hasText_of_load {fs : FileSystem} {root : Path} {p : Project} (h : load fs root = .ok p) :
    ∃ text, HasText fs root text ∧
      JsonReader.document text = .ok (.object p.manifest.fields) ∧
      Describes p.manifest.fields p.manifest := by
  have hloads := loads_load fs root
  rw [h] at hloads
  cases hloads with
  | loaded htext hdocument hm => exact ⟨_, htext, hm.fields ▸ hdocument, hm.fields ▸ hm⟩

/-- The source directories that the manifest for the generated program lists: that of the program, and
those of the project. -/
def listedDirectories (p : Project) (l : Layout) : List String :=
  (l.sourceDirectory :: p.sourceDirs).map toString

/-- What the file of the manifest for the generated program is read as. -/
structure RereadAs (p : Project) (l : Layout) (after : FileSystem) (m : Manifest) : Prop where
  read : Manifest.read after l.directory = .ok m
  kind : m.kind = p.manifest.kind
  directories : m.sourceDirectories = some ((p.listedDirectories l).map .ofString)
  /-- All fields are those of the project, in their order, but for the list of source directories. -/
  fields : WithField (CodePoints.ofString sourceDirectoriesField)
    (.array ((p.listedDirectories l).map fun d => .string (CodePoints.ofString d)))
    p.manifest.fields m.fields
  /-- The text ends with one line feed. -/
  text : ∃ front, after.read l.manifest =
    .ok (String.ofList (front ++ ['\x7d', '\n'])).toUTF8.toList

/-- **The manifest of a project is preserved.** Whatever a project was loaded from, if its manifest
holds no doubles, then the manifest that is written for the generated program, anywhere, is read back
with all its fields as they were and in the same order, but for the source directories. The project
still holds the object that its own file was read as. -/
theorem reread_generatedManifest {fs before after : FileSystem} {root : Path} {p : Project}
    {l : Layout} (hload : load fs root = .ok p)
    (hfree : ∀ f ∈ p.manifest.fields, f.2.DoubleFree)
    (hwrite : Manifest.write before l (p.generatedManifest l) = .ok after) :
    (∃ m, RereadAs p l after m) ∧ ∃ text, HasText fs root text ∧
      JsonReader.document text = .ok (.object p.manifest.fields) := by
  obtain ⟨text, htext, hdocument, hm⟩ := hasText_of_load hload
  refine ⟨?_, text, htext, hdocument⟩
  have hfile := FileSystem.read_writeTextWithParents hwrite
  have hreread := document_listing hdocument hfree (p.listedDirectories l)
  obtain ⟨gs, hgs, hdescribes⟩ :=
    reads_text_listing hdocument hm (p.listedDirectories l) (by simp [listedDirectories])
  obtain rfl : listing (p.listedDirectories l) p.manifest.fields = gs :=
    JsonValue.object.inj (Except.ok.inj (hreread.symm.trans hgs))
  rw [generatedManifest_eq] at hfile
  refine ⟨_, ⟨load_of_hasText (hasText_of_read hfile) (.read hgs hdescribes), rfl, rfl, ?_, ?_⟩⟩
  · have hset := withField_setField (CodePoints.ofString sourceDirectoriesField)
      (.array ((p.listedDirectories l).map fun d => .string (CodePoints.ofString d)))
      (JsonReader.sound_of_document hdocument).fields.nodup
    rwa [listing, List.map_map]
  · obtain ⟨front, hfront⟩ := exists_text (listing (p.listedDirectories l) p.manifest.fields)
    refine ⟨front, ?_⟩
    rw [← hfront, String.ofList_toList]
    exact hfile

/-- A project whose manifest lists its directories between two other fields, one of them nested. -/
def nestedTree : FileSystem where
  root := .dir
    [(Manifest.fileName, .file ("\x7b\"type\": \"application\", \"source-directories\": [\"src\"], " ++
      "\"\\u00e9\": [-1, \x7b\"\\n\": [[], null, true, \"\\ud83d\\ude00\"]\x7d]\x7d").toUTF8.toList false),
      ("src", .empty), ("tests", .empty)]
  workingDirectory := some []

theorem exists_reread_nestedTree :
    ∃ p after m, load nestedTree ⟨.root, []⟩ = .ok p ∧
      (∀ f ∈ p.manifest.fields, f.2.DoubleFree) ∧
      Manifest.write nestedTree ⟨⟨.root, []⟩⟩ (p.generatedManifest ⟨⟨.root, []⟩⟩) = .ok after ∧
      RereadAs p ⟨⟨.root, []⟩⟩ after m := by
  have hrun : (load nestedTree ⟨.root, []⟩).toOption.any (fun p =>
      decide (∀ f ∈ p.manifest.fields, f.2.DoubleFree) &&
        (Manifest.write nestedTree ⟨⟨.root, []⟩⟩ (p.generatedManifest ⟨⟨.root, []⟩⟩)).toBool) =
      true := by
    decide +kernel
  cases hload : load nestedTree ⟨.root, []⟩ with
  | error e =>
    rw [hload] at hrun
    cases hrun
  | ok p =>
    rw [hload] at hrun
    obtain ⟨hfree, hwritten⟩ := Bool.and_eq_true_iff.mp hrun
    replace hfree := of_decide_eq_true hfree
    cases hwrite : Manifest.write nestedTree ⟨⟨.root, []⟩⟩ (p.generatedManifest ⟨⟨.root, []⟩⟩) with
    | error e =>
      rw [hwrite] at hwritten
      cases hwritten
    | ok after =>
      obtain ⟨⟨m, hm⟩, -⟩ := reread_generatedManifest hload hfree hwrite
      exact ⟨p, after, m, rfl, hfree, hwrite, hm⟩

end Project

end ElmSuite

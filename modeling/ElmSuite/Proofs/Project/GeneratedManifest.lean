import ElmSuite.Project.Project
import ElmSuite.Proofs.Json.WrittenText
import ElmSuite.Proofs.Project.Manifest

/-!
# The manifest for the generated program

The manifest that is written for the generated program is read as one of the same kind,
which lists the directories that were written.
-/

namespace ElmSuite

open JsonValue

namespace JsonValue

theorem eq_of_like_string {codes : CodePoints} {v : JsonValue} (h : Like (.string codes) v) :
    v = .string codes := by
  cases h with
  | string => rfl

theorem eq_of_like_strings {strings : List CodePoints} {v : JsonValue}
    (h : Like (.array (strings.map .string)) v) : v = .array (strings.map .string) := by
  cases h with
  | @array _ ys h =>
    congr 1
    induction strings generalizing ys with
    | nil => exact List.forall₂_nil_left_iff.mp h
    | cons s strings ih =>
      obtain ⟨v, vs, hv, hvs, rfl⟩ := List.forall₂_cons_left_iff.mp h
      rw [eq_of_like_string hv, ih hvs, List.map_cons]

/-- Of fields that are alike, the first ones that are there are alike. -/
theorem firstField?_like {fs gs : List (CodePoints × JsonValue)}
    (hkeys : fs.map Prod.fst = gs.map Prod.fst)
    (h : List.Forall₂ Like (fs.map Prod.snd) (gs.map Prod.snd)) (keys : List String) :
    (firstField? fs keys = none ∧ firstField? gs keys = none) ∨
      ∃ v w, firstField? fs keys = some v ∧ firstField? gs keys = some w ∧ Like v w := by
  refine @firstField?_alike
    (fun a b => (a = none ∧ b = none) ∨ ∃ v w, a = some v ∧ b = some w ∧ Like v w)
    (.inl ⟨rfl, rfl⟩) ?_ _ _ _ fun key _ => lookup_like hkeys h (CodePoints.ofString key)
  intro a b hab
  rcases hab with ⟨rfl, rfl⟩ | ⟨v, w, rfl, rfl, -⟩
  · rfl
  · rfl

end JsonValue

namespace Manifest

/-- Fields with the list of source directories replaced. -/
def listing (directories : List String) (fields : Fields) : Fields :=
  setField (CodePoints.ofString sourceDirectoriesField)
    (.array ((directories.map CodePoints.ofString).map .string)) fields

theorem generatedManifest_eq (p : Project) (l : Layout) :
    p.generatedManifest l =
      listing ((l.sourceDirectory :: p.sourceDirs).map toString) p.manifest.fields := by
  simp only [Project.generatedManifest, listing, List.map_map]
  rfl

theorem kindValue?_listing (directories : List String) (fields : Fields) :
    kindValue? (listing directories fields) = kindValue? fields := by
  have hne : ∀ key ∈ ["type", "project_type"],
      CodePoints.ofString key ≠ CodePoints.ofString sourceDirectoriesField := by decide
  simp only [kindValue?, firstField?, field?, listing, List.findSome?_cons, List.findSome?_nil,
    lookup_setField_of_ne (hne "type" (by decide)),
    lookup_setField_of_ne (hne "project_type" (by decide))]

theorem listValue?_listing (directories : List String) (fields : Fields) :
    listValue? (listing directories fields) =
      some (.array ((directories.map CodePoints.ofString).map .string)) := by
  simp only [listValue?, firstField?, field?, listing, List.findSome?_cons, lookup_setField]

theorem soundFields_listing {fields : Fields} (h : SoundFields fields) (directories : List String) :
    SoundFields (listing directories fields) := by
  refine h.setField (CodePoints.sound_ofString _) (.array fun x hx => ?_)
  obtain ⟨codes, hcodes, rfl⟩ := List.mem_map.mp hx
  obtain ⟨directory, -, rfl⟩ := List.mem_map.mp hcodes
  exact .string (CodePoints.sound_ofString directory)

section Like

variable {fields gs : Fields} {directories : List String}

theorem namesKind_of_like {kind : ProjectKind} (hkind : NamesKind fields kind)
    (hkeys : (listing directories fields).map Prod.fst = gs.map Prod.fst)
    (h : List.Forall₂ Like ((listing directories fields).map Prod.snd) (gs.map Prod.snd)) :
    NamesKind gs kind := by
  rcases firstField?_like hkeys h ["type", "project_type"] with ⟨hf, hg⟩ | ⟨v, w, hf, hg, hlike⟩
  · have hnone := (kindValue?_listing directories fields).symm.trans hf
    cases hkind with
    | unnamed => exact .unnamed hg
    | named hnamed =>
      rw [hnone] at hnamed
      cases hnamed
  · have hsome := (kindValue?_listing directories fields).symm.trans hf
    cases hkind with
    | unnamed hunnamed =>
      rw [hsome] at hunnamed
      cases hunnamed
    | named hnamed =>
      rw [hsome, Option.some.injEq] at hnamed
      subst hnamed
      exact .named (hg.trans (congrArg some (eq_of_like_string hlike)))

theorem listsDirectories_of_like (hne : directories ≠ [])
    (hkeys : (listing directories fields).map Prod.fst = gs.map Prod.fst)
    (h : List.Forall₂ Like ((listing directories fields).map Prod.snd) (gs.map Prod.snd)) :
    ListsDirectories gs (some (directories.map .ofString)) := by
  rcases firstField?_like hkeys h [sourceDirectoriesField, "source_directories"] with
    ⟨hf, -⟩ | ⟨v, w, hf, hg, hlike⟩
  · cases (listValue?_listing directories fields).symm.trans hf
  · obtain rfl := Option.some.inj ((listValue?_listing directories fields).symm.trans hf)
    rw [eq_of_like_strings hlike] at hg
    exact .listed (by simpa using hne) hg

/-- Fields that are alike and list directories describe manifests of the same kind. -/
theorem describes_of_like {m : Manifest} (hm : Describes fields m) (hne : directories ≠ [])
    (hkeys : (listing directories fields).map Prod.fst = gs.map Prod.fst)
    (h : List.Forall₂ Like ((listing directories fields).map Prod.snd) (gs.map Prod.snd)) :
    Describes gs ⟨m.kind, some (directories.map .ofString), gs⟩ where
  kind := namesKind_of_like hm.kind hkeys h
  directories := listsDirectories_of_like hne hkeys h
  listed _ := nofun
  fields := rfl

end Like

/-- **A manifest that lists directories is read as it was written.** -/
theorem reads_text_listing {text : List Char} {fields : Fields} {m : Manifest}
    (hread : JsonReader.document text = .ok (.object fields)) (hm : Describes fields m)
    (directories : List String) (hne : directories ≠ []) :
    ∃ gs, JsonReader.document (Manifest.text (listing directories fields)).toList =
        .ok (.object gs) ∧ Describes gs ⟨m.kind, some (directories.map .ofString), gs⟩ := by
  have hsound : SoundFields fields := (JsonReader.sound_of_document hread).fields
  obtain ⟨gs, hdocument, hkeys, hlike⟩ :=
    JsonReader.document_written (soundFields_listing hsound directories)
  refine ⟨gs, ?_, describes_of_like hm hne hkeys hlike⟩
  rw [Manifest.text, String.toList_append]
  exact hdocument

/-- The text of a manifest that was written is in its file. -/
theorem hasText_of_read {fs : FileSystem} {root : Path} {fields : Fields}
    (h : fs.read (root.child fileName) = .ok (Manifest.text fields).toUTF8.toList) :
    HasText fs root (Manifest.text fields).toList := by
  have hkept := JsonPrinter.kept_document (.object fields)
  refine ⟨_, _, h, Utf8.decode_ascii fun c hc => (hkept c hc).1, ?_⟩
  rw [Text.unifyLineEnds_of_not_mem]
  exact fun hmem => (hkept _ hmem).2 rfl

end Manifest

end ElmSuite

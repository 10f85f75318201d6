import ElmSuite.Files.Spelling
import ElmSuite.Proofs.Files.Faults
import ElmSuite.Proofs.Path
import ElmSuite.Proofs.Text.CodePoints

/-!
# Spelled paths

A path that is spelled by the code points of a text is looked up as the text is. What keeps another
one from being looked up is what keeps a path from being resolved, or a surrogate that stands for
no byte.
-/

namespace ElmSuite

namespace CodePoints

/-- Code points that are characters or stand for bytes. -/
def IsSpelling (codes : CodePoints) : Prop := ∀ n ∈ codes, n.isValidChar ∨ isByte n = true

theorem IsText.isSpelling {codes : CodePoints} (h : codes.IsText) : codes.IsSpelling :=
  fun n hn => .inl (h n hn)

@[simp] theorem nameText?_ofString (s : String) : nameText? (ofString s) = some s := by
  rw [nameText?, text?_ofString]

theorem spelledTexts_ofString (texts : List String) :
    spelledTexts (texts.map ofString) = (texts, none) := by
  induction texts with
  | nil => rfl
  | cons text texts ih => rw [List.map_cons, spelledTexts, nameText?_ofString, ih]

/-- The name at which spelling ends is one of the names and spells nothing. -/
theorem nameText?_of_spelledTexts {names : List CodePoints} {name : CodePoints}
    (h : (spelledTexts names).2 = some name) : name ∈ names ∧ nameText? name = none := by
  induction names with
  | nil => cases h
  | cons first names ih =>
    rw [spelledTexts] at h
    split at h
    · next hfirst =>
      obtain rfl := Option.some.inj h
      exact ⟨List.mem_cons_self .., hfirst⟩
    · exact (ih h).imp_left (List.mem_cons_of_mem first)

/-- The pieces of a text are spelled by the pieces of its code points. -/
theorem splitAt_ofString (s : String) :
    splitAt '/'.toNat (ofString s) = (splitString '/' s).map ofString := by
  rw [ofString, ofChars, splitAt_map toNat_injective, splitString, List.map_map]
  refine List.map_congr_left fun piece _ => ?_
  rw [Function.comp_apply, ofString, String.toList_ofList, ofChars]

/-- The text that a path spells: that of the texts that its names spell. -/
def Spells (codes : CodePoints) (s : String) : Prop :=
  ∃ texts, spelledTexts (splitAt '/'.toNat codes) = (texts, none) ∧ String.intercalate "/" texts = s

theorem spells_ofString (s : String) : (ofString s).Spells s :=
  ⟨_, splitAt_ofString s ▸ spelledTexts_ofString _, intercalate_splitString '/' s⟩

end CodePoints

namespace FileSystem

variable {fs : FileSystem} {root : Path}

/-- A path that spells a text is looked up as the text is. -/
theorem resolveSpelled_of_spells {spelled : CodePoints} {s : String} (h : spelled.Spells s)
    (fs : FileSystem) (root : Path) : fs.resolveSpelled root spelled = fs.resolve (root.joinText s) := by
  obtain ⟨texts, htexts, rfl⟩ := h
  rw [resolveSpelled, htexts]

/-- A path that is spelled by a text is looked up as the text is. -/
theorem resolveSpelled_ofString (fs : FileSystem) (root : Path) (s : String) :
    fs.resolveSpelled root (.ofString s) = fs.resolve (root.joinText s) :=
  resolveSpelled_of_spells (CodePoints.spells_ofString s) fs root

/-- What can be resolved spells a text. -/
theorem exists_spells_of_resolveSpelled {spelled : CodePoints} {dir : Path}
    (h : fs.resolveSpelled root spelled = .ok dir) : ∃ s, spelled.Spells s := by
  rw [resolveSpelled] at h
  split at h
  · next texts htexts => exact ⟨_, texts, htexts, rfl⟩
  · extract_lets p at h
    split at h <;> cases h

/-- What keeps a spelled path from being resolved. -/
inductive SpellingFault (spelled : CodePoints) : Fault → Prop
  | resolving {e : Fault} (h : ResolveFault e) : SpellingFault spelled e
  | unencodable {flaw : CodePoints.Flaw} (h : ¬spelled.IsSpelling) :
      SpellingFault spelled (.unencodable flaw)

theorem spellingFault_nameFault {spelled name : CodePoints} {place : Path}
    (hname : ∀ n ∈ name, n ∈ spelled) : SpellingFault spelled (nameFault place name) := by
  rw [nameFault]
  split
  · next flaw hflaw =>
    refine .unencodable fun hspelling => ?_
    rw [CodePoints.flawFrom_eq_none_iff.mpr fun n hn => ?_] at hflaw
    · cases hflaw
    · rcases List.mem_append.mp hn with hn | hn
      · exact (CodePoints.isText_ofString _).isSpelling n hn
      · exact hspelling n (hname n hn)
  · split
    · exact .resolving .nul
    · exact .resolving (.refused _)

theorem spellingFault_of_resolveSpelled {spelled : CodePoints} {e : Fault}
    (h : fs.resolveSpelled root spelled = .error e) : SpellingFault spelled e := by
  rw [resolveSpelled] at h
  split at h
  · exact .resolving (resolveFault_of_resolve h)
  · next texts name hnames =>
    have hname := (CodePoints.nameText?_of_spelledTexts (congrArg Prod.snd hnames)).1
    extract_lets p at h
    split at h
    · next hwithin => exact Except.error.inj h ▸ .resolving (resolveFault_of_resolveWithin hwithin)
    · exact Except.error.inj h ▸ spellingFault_nameFault fun n hn => mem_of_mem_splitAt hname hn

end FileSystem

end ElmSuite

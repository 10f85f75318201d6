import ElmSuite.Program.Generator
import ElmSuite.Proofs.Text.CodePoints

/-!
# Programs for names and paths that are texts

Where no surrogate stands alone in a name or a path, the body of a program is a text. What
the text is made of is said here once more, for strings; the code points of the strings give
the code points of the text.
-/

namespace ElmSuite

open CodePoints (ofChars ofString IsText ofChars_append ofChars_cons isText_nil isText_cons
  isText_append isText_ofChars isText_ofString)

namespace Literal

/-- A surrogate is copied, so that a literal is a text if what it is written for is one. -/
theorem isText_encodePoint {n : Nat} : IsText (encodePoint n) ↔ n.isValidChar := by
  rw [encodePoint]
  split
  · next h => exact iff_of_true (isText_ofChars _) h
  · next h => rw [IsText, List.forall_mem_singleton]

theorem isText_ofText {text : CodePoints} : IsText (ofText text) ↔ text.IsText := by
  have hinside : IsText (text.flatMap encodePoint) ↔ text.IsText := by
    rw [IsText, List.forall_mem_flatMap]
    exact forall_congr' fun n => imp_congr_right fun _ => isText_encodePoint
  rw [ofText, isText_cons, isText_append, isText_cons, hinside, and_iff_left isText_nil]

theorem ofText_ofString (s : String) : ofText (ofString s) = ofChars (literal s) := by
  have hpoint : (fun c : Char => encodePoint c.toNat) = fun c => ofChars (encodeChar c) := by
    funext c
    rw [encodePoint, if_pos (show c.toNat.isValidChar from c.valid), Char.ofNat_toNat]
  have hinside (chars : List Char) :
      (ofChars chars).flatMap encodePoint = ofChars (encode chars) := by
    rw [encode, ofChars, ofChars, List.flatMap_map, List.map_flatMap, hpoint]
    rfl
  rw [ofText, ofString, hinside, literal, ofChars_cons, ofChars_append]
  rfl

end Literal

namespace Program

/-! ## The text of a body -/

/-- Names in ascending order, repeated ones kept. -/
def sortedNames (names : List String) : List String :=
  names.mergeSort fun a b => (compare a b).isLE

/-- The group of the tests of one module. -/
def groupText (moduleName : String) (tests : List String) : List Char :=
  let references := (sortedNames tests).map fun n => moduleName.toList ++ '.' :: n.toList
  groupStart moduleName ++ joinWith "\n            , ".toList references ++ "\n            ]".toList

/-- The literals of strings in a list. -/
def literalList (strings : List String) : List Char :=
  '[' :: (joinWith [',', ' '] (strings.map Literal.literal) ++ [']'])

/-- The record of the options of a run on these paths. -/
def recordText (o : RunOptions) (paths : List String) : List Char :=
  shownOptions o ++ "paths = ".toList ++ literalList paths ++ "\n            \x7d".toList

/-- A program without its header. -/
def bodyText (tests : NameMap (List String)) (o : RunOptions) (paths : List String) : List Char :=
  opening tests.keys ++
    joinWith "\n    , ".toList (tests.toList.map fun (m, names) => groupText m names) ++
    afterGroups ++ recordText o paths ++ ['\n']

/-! ## Code points of the parts -/

theorem ofChars_joinWith (separator : List Char) (texts : List (List Char)) :
    ofChars (joinWith separator texts) = joinWith (ofChars separator) (texts.map ofChars) := by
  unfold joinWith
  induction texts with
  | nil => rfl
  | cons text texts ih =>
    cases texts with
    | nil => rw [List.map_singleton, List.intercalate_singleton, List.intercalate_singleton]
    | cons next texts =>
      rw [List.map_cons, List.map_cons, List.intercalate_cons_cons, List.intercalate_cons_cons,
        ofChars_append, ofChars_append, ih, List.map_cons]

theorem sorted_map_ofString (names : List String) :
    sorted (names.map ofString) = (sortedNames names).map ofString :=
  (List.map_mergeSort fun a _ b _ => by rw [CodePoints.compare_ofString]).symm

theorem group_map_ofString (m : String) (names : List String) :
    group m (names.map ofString) = ofChars (groupText m names) := by
  have hreferences : (sorted (names.map ofString)).map
        (fun n => ofString m ++ '.'.toNat :: n) =
      ((sortedNames names).map fun n => m.toList ++ '.' :: n.toList).map ofChars := by
    rw [sorted_map_ofString, List.map_map, List.map_map]
    refine List.map_congr_left fun n _ => ?_
    rw [Function.comp_apply, Function.comp_apply, ofChars_append, ofChars_cons]
    rfl
  rw [group, groupText, hreferences, ofChars_append, ofChars_append, ofChars_joinWith]
  rfl

theorem literals_map_ofString (strings : List String) :
    literals (strings.map ofString) = ofChars (literalList strings) := by
  have hliterals : (strings.map ofString).map Literal.ofText =
      (strings.map Literal.literal).map ofChars := by
    rw [List.map_map, List.map_map]
    exact List.map_congr_left fun s _ => Literal.ofText_ofString s
  rw [literals, literalList, hliterals, ofChars_cons, ofChars_append, ofChars_joinWith]
  rfl

variable {o : RunOptions} {paths : List String}

theorem optionsRecord_eq_ofChars (h : o.paths = paths.map ofString) :
    optionsRecord o = ofChars (recordText o paths) := by
  rw [optionsRecord, recordText, h, literals_map_ofString, ofString]
  simp only [ofChars_append]

theorem body_eq_ofChars (tests : NameMap (List String)) (h : o.paths = paths.map ofString) :
    body (tests.map fun _ names => names.map ofString) o = ofChars (bodyText tests o paths) := by
  rw [body, bodyText, Std.ExtTreeMap.keys_map, Std.ExtTreeMap.toList_map, List.map_map,
    optionsRecord_eq_ofChars h]
  simp only [ofChars_append, ofChars_joinWith, List.map_map]
  rw [List.map_congr_left fun entry _ => group_map_ofString entry.1 entry.2]
  rfl

/-! ## When a body is a text -/

theorem isText_joinWith {separator : CodePoints} (h : separator.IsText)
    {texts : List CodePoints} :
    IsText (joinWith separator texts) ↔ ∀ text ∈ texts, text.IsText := by
  unfold joinWith
  induction texts with
  | nil => simp [IsText]
  | cons text texts ih =>
    cases texts with
    | nil => rw [List.intercalate_singleton, List.forall_mem_singleton]
    | cons next texts =>
      rw [List.intercalate_cons_cons, isText_append, isText_append, ih,
        and_iff_left h, List.forall_mem_cons (l := next :: texts)]

theorem isText_group {m : String} {names : List CodePoints} :
    IsText (group m names) ↔ ∀ n ∈ names, n.IsText := by
  have hreference (n : CodePoints) : IsText (ofString m ++ '.'.toNat :: n) ↔ n.IsText := by
    rw [isText_append, isText_cons, and_iff_right (isText_ofString m)]
  rw [group, isText_append, isText_append, and_iff_right (isText_ofChars _),
    and_iff_left (isText_ofString _), isText_joinWith (isText_ofString _), List.forall_mem_map]
  simp only [hreference, sorted, List.mem_mergeSort]

theorem isText_optionsRecord (o : RunOptions) :
    IsText (optionsRecord o) ↔ ∀ path ∈ o.paths, path.IsText := by
  have hlist : IsText (literals o.paths) ↔ ∀ path ∈ o.paths, path.IsText := by
    rw [literals, isText_cons, isText_append, isText_cons, and_iff_left isText_nil,
      isText_joinWith (isText_ofString ", "), List.forall_mem_map]
    simp only [Literal.isText_ofText]
  rw [optionsRecord, isText_append, isText_append, and_iff_right (isText_ofChars _),
    and_iff_left (isText_ofString _), hlist]

/-- A body is a text exactly if the names and the paths in it are. -/
theorem isText_body (tests : NameMap (List CodePoints)) (o : RunOptions) :
    IsText (body tests o) ↔
      (∀ entry ∈ tests.toList, ∀ n ∈ entry.2, n.IsText) ∧ ∀ path ∈ o.paths, path.IsText := by
  rw [body, isText_append, isText_append, isText_append, isText_append, isText_optionsRecord,
    and_iff_left (isText_ofString _), and_iff_left (isText_ofChars _),
    and_iff_right (isText_ofChars _), isText_joinWith (isText_ofString _), List.forall_mem_map]
  simp only [isText_group]

end Program

end ElmSuite

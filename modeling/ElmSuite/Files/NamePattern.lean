/-!
# Name patterns

A pattern for one name: `*` stands for any text, `?` for any character and
`[…]` for a character of a class. In a class `a-c` is a range, and a range whose
ends are out of order is left out together with its ends; a `!` in front of what
is left turns the class around. There are no escapes, and a bracket that is not
closed stands for itself.
-/

namespace ElmSuite

/-- A part of a class of characters. -/
inductive ClassItem where
  | single (c : Char)
  | range (low high : Char)
  deriving DecidableEq, Repr

/-- A part of a name pattern. -/
inductive NamePiece where
  /-- Any text. -/
  | anyText
  /-- Any character. -/
  | anyChar
  /-- A character itself. -/
  | literal (c : Char)
  /-- A character in one of the items, or in none of them. -/
  | oneOf (negated : Bool) (items : List ClassItem)
  deriving DecidableEq, Repr

namespace ClassItem

/-- Whether a character belongs to an item. -/
def admits : ClassItem → Char → Bool
  | single d, c => c = d
  | range low high, c => low ≤ c && c ≤ high

end ClassItem

namespace NamePiece

/-- Whether a character fits a piece that stands for one character. -/
def admits : NamePiece → Char → Bool
  | anyText, _ => false
  | anyChar, _ => true
  | literal d, c => c = d
  | oneOf negated items, c => (items.any fun item => item.admits c) != negated

end NamePiece

namespace NamePattern

/-- Whether a character makes a text a pattern. -/
def isWild (c : Char) : Bool := c == '*' || c == '?' || c == '['

/-- Whether a name is a pattern. -/
def isPattern (name : String) : Bool := name.toList.any isWild

/-- The inside of a class cut at the hyphens that make ranges. A hyphen makes a range unless it is
among the first `from` characters or the last one. -/
def cutAtHyphens : Nat → Nat → List Char → List (List Char)
  | 0, _, inside => [inside]
  | fuel + 1, start, inside =>
    let later := (inside.drop start).takeWhile (· ≠ '-')
    let cut := start + later.length
    if cut < inside.length then
      if cut + 1 = inside.length then [inside]
      else inside.take cut :: cutAtHyphens fuel 2 (inside.drop (cut + 1))
    else [inside]

/-- Leaves out the ranges whose ends are out of order, together with their ends. -/
def dropEmptyRanges (chunks : List (List Char)) : List (List Char) :=
  chunks.foldr (fun chunk later => match later with
    | [] => [chunk]
    | next :: more =>
      match chunk.getLast?, next.head? with
      | some low, some high =>
        if high < low then (chunk.dropLast ++ next.drop 1) :: more else chunk :: next :: more
      | _, _ => chunk :: next :: more) []

/-- The inside of a class, without its empty ranges. The hyphens that make ranges are told from the
character. -/
def classText (inside : List Char) : List (Option Char) :=
  let start := if inside.head? = some '!' then 2 else 1
  let chunks := dropEmptyRanges (cutAtHyphens inside.length start inside)
  List.intercalate [none] (chunks.map (List.map some))

/-- The items of a class. A hyphen without a character before it stands for itself. -/
def classItems : List (Option Char) → List ClassItem
  | some low :: none :: some high :: rest => .range low high :: classItems rest
  | c :: rest => .single (c.getD '-') :: classItems rest
  | [] => []

/-- The piece for the inside of a class. -/
def classPiece (inside : List Char) : NamePiece :=
  match classText inside with
  | some '!' :: rest => .oneOf true (classItems rest)
  | text => .oneOf false (classItems text)

/-- The inside of a class and what follows its closing bracket. A bracket that comes first, or right
after a `!`, does not close the class. -/
def classInside? (text : List Char) : Option (List Char × List Char) :=
  let bang := if text.head? = some '!' then 1 else 0
  let lead := if (text.drop bang).head? = some ']' then bang + 1 else bang
  let inner := (text.drop lead).takeWhile (· ≠ ']')
  match text.drop (lead + inner.length) with
  | [] => none
  | _ :: rest => some (text.take (lead + inner.length), rest)

/-- The pieces of a pattern. -/
def piecesWithin : Nat → List Char → List NamePiece
  | 0, _ => []
  | _ + 1, [] => []
  | fuel + 1, c :: rest =>
    if c = '*' then .anyText :: piecesWithin fuel rest
    else if c = '?' then .anyChar :: piecesWithin fuel rest
    else if c = '[' then
      match classInside? rest with
      | none => .literal c :: piecesWithin fuel rest
      | some (inside, after) => classPiece inside :: piecesWithin fuel after
    else .literal c :: piecesWithin fuel rest

/-- The pieces of a pattern. -/
def pieces (pattern : List Char) : List NamePiece := piecesWithin pattern.length pattern

/-- A text and its ends, the longest first. -/
def suffixes : List Char → List (List Char)
  | [] => [[]]
  | c :: rest => (c :: rest) :: suffixes rest

/-- Whether a whole text fits the pieces. -/
def fits : List NamePiece → List Char → Bool
  | [], text => text.isEmpty
  | .anyText :: more, text => (suffixes text).any (fits more)
  | piece :: more, text =>
    match text with
    | [] => false
    | c :: rest => piece.admits c && fits more rest

/-- For a text and each of its ends, the longest first, whether this one or a shorter one has the
mark. -/
def markLonger : List Bool → List Bool
  | [] => []
  | mark :: rest =>
    let later := markLonger rest
    (mark || later.headD false) :: later

/-- For a text and each of its ends, the longest first, whether it fits the pieces. -/
def fittingEnds (text : List Char) : List NamePiece → List Bool
  | [] => text.map (fun _ => false) ++ [true]
  | .anyText :: more => markLonger (fittingEnds text more)
  | piece :: more =>
    List.zipWith (fun c fit => piece.admits c && fit) text (fittingEnds text more).tail ++ [false]

/-- Whether a name fits a pattern. Each end of the name is looked at once for each piece. -/
def admits (pattern name : String) : Bool :=
  (fittingEnds name.toList (pieces pattern.toList)).headD false

theorem map_suffixes_isEmpty (text : List Char) :
    (suffixes text).map List.isEmpty = text.map (fun _ => false) ++ [true] := by
  induction text with
  | nil => rfl
  | cons c rest ih => simp [suffixes, ih]

theorem markLonger_map_suffixes (fit : List Char → Bool) (text : List Char) :
    markLonger ((suffixes text).map fit) = (suffixes text).map fun t => (suffixes t).any fit := by
  induction text with
  | nil => simp [suffixes, markLonger]
  | cons c rest ih =>
    simp only [suffixes, List.map_cons, markLonger, ih, List.any_cons]
    cases rest <;> simp [suffixes]

theorem map_suffixes_cons (admitted : Char → Bool) (fit : List Char → Bool) (text : List Char) :
    (suffixes text).map (fun t => match t with
      | [] => false
      | c :: rest => admitted c && fit rest) =
      List.zipWith (fun c b => admitted c && b) text ((suffixes text).map fit).tail ++ [false] := by
  induction text with
  | nil => rfl
  | cons c rest ih =>
    simp only [suffixes, List.map_cons, List.tail_cons, ih]
    cases rest <;> simp [suffixes]

/-- The ends that are marked are those that fit. -/
theorem fittingEnds_eq (text : List Char) (ps : List NamePiece) :
    fittingEnds text ps = (suffixes text).map (fits ps) := by
  induction ps with
  | nil =>
    rw [fittingEnds, ← map_suffixes_isEmpty]
    exact List.map_congr_left fun t _ => by simp [fits]
  | cons p more ih =>
    cases p with
    | anyText =>
      rw [fittingEnds, ih, markLonger_map_suffixes]
      exact List.map_congr_left fun t _ => by simp [fits]
    | anyChar =>
      rw [fittingEnds, ih, ← map_suffixes_cons]
      · exact List.map_congr_left fun t _ => by cases t <;> simp [fits]
      · simp
    | literal d =>
      rw [fittingEnds, ih, ← map_suffixes_cons]
      · exact List.map_congr_left fun t _ => by cases t <;> simp [fits]
      · simp
    | oneOf negated items =>
      rw [fittingEnds, ih, ← map_suffixes_cons]
      · exact List.map_congr_left fun t _ => by cases t <;> simp [fits]
      · simp

/-- A name fits a pattern if the whole of it fits the pieces. -/
theorem admits_eq (pattern name : String) :
    admits pattern name = fits (pieces pattern.toList) name.toList := by
  rw [admits, fittingEnds_eq]
  cases name.toList <;> simp [suffixes]

end NamePattern

end ElmSuite

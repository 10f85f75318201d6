import ElmSuite.Files.Resolve

/-!
# Spelled paths

A path may be given by code points that are no text. A surrogate from `U+DC80` to
`U+DCFF` then stands for a byte, so that the bytes of a name may still spell a text;
names of any other bytes lead nowhere. A name with a surrogate that stands for no
byte cannot be looked up at all.
-/

namespace ElmSuite

namespace CodePoints

/-- Whether a surrogate stands for a byte that is no character of its own. -/
def isByte (n : Nat) : Bool := 0xDC80 ≤ n && n ≤ 0xDCFF

/-- The bytes of a name. -/
def nameBytes (name : CodePoints) : List UInt8 :=
  name.flatMap fun n =>
    if isByte n then [UInt8.ofNat (n - 0xDC00)] else (String.singleton (Char.ofNat n)).toUTF8.toList

/-- The text that a name spells, if it spells one. -/
def nameText? (name : CodePoints) : Option String :=
  match name.text? with
  | some text => some text
  | none =>
    match flawFrom isByte 0 name, Utf8.decode name.nameBytes with
    | none, .ok text => some (String.ofList text)
    | _, _ => none

/-- The texts that names spell, up to the first name that spells none. -/
def spelledTexts : List CodePoints → List String × Option CodePoints
  | [] => ([], none)
  | name :: rest =>
    match name.nameText? with
    | none => ([], some name)
    | some text => ((spelledTexts rest).1.cons text, (spelledTexts rest).2)

end CodePoints

namespace FileSystem

/-- Why a name that spells no text cannot be found in the directory that `place` leads to. -/
def nameFault (place : Path) (name : CodePoints) : Fault :=
  let before := place.anchor.text ++ String.join (place.names.map (· ++ "/"))
  match CodePoints.flawFrom CodePoints.isByte 0 (.ofString before ++ name) with
  | some flaw => .unencodable flaw
  | none =>
    if 0 ∈ name then .embeddedNul
    else .file ⟨.noEntry, before ++ CodePoints.shown name⟩

/-- The canonical path of what a spelled path leads to from `root`. What comes before the first name
that spells no text is looked up first. -/
def resolveSpelled (fs : FileSystem) (root : Path) (spelled : CodePoints) : Except Fault Path :=
  match CodePoints.spelledTexts (splitAt '/'.toNat spelled) with
  | (texts, none) => fs.resolve (root.joinText (String.intercalate "/" texts))
  | (texts, some name) =>
    let p := root.joinText (String.join (texts.map (· ++ "/")))
    match fs.resolveWithin fs.resolveDepth [] (resolveStart p) p.names with
    | .error e => .error e
    | .ok place => .error (nameFault place name)

end FileSystem

end ElmSuite

import ElmSuite.Log
import ElmSuite.Names

/-!
# Module names of files

A file below a source directory declares the module named by its path from
there, without the file's suffix, each part a capitalised identifier. A name
that two files declare belongs to neither.
-/

namespace ElmSuite

/-- Whether a character can follow the first one of a capitalised identifier. -/
def isIdentifierChar (c : Char) : Bool := c.isAlpha || c.isDigit || c == '_'

/-- Whether a text is a capitalised identifier, which one line feed may follow. -/
def isUpperName (s : String) : Bool :=
  match s.toList with
  | [] => false
  | c :: rest =>
    let body := if rest.getLast? = some '\n' then rest.dropLast else rest
    c.isUpper && body.all isIdentifierChar

/-- What a source directory makes of a file. -/
inductive ModuleCandidate where
  /-- The file is not below the directory. -/
  | outside
  /-- The parts of the path do not make a module name. -/
  | illegal (parts : List String)
  /-- The module that the file declares. -/
  | named (name : String)
  deriving DecidableEq, Repr

/-- The parts of a path below a source directory, the last one without its suffix. -/
def moduleParts : List String → List String
  | [] => []
  | [last] => [Path.stem last]
  | name :: rest => name :: moduleParts rest

/-- What `dir` makes of `file`. -/
def moduleCandidate (file dir : Path) : ModuleCandidate :=
  match file.relativeTo? dir with
  | none | some [] => .outside
  | some names =>
    let parts := moduleParts names
    if parts.all isUpperName then .named (String.intercalate "." parts) else .illegal parts

/-- The module that `file` declares below `dir`, if any. -/
def moduleName? (file dir : Path) : Option String :=
  match moduleCandidate file dir with
  | .named name => some name
  | _ => none

/-- The note that the path of a file is no module name. -/
def illegalNameNote (file dir : Path) (parts : List String) : LogRecord :=
  ⟨.debug, "Ignoring " ++ toString file ++ " under " ++ toString dir ++ ": " ++
    String.intercalate "." parts ++ " is not a valid module name"⟩

/-- The warning that several files declare a name. -/
def ambiguityWarning (name : String) (files : PathSet) : LogRecord :=
  ⟨.warning, "Module name " ++ name ++ " is declared by more than one file (" ++
    String.intercalate ", " (files.toList.map toString) ++ "); its tests will not be run"⟩

/-- What is known of module names while files are gone through. -/
structure TableState where
  /-- The first file that declared each name. -/
  table : NameMap Path := ∅
  /-- The files of each name that several files declared. -/
  ambiguous : NameMap PathSet := ∅
  /-- The notes on paths that are no module names. -/
  notes : List LogRecord := []

namespace TableState

/-- Takes note of a file that declares a name. A file that is not the first one to declare it makes
the name ambiguous. -/
def declare (s : TableState) (name : String) (file : Path) : TableState :=
  match s.table[name]? with
  | none => { s with table := s.table.insert name file }
  | some existing =>
    if existing = file then { s with table := s.table.insert name file }
    else
      let known := (s.ambiguous[name]?).getD (PathSet.ofList [existing])
      { s with ambiguous := s.ambiguous.insert name (known.insert file) }

/-- Looks at a file below a directory. -/
def step (file : Path) (s : TableState) (dir : Path) : TableState :=
  match moduleCandidate file dir with
  | .outside => s
  | .illegal parts => { s with notes := s.notes ++ [illegalNameNote file dir parts] }
  | .named name => s.declare name file

/-- Looks at files one after another, each below all directories. -/
def run (files dirs : List Path) (s : TableState) : TableState :=
  files.foldl (fun s file => dirs.foldl (step file) s) s

end TableState

/-- What is known once all files have been gone through, each directory being taken once. -/
def tableState (files : PathSet) (dirs : List Path) : TableState :=
  TableState.run files.toList dirs.eraseDups {}

/-- The table of the names of files. The names that several files declare are taken out at the end. -/
def moduleTable (files : PathSet) (dirs : List Path) : NameMap Path :=
  let s := tableState files dirs
  s.ambiguous.keys.foldl (fun table name => table.erase name) s.table

/-- The records made while a table is built: a note for each path that is no module name, then a
warning for each name that is taken out. -/
def moduleTableLog (files : PathSet) (dirs : List Path) : List LogRecord :=
  let s := tableState files dirs
  s.notes ++ s.ambiguous.toList.map fun (name, files) => ambiguityWarning name files

end ElmSuite

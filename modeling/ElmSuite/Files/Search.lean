import ElmSuite.Files.Lookup

/-!
# Finding programs and home directories

A program given by a bare name is looked for in the directories of the search
path, in order. A path may begin with `~`, which stands for the home directory
of the user, or with `~name`, which stands for that of another user.
-/

namespace ElmSuite

/-- What the environment of a run says about where things are. -/
structure Surroundings where
  /-- The directories in which programs are looked for, with colons between them. -/
  searchPath : String
  /-- The home directory of the user. -/
  home : String
  /-- The home directory of another user, if there is one of that name. -/
  homeOf : String → Option String

namespace FileSystem

/-- A name written below a directory. -/
def writtenBelow (dir name : String) : String :=
  if dir = "" then name
  else if dir.toList.getLast? = some '/' then dir ++ name
  else dir ++ "/" ++ name

/-- Whether a text leads to a file that may be executed. -/
def isProgram (fs : FileSystem) (text : String) : Bool :=
  !text.toList.contains '\x00' && match fs.writtenNode text with
    | .ok node => node.isExecutable
    | .error _ => false

/-- The program of a bare name, as it is written below the first directory that has it. -/
def findProgram (fs : FileSystem) (searchPath name : String) : Option String :=
  if searchPath = "" then none
  else ((splitString ':' searchPath).map (writtenBelow · name)).find? fs.isProgram

/-- What is found is a program below a directory of the search path. -/
theorem findProgram_eq_some {fs : FileSystem} {searchPath name text : String}
    (h : fs.findProgram searchPath name = some text) :
    fs.isProgram text = true ∧ ∃ dir ∈ splitString ':' searchPath, text = writtenBelow dir name := by
  unfold findProgram at h
  split at h
  · simp at h
  · refine ⟨List.find?_some h, ?_⟩
    obtain ⟨dir, hd, rfl⟩ := List.mem_map.1 (List.mem_of_find?_eq_some h)
    exact ⟨dir, hd, rfl⟩

end FileSystem

namespace Surroundings

/-- A home directory as it is put in the place of `~`: without slashes at its end, unless it is the
root. -/
def homeText (home : String) : String :=
  let kept := (home.toList.reverse.dropWhile (· = '/')).reverse
  if kept = [] then "/" else String.ofList kept

/-- The home directory that a name which begins with `~` stands for. -/
def homeFor (s : Surroundings) (user : List Char) : Except Fault String :=
  if user = [] then .ok (homeText s.home)
  else if user.contains '\x00' then .error .embeddedNul
  else match s.homeOf (String.ofList user) with
    | some home => .ok (homeText home)
    | none => .error .unknownHome

/-- A path with the home directory put in the place of a leading `~` or `~name`. -/
def expandHome (s : Surroundings) (p : Path) : Except Fault Path :=
  match p.isAbsolute, p.names with
  | false, first :: rest =>
    match first.toList with
    | '~' :: user =>
      match s.homeFor user with
      | .error e => .error e
      | .ok home =>
        if home.toList.head? = some '~' then .error .unknownHome
        else .ok ((Path.ofString home).join ⟨.here, rest⟩)
    | _ => .ok p
  | _, _ => .ok p

end Surroundings

end ElmSuite

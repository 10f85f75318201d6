import ElmSuite.Program.Generator
import ElmSuite.Text.Digit

/-!
# Arguments of the command line

A command line is read word by word. A word that begins with a hyphen names an
option, in full or by any part of its name that no other option begins with; its
value follows after `=` or as the next word. All other words are paths, and so
are negative numbers, words that hold a space and all words after `--`. The
paths have to stand side by side. Where an option is repeated, the last one
counts.
-/

namespace ElmSuite

/-- What a command asks for. -/
structure Arguments where
  /-- Where to look for tests. -/
  paths : List String := []
  seed : Option String := none
  fuzz : Option String := none
  compiler : Option String := none
  report : Report := .console
  workers : Option String := none
  noColor : Bool := false
  /-- Whether the whole log is shown. -/
  verbose : Bool := false
  deriving DecidableEq, Repr

/-- Why a command line leads to no run. -/
inductive NoRun where
  /-- Help is asked for. -/
  | help
  /-- The version is asked for. -/
  | version
  /-- The command line makes no sense. -/
  | misuse
  deriving DecidableEq, Repr

/-- The options. -/
inductive CommandOption where
  | help
  | seed
  | fuzz
  | compiler
  | report
  | workers
  | noColor
  | verbose
  | version
  deriving DecidableEq, Repr

namespace CommandOption

/-- The options in the order in which help lists them. -/
def all : List CommandOption :=
  [help, seed, fuzz, compiler, report, workers, noColor, verbose, version]

/-- The name of an option. -/
def name : CommandOption → String
  | help => "--help"
  | seed => "--seed"
  | fuzz => "--fuzz"
  | compiler => "--compiler"
  | report => "--report"
  | workers => "--workers"
  | noColor => "--no-color"
  | verbose => "--verbose"
  | version => "--version"

/-- Whether an option has a value. -/
def takesValue : CommandOption → Bool
  | seed | fuzz | compiler | report | workers => true
  | help | noColor | verbose | version => false

/-- The option of a name in full. -/
def named? (text : List Char) : Option CommandOption :=
  if text = ['-', 'h'] then some help else all.find? fun o => o.name.toList = text

/-- The options whose names begin with a text. -/
def startingWith (text : List Char) : List CommandOption :=
  all.filter fun o => text.isPrefixOf o.name.toList

end CommandOption

/-- What a word of a command line is. -/
inductive CommandWord where
  /-- A path, or the value of the option before it. -/
  | plain (text : String)
  /-- The mark after which no word is an option. -/
  | mark
  /-- An option, with the value that is attached to it. -/
  | option (o : CommandOption) (attached : Option String)
  /-- An option that there is not. -/
  | unknown
  deriving DecidableEq, Repr

namespace CommandWord

/-- Whether a text is digits only, and at least one. -/
def isDigits (text : List Char) : Bool := text ≠ [] && text.all fun c => (Text.digitValue? c).isSome

/-- Whether the text after a hyphen makes it a negative number: digits, perhaps with a point before
some of them, and perhaps a line feed at the end. -/
def isNumber (text : List Char) : Bool :=
  let text := if text.getLast? = some '\n' then text.dropLast else text
  let whole := text.takeWhile (· ≠ '.')
  match text.drop whole.length with
  | [] => isDigits whole
  | _ :: fraction => (whole = [] || isDigits whole) && isDigits fraction

/-- The option `-h` with text behind it, which has to repeat its letter. -/
def helpWord (letters : List Char) : CommandWord :=
  option .help (if letters ≠ [] ∧ letters.all (· = 'h') then none else some (String.ofList letters))

/-- What is before the first `=` of a text, and what is after it. -/
def cutValue (text : List Char) : List Char × Option String :=
  let name := text.takeWhile (· ≠ '=')
  match text.drop name.length with
  | [] => (name, none)
  | _ :: value => (name, some (String.ofList value))

/-- An option under its full name, with the value after the sign `=`. -/
def valued (name : List Char) (value : String) (o : CommandOption) : CommandWord :=
  if name = ['-', 'h'] then helpWord value.toList else option o (some value)

/-- The options that the start of a name stands for, with the value attached to it. -/
def abbreviated (text : List Char) : List CommandWord :=
  match text with
  | '-' :: '-' :: _ =>
    let (name, value) := cutValue text
    (CommandOption.startingWith name).map (option · value)
  | '-' :: 'h' :: letters => [helpWord letters]
  | _ => []

/-- What a word is. A start of a name that several options share is refused. -/
def ofText (word : String) : Except NoRun CommandWord :=
  match word.toList with
  | '-' :: c :: rest =>
    let text := '-' :: c :: rest
    match CommandOption.named? text, cutValue text with
    | some o, _ => .ok (option o none)
    | none, (name, value) =>
      match value.bind fun v => (CommandOption.named? name).map (valued name v), abbreviated text with
      | some w, _ => .ok w
      | none, [w] => .ok w
      | none, _ :: _ :: _ => .error .misuse
      | none, [] =>
        if isNumber (c :: rest) || text.contains ' ' then .ok (plain word) else .ok unknown
  | _ => .ok (plain word)

/-- What the words of a command line are. -/
def ofTexts : List String → Except NoRun (List CommandWord)
  | [] => .ok []
  | word :: rest =>
    if word = "--" then .ok (mark :: rest.map plain)
    else do return (← ofText word) :: (← ofTexts rest)

end CommandWord

/-- Where reading stands with regard to the paths. -/
inductive PathsState where
  /-- Before the first of them. -/
  | ahead
  /-- Among them. -/
  | within
  /-- After an option that ended them. -/
  | behind
  deriving DecidableEq, Repr

/-- How far a command line has been read. -/
structure CommandReading where
  arguments : Arguments := {}
  /-- The option whose value comes next. -/
  awaiting : Option CommandOption := none
  paths : PathsState := .ahead
  /-- Whether there was a word that fits nowhere. -/
  leftover : Bool := false
  deriving DecidableEq, Repr

namespace CommandReading

/-- The arguments with an option set to a value. -/
def assign (a : Arguments) (value : String) : CommandOption → Except NoRun Arguments
  | .seed => .ok { a with seed := some value }
  | .fuzz => .ok { a with fuzz := some value }
  | .compiler => .ok { a with compiler := some value }
  | .workers => .ok { a with workers := some value }
  | .report => match Report.ofName value with
    | .ok r => .ok { a with report := r }
    | .error _ => .error .misuse
  | .help | .noColor | .verbose | .version => .error .misuse

/-- The arguments with an option set that has no value. -/
def turnOn (a : Arguments) : CommandOption → Except NoRun Arguments
  | .help => .error .help
  | .version => .error .version
  | .noColor => .ok { a with noColor := true }
  | .verbose => .ok { a with verbose := true }
  | .seed | .fuzz | .compiler | .workers | .report => .error .misuse

/-- Reading with no more paths to come. -/
def endPaths (r : CommandReading) : CommandReading :=
  if r.paths = .ahead then r else { r with paths := .behind }

/-- Reading with more paths. -/
def addPaths (r : CommandReading) (paths : List String) : CommandReading :=
  if r.paths = .behind then { r with leftover := true }
  else { r with paths := .within, arguments.paths := r.arguments.paths ++ paths }

/-- Reads one word more. -/
def step (r : CommandReading) (word : CommandWord) : Except NoRun CommandReading :=
  match r.awaiting, word with
  | some o, .plain text => (assign r.arguments text o).map fun a =>
    { r with arguments := a, awaiting := none }
  | some _, _ => .error .misuse
  | none, .plain text => .ok (r.addPaths [text])
  | none, .mark => .ok (r.addPaths [])
  | none, .unknown => .ok { r.endPaths with leftover := true }
  | none, .option o (some value) => (assign r.arguments value o).map fun a =>
    { r.endPaths with arguments := a }
  | none, .option o none =>
    if o.takesValue then .ok { r.endPaths with awaiting := some o }
    else (turnOn r.arguments o).map fun a => { r.endPaths with arguments := a }

/-- What was read, if nothing is missing and nothing is left over. -/
def finish (r : CommandReading) : Except NoRun Arguments :=
  if r.awaiting.isSome || r.leftover then .error .misuse else .ok r.arguments

end CommandReading

namespace Arguments

/-- Reads a command line. -/
def read (words : List String) : Except NoRun Arguments := do
  (← (← CommandWord.ofTexts words).foldlM CommandReading.step {}).finish

end Arguments

end ElmSuite

import ElmSuite.Names
import ElmSuite.Text.Blank

/-!
# Problems

What can keep a test suite from being found, built or run, each with the words
in which it is reported. A problem ends the run; nothing is tried again.
-/

namespace ElmSuite

/-- A reason to end a run, with what the report needs to say. -/
inductive Problem where
  /-- No `elm.json` in `start` or above it. -/
  | missingManifest (start : Path)
  /-- The working directory cannot be told. -/
  | invalidWorkingDirectory
  /-- The working directory cannot be changed to `target`. -/
  | changeDirectory (target : Path)
  /-- The log file cannot be opened. -/
  | logFile (path : Path)
  /-- A requested file or directory cannot be examined. -/
  | unreadableTestFiles
  /-- No test file was found for the arguments. -/
  | noTestFiles (requested : List String)
  /-- An argument is not the integer that its flag needs. -/
  | invalidInteger (flag value : String)
  /-- The compiler argument names no file. -/
  | invalidCompilerPath (path : String)
  /-- `elm.json` cannot be read as text. -/
  | unreadableManifest (path : Path)
  /-- `elm.json` is not what it has to be. -/
  | malformedManifest (path : Path) (detail : String)
  /-- The source directories in `elm.json` are missing or not a list of names. -/
  | invalidSourceDirectories (path : Path)
  /-- A source directory does not exist. -/
  | invalidSourceDirectory (entry : CodePoints)
  /-- A source file could not be scanned for another reason. -/
  | scanFailed (path : Option Path) (reason : String)
  /-- A source file cannot be read as text. -/
  | unreadableSource (path : Option Path)
  /-- The first line with content declares no module. -/
  | missingModuleDeclaration (path : Option Path)
  /-- The module header does not end. -/
  | malformedHeader (path : Option Path)
  /-- The compiler cannot be started. -/
  | compilerNotStarted (executable : String)
  /-- The compiler reported a failure. -/
  | compilationFailed (exitCode : Int) (stdout stderr : String)
  /-- The output of the compiler cannot be read. -/
  | unreadableCompilerOutput
  /-- The place of the running executable cannot be told. -/
  | unknownExecutable (detail : String)
  /-- The interface dump tool cannot be started. -/
  | dumpNotStarted (executable : String)
  /-- The output of the interface dump tool cannot be read. -/
  | unreadableDump
  /-- The interface dump tool printed nothing. -/
  | emptyDump
  /-- The interface dump is not what it has to be. -/
  | malformedDump (detail : String)
  /-- The interface dump is a value other than an array. -/
  | dumpNotArray (actual : String)
  /-- Some modules hold tests that they do not expose. -/
  | unexposedTests (unexposed : NameMap TextSet)
  /-- No exposed test was found. -/
  | noExposedTests (anyArguments : Bool)
  /-- A generated file cannot be written. -/
  | generatedNotWritten (path : Path)
  /-- Some workers failed. -/
  | workerFailures (failed : List Int) (total : Int)
  deriving DecidableEq

namespace Problem

/-- Where the tool is to be run from. -/
def advice : String :=
  "Make sure you're running elm-test-runner from your project's root directory, " ++
    "where its elm.json file lives.\n\nTo generate some initial tests " ++
    "to get things going, run `elm-test init`."

/-- Where bugs are filed. -/
def bugTracker : String := "https://github.com/rtfeldman/node-test-runner/issues"

/-- A path in a report on a text that need not come from a file. -/
def shownPath : Option Path → String
  | none => "None"
  | some path => toString path

/-- The report on the tests that one module does not expose. -/
def unexposedBlock (moduleName : String) (names : TextSet) : String :=
  "`" ++ moduleName ++ "` is a module with top-level Test values which it does not expose:\n\n" ++
    String.intercalate "\n" (names.toList.map (·.shown ++ " : Test")) ++
    "\n\nThese tests will not get run. Please either expose them or move them out of the top level."

/-- What the malformed dump report says of a value that is not an array. -/
def notArrayDetail (actual : String) : String := "expected a top-level array, got " ++ actual

/-- The report on a malformed dump. -/
def malformedDumpMessage (detail : String) : String :=
  "Malformed JSON when reading from the interface dump tool (" ++ detail ++
    "). Please file a bug at " ++ bugTracker

/-- The words in which a problem is reported. -/
def message : Problem → String
  | missingManifest _ =>
    "elm-test-runner could not find an elm.json file in this directory or any parent " ++
      "directories.\n" ++ advice
  | invalidWorkingDirectory =>
    "elm-test-runner was run from an invalid directory. Maybe the current directory has been " ++
      "deleted?"
  | changeDirectory target =>
    "elm-test-runner was unable to change the current working directory to " ++
      toString target ++ "."
  | logFile path => "elm-test-runner was unable to open the log file " ++ toString path ++ "."
  | unreadableTestFiles => "elm-test-runner was unable to read the requested .elm files."
  | noTestFiles [] => "No tests found in the tests/ directory.\n\nNOTE: " ++ advice
  | noTestFiles requested =>
    "No tests found for the file pattern \"" ++ String.intercalate " " requested ++
      "\"\n\nMaybe try running elm-test-runner with no arguments?"
  | invalidInteger flag value =>
    value ++ " is not a valid value for argument for the " ++ flag ++ " flag"
  | invalidCompilerPath path =>
    "The --compiler flag must be given a valid path to an elm executable, which this was not: " ++
      path
  | unreadableManifest _ =>
    "Unable to read your project's elm.json file. Please make sure it exists and has the right " ++
      "permissions!"
  | malformedManifest _ detail =>
    "Your project's elm.json file appears to contain invalid JSON (" ++ detail ++
      "). Try running it through a JSON validator and fixing any syntax errors you find!"
  | invalidSourceDirectories _ =>
    "Your project's elm.json file does not have a valid source-directories array. Make sure the " ++
      "`source-directories` field is present, and is an array of strings!"
  | invalidSourceDirectory entry =>
    "Your project's elm.json file contains an invalid source-directory: " ++ entry.shown
  | scanFailed _ reason => reason
  | unreadableSource path =>
    "Could not read \"" ++ shownPath path ++ "\" when attempting to validate its exports."
  | missingModuleDeclaration path =>
    "File \"" ++ shownPath path ++ "\" needs a `module` declaration on the first line."
  | malformedHeader path =>
    "File \"" ++ shownPath path ++ "\" appears to have an invalid module declaration. " ++
      "Please double-check it!\nIf the file compiles successfully with `elm make`, then this is " ++
      "a problem with elm-test-runner, so please file it at " ++ bugTracker ++
      " and show the module declaration (including exports!) that resulted in this message."
  | compilerNotStarted executable =>
    "Unable to execute `" ++ executable ++ " make`. Try using the --compiler flag to set the " ++
      "location of the `elm` executable explicitly."
  | compilationFailed _ stdout stderr =>
    let details := String.intercalate "\n"
      ([Text.trimString stdout, Text.trimString stderr].filter (· ≠ ""))
    "Test compilation failed." ++ if details = "" then "" else "\n\n" ++ details
  | unreadableCompilerOutput => "Unable to read the output of the compiler."
  | unknownExecutable detail =>
    "Unable to detect current running process for elm-test-runner (" ++ detail ++
      "). Is it running from a weird location, possibly involving symlinks?"
  | dumpNotStarted executable =>
    "Unable to run `" ++ executable ++ "`. This binary should have been installed along with " ++
      "elm-test-runner. Maybe try reinstalling it?"
  | unreadableDump =>
    "Unable to read stdout from the interface dump tool. Please file a bug at " ++ bugTracker
  | emptyDump =>
    "The interface dump tool did not produce any output. Please file a bug at " ++ bugTracker
  | malformedDump detail => malformedDumpMessage detail
  | dumpNotArray actual => malformedDumpMessage (notArrayDetail actual)
  | unexposedTests unexposed =>
    String.intercalate "\n\n\n" (unexposed.toList.map fun (m, names) => unexposedBlock m names)
  | noExposedTests true =>
    "I couldn't find any exposed values of type Test in the requested files.\n\nMaybe try " ++
      "running elm-test-runner with no arguments?"
  | noExposedTests false =>
    "I couldn't find any exposed values of type Test in any *.elm files in the tests/ directory " ++
      "of your project's root directory.\n\nTo generate some initial tests to get things going, " ++
      "run `elm-test init`."
  | generatedNotWritten path => "Unable to write " ++ toString path
  | workerFailures failed total =>
    toString failed.length ++ " of " ++ toString total ++
      " test worker(s) exited unsuccessfully (workers: " ++
      String.intercalate ", " (failed.map toString) ++ ")."

end Problem

end ElmSuite

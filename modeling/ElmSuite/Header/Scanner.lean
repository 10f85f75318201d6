import ElmSuite.Header.Comment
import ElmSuite.Header.Exposing
import ElmSuite.Problem
import ElmSuite.Text.Line
import ElmSuite.Text.Word

/-!
# Reading module headers

A module header is read line by line, without a compiler: the keyword `module`,
which `port` or `effect` may come before, then the word `exposing`, then the
list in parentheses. Comments are dropped first and blank lines are passed over.
The scanner stops at the parenthesis that closes the list.
-/

namespace ElmSuite

/-- How far a header has been read. -/
inductive HeaderPhase where
  /-- Before the module keyword. -/
  | awaitingModule
  /-- Before the word `exposing`. -/
  | awaitingExposing
  /-- Before the parenthesis that opens the list. -/
  | awaitingParen
  /-- Inside the list, with the parentheses counted so far and the text of each line read. -/
  | accumulating (opened closed : Nat) (pieces : List (List Char))
  /-- Past the parenthesis that closes the list. -/
  | done (opened closed : Nat) (exposing : Exposing)
  deriving DecidableEq

/-- Why a header cannot be read. -/
inductive HeaderFault where
  /-- The first line with content is not a module declaration. -/
  | missingModule
  /-- The text ends before the header does. -/
  | unfinished
  deriving DecidableEq, Repr

namespace HeaderFault

/-- The problem to report for a fault in the header of the file at `path`. -/
def toProblem (path : Option Path) : HeaderFault → Problem
  | missingModule => .missingModuleDeclaration path
  | unfinished => .malformedHeader path

end HeaderFault

namespace HeaderPhase

/-- What follows `word` in a text that starts with it. -/
def afterStart? (word text : List Char) : Option (List Char) :=
  if word.isPrefixOf text then some (text.drop word.length) else none

/-- What follows `word` and at least one blank in a text that starts so. -/
def afterQualifier? (word text : List Char) : Option (List Char) :=
  match afterStart? word text with
  | some (c :: rest) => if Text.isBlank c then some (Text.trimLeft rest) else none
  | _ => none

/-- What follows the module keyword, the keyword being followed by a blank or by nothing. -/
def afterModule? (text : List Char) : Option (List Char) :=
  let start := (afterQualifier? "port".toList text <|> afterQualifier? "effect".toList text).getD text
  match afterStart? "module".toList start with
  | some [] => some []
  | some (c :: rest) => if Text.isBlank c then some (c :: rest) else none
  | none => none

/-- The lines of a list as one text. -/
def joinPieces (pieces : List (List Char)) : List Char := [' '].intercalate pieces

/-- Reads list text up to the parenthesis that closes the list. `piece` holds what was read of the
current line, backwards. -/
def accumulate (opened closed : Nat) (pieces : List (List Char)) (piece : List Char) :
    List Char → HeaderPhase
  | [] => accumulating opened closed (pieces ++ [piece.reverse])
  | c :: rest =>
    if c = '(' then accumulate (opened + 1) closed pieces (c :: piece) rest
    else if c = ')' then
      if closed + 1 = opened then
        done opened (closed + 1) (Exposing.split (joinPieces (pieces ++ [piece.reverse])))
      else accumulate opened (closed + 1) pieces (c :: piece) rest
    else accumulate opened closed pieces (c :: piece) rest

/-- What follows the first opening parenthesis. -/
def afterParen? (text : List Char) : Option (List Char) :=
  match text.dropWhile (· ≠ '(') with
  | [] => none
  | _ :: rest => some rest

/-- Reads on from before the opening parenthesis. -/
def seekParen (text : List Char) : HeaderPhase :=
  match afterParen? text with
  | none => awaitingParen
  | some rest => accumulate 1 0 [] [] rest

/-- Reads on from before the word `exposing`. -/
def seekExposing (text : List Char) : HeaderPhase :=
  match Text.afterWord? "exposing".toList false text with
  | none => awaitingExposing
  | some rest => seekParen rest

/-- The phase after a line with content, if the line is acceptable. -/
def advance (text : List Char) : HeaderPhase → Option HeaderPhase
  | awaitingModule => (afterModule? text).map seekExposing
  | awaitingExposing => some (seekExposing text)
  | awaitingParen => some (seekParen text)
  | accumulating opened closed pieces => some (accumulate opened closed pieces [] text)
  | done opened closed exposing => some (done opened closed exposing)

/-- The number of parentheses opened so far in the list. -/
def opened : HeaderPhase → Nat
  | accumulating opened _ _ | done opened _ _ => opened
  | _ => 0

/-- The number of parentheses closed so far in the list. -/
def closed : HeaderPhase → Nat
  | accumulating _ closed _ | done _ closed _ => closed
  | _ => 0

/-- The place of a phase in the order in which they are passed. -/
def rank : HeaderPhase → Nat
  | awaitingModule => 0
  | awaitingExposing => 1
  | awaitingParen => 2
  | accumulating .. => 3
  | done .. => 4

end HeaderPhase

/-- A reader of one module header. -/
structure Scanner where
  /-- How many block comments are open. -/
  commentDepth : Int
  /-- How far the header has been read. -/
  phase : HeaderPhase
  deriving DecidableEq

namespace Scanner

/-- The scanner before the first line. -/
def initial : Scanner := ⟨0, .awaitingModule⟩

/-- Whether the header is complete. -/
def isDone (s : Scanner) : Bool := s.phase.rank = 4

/-- Reads one line. A refused line leaves all but the comment depth as it was. A complete header
takes no more lines. -/
def feed (s : Scanner) (line : List Char) : Scanner × Option HeaderFault :=
  if s.isDone then (s, none)
  else
    let (kept, depth) := Comment.strip s.commentDepth (Text.dropLineEnd line)
    if Text.allBlank kept then (⟨depth, s.phase⟩, none)
    else match s.phase.advance kept with
      | some phase => (⟨depth, phase⟩, none)
      | none => (⟨depth, s.phase⟩, some .missingModule)

/-- What the header exposes, once it is complete. -/
def finish (s : Scanner) : Except HeaderFault Exposing :=
  match s.phase with
  | .done _ _ exposing => .ok exposing
  | _ => .error .unfinished

/-- Reads lines until the header is complete or a line is refused. -/
def readFrom (s : Scanner) : List (List Char) → Except HeaderFault Exposing
  | [] => s.finish
  | line :: rest =>
    match s.feed line with
    | (_, some fault) => .error fault
    | (next, none) => if next.isDone then next.finish else next.readFrom rest

end Scanner

/-- What the header of a module given as lines exposes. -/
def exposingOfLines (lines : List (List Char)) : Except HeaderFault Exposing :=
  Scanner.initial.readFrom lines

/-- What the header of a module given as text exposes. -/
def exposingOfText (text : String) : Except HeaderFault Exposing :=
  exposingOfLines (Text.splitLines text.toList)

end ElmSuite

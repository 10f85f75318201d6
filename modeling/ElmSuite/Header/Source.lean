import ElmSuite.Files.Lookup
import ElmSuite.Header.Scanner
import ElmSuite.Text.Utf8

/-!
# Source files

The header of a source file is read from the file's bytes, block by block. A
block is decoded as a whole before its lines are looked at, and no block is read
after the one in which the header is complete.
-/

namespace ElmSuite

/-- Why the header of a source file cannot be read. -/
inductive SourceFault where
  /-- The file is not UTF-8 as far as it was read. -/
  | undecodable
  /-- The header is faulty. -/
  | header (fault : HeaderFault)
  deriving DecidableEq, Repr

namespace Source

/-- How many bytes are read at a time. -/
def blockSize : Nat := 8192

/-- The bytes of a file as they are read. -/
def blocks (bytes : List UInt8) : List (List UInt8) :=
  (List.range ((bytes.length + blockSize - 1) / blockSize)).map fun i =>
    (bytes.drop (i * blockSize)).take blockSize

/-- What is left over between two blocks. -/
structure Carry where
  /-- The start of a character. -/
  decoder : Utf8.Decoder
  /-- Whether the text so far ends with a carriage return, which a line feed may belong to. -/
  afterReturn : Bool
  /-- The start of a line, backwards. -/
  line : List Char

/-- Nothing left over. -/
def Carry.none : Carry := ⟨.ready, false, []⟩

/-- The lines that a text completes, and what is left over of it. `line` holds the start of the
current line, backwards. -/
def cutLines (afterReturn : Bool) (line : List Char) : List Char → List (List Char) × Bool × List Char
  | [] => ([], afterReturn, line)
  | c :: rest =>
    if afterReturn then
      let (lines, left) := if c = '\n' then cutLines false [] rest
        else if c = '\r' then cutLines true [] rest
        else cutLines false [c] rest
      (line.reverse :: lines, left)
    else if c = '\n' then
      let (lines, left) := cutLines false [] rest
      (line.reverse :: lines, left)
    else if c = '\r' then cutLines true line rest
    else cutLines false (c :: line) rest

/-- The lines that a block completes, and what is left over of it. -/
def readBlock (carry : Carry) (block : List UInt8) : Option (List (List Char) × Carry) :=
  match Utf8.decodeFrom carry.decoder [] block with
  | .none => .none
  | some (text, decoder) =>
    let (lines, afterReturn, line) := cutLines carry.afterReturn carry.line text
    some (lines, ⟨decoder, afterReturn, line⟩)

/-- The last line, if the file ends without a line end or with a carriage return. -/
def lastLines (carry : Carry) : Option (List (List Char)) :=
  if carry.decoder ≠ .ready then .none
  else if carry.afterReturn ∨ carry.line ≠ [] then some [carry.line.reverse]
  else some []

/-- Feeds lines to a scanner until the header is complete. -/
def feedLines (s : Scanner) : List (List Char) → Except HeaderFault Scanner
  | [] => .ok s
  | line :: rest =>
    match s.feed line with
    | (_, some fault) => .error fault
    | (next, none) => if next.isDone then .ok next else feedLines next rest

/-- Reads blocks until the header is complete. -/
def readBlocks (s : Scanner) (carry : Carry) : List (List UInt8) → Except SourceFault Exposing
  | [] =>
    match lastLines carry with
    | .none => .error .undecodable
    | some lines => ((feedLines s lines).bind Scanner.finish).mapError .header
  | block :: rest =>
    match readBlock carry block with
    | .none => .error .undecodable
    | some (lines, carry) =>
      match feedLines s lines with
      | .error fault => .error (.header fault)
      | .ok next =>
        if next.isDone then next.finish.mapError .header else readBlocks next carry rest

/-- What the header of a file with these bytes exposes. -/
def exposingOfBytes (bytes : List UInt8) : Except SourceFault Exposing :=
  readBlocks .initial .none (blocks bytes)

/-- The problem to report for a fault in the file at `path`. -/
def problemAt (path : Path) : SourceFault → Problem
  | .undecodable => .unreadableSource (some path)
  | .header fault => fault.toProblem (some path)

/-- What the module in the file at a path exposes. -/
def exposing (fs : FileSystem) (path : Path) : Except Fault Exposing :=
  match fs.read path with
  | .error (.file _) => .error (.problem (.unreadableSource (some path)))
  | .error e => .error e
  | .ok bytes => (exposingOfBytes bytes).mapError fun e => .problem (problemAt path e)

end Source

end ElmSuite

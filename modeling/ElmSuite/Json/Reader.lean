import ElmSuite.Json.Value

/-!
# Reading JSON

JSON text is read left to right, and the first thing out of place is reported
with its position. Beside strict JSON the words `NaN`, `Infinity` and
`-Infinity` are numbers. Of a repeated key the last value counts, at the place
of the first.
-/

namespace ElmSuite

/-- What is out of place in a JSON text. -/
inductive JsonMistake where
  | value
  | propertyName
  | colon
  | comma
  | unterminatedString
  | controlCharacter
  | escape
  | unicodeEscape
  | extraData
  | byteOrderMark
  deriving DecidableEq, Repr

/-- Why a JSON text cannot be read. -/
inductive JsonFault where
  /-- Something is out of place where so many characters of the text remain. -/
  | malformed (mistake : JsonMistake) (remaining : Nat)
  /-- An integer has more digits than are read. -/
  | tooManyDigits (digits : Nat)
  deriving DecidableEq, Repr

namespace JsonMistake

/-- The words for a mistake. -/
def message : JsonMistake → String
  | value => "Expecting value"
  | propertyName => "Expecting property name enclosed in double quotes"
  | colon => "Expecting ':' delimiter"
  | comma => "Expecting ',' delimiter"
  | unterminatedString => "Unterminated string starting at"
  | controlCharacter => "Invalid control character at"
  | escape => "Invalid \\escape"
  | unicodeEscape => "Invalid \\uXXXX escape"
  | extraData => "Extra data"
  | byteOrderMark => "Unexpected UTF-8 BOM (decode using utf-8-sig)"

/-- The report on a mistake at a position of a text: its line and its column, counted from one, and
its distance from the start. -/
def detail (mistake : JsonMistake) (text : List Char) (position : Nat) : String :=
  let before := text.take position
  let line := before.count '\n' + 1
  let column := (before.reverse.takeWhile (· ≠ '\n')).length + 1
  mistake.message ++ ": line " ++ toString line ++ " column " ++ toString column ++
    " (char " ++ toString position ++ ")"

end JsonMistake

namespace JsonReader

/-- The outcome of reading a part of a text: what was read and the text that remains. -/
abbrev Reads (α : Type) := Except JsonFault (α × List Char)

/-- The most digits an integer may have. -/
def maxDigits : Nat := 4300

/-- Fails where `rest` begins. -/
def fault {α : Type} (mistake : JsonMistake) (rest : List Char) : Reads α :=
  .error (.malformed mistake rest.length)

/-- The blank characters of JSON. -/
def isSpace (c : Char) : Bool := c == ' ' || c == '\t' || c == '\n' || c == '\r'

/-- Passes over blank characters. -/
def skipSpace (text : List Char) : List Char := text.dropWhile isSpace

/-- The value of a hexadecimal digit. -/
def hexValue? (c : Char) : Option Nat :=
  if '0' ≤ c ∧ c ≤ '9' then some (c.toNat - '0'.toNat)
  else if 'a' ≤ c ∧ c ≤ 'f' then some (c.toNat - 'a'.toNat + 10)
  else if 'A' ≤ c ∧ c ≤ 'F' then some (c.toNat - 'A'.toNat + 10)
  else none

/-- The value of four hexadecimal digits at the start of a text that goes on after them. -/
def hexQuad? (text : List Char) : Option (Nat × List Char) :=
  match text with
  | a :: b :: c :: d :: next :: rest => do
    let a ← hexValue? a
    let b ← hexValue? b
    let c ← hexValue? c
    let d ← hexValue? d
    return (((a * 16 + b) * 16 + c) * 16 + d, next :: rest)
  | _ => none

def isHighSurrogate (n : Nat) : Bool := 0xD800 ≤ n && n ≤ 0xDBFF
def isLowSurrogate (n : Nat) : Bool := 0xDC00 ≤ n && n ≤ 0xDFFF

/-- The code point of a pair of surrogates. -/
def joinSurrogates (high low : Nat) : Nat := 0x10000 + (high - 0xD800) * 0x400 + (low - 0xDC00)

/-- The character of an escape of one letter. -/
def simpleEscape? : Char → Option Nat
  | '"' => some 0x22
  | '\\' => some 0x5C
  | '/' => some 0x2F
  | 'b' => some 0x08
  | 'f' => some 0x0C
  | 'n' => some 0x0A
  | 'r' => some 0x0D
  | 't' => some 0x09
  | _ => none

/-- Reads the rest of an escape from after its `\u`. A high surrogate takes a low surrogate that is
escaped right after it along. -/
def unicodeEscape (text : List Char) : Reads Nat :=
  match hexQuad? text with
  | none => .error (.malformed .unicodeEscape (text.length + 1))
  | some (high, rest) =>
    match rest with
    | '\\' :: 'u' :: more =>
      if isHighSurrogate high ∧ 4 < more.length then
        match hexQuad? more with
        | none => .error (.malformed .unicodeEscape (more.length + 1))
        | some (low, after) =>
          if isLowSurrogate low then .ok (joinSurrogates high low, after) else .ok (high, rest)
      else .ok (high, rest)
    | _ => .ok (high, rest)

/-- Reads the rest of a string up to its closing quote. `start` tells how much text remained at the
opening quote, and `codes` holds what was read, backwards. -/
def stringBody (start : Nat) : Nat → CodePoints → List Char → Reads CodePoints
  | 0, _, _ => .error (.malformed .unterminatedString start)
  | _ + 1, _, [] => .error (.malformed .unterminatedString start)
  | _ + 1, codes, '"' :: rest => .ok (codes.reverse, rest)
  | fuel + 1, codes, '\\' :: rest =>
    match rest with
    | [] => .error (.malformed .unterminatedString start)
    | 'u' :: more =>
      match unicodeEscape more with
      | .error e => .error e
      | .ok (code, after) => stringBody start fuel (code :: codes) after
    | c :: more =>
      match simpleEscape? c with
      | none => .error (.malformed .escape (more.length + 2))
      | some code => stringBody start fuel (code :: codes) more
  | fuel + 1, codes, c :: rest =>
    if c.toNat < 0x20 then .error (.malformed .controlCharacter (rest.length + 1))
    else stringBody start fuel (c.toNat :: codes) rest

/-- Reads a string from after its opening quote. -/
def string (text : List Char) : Reads CodePoints :=
  stringBody (text.length + 1) (text.length + 1) [] text

/-- The value of decimal digits. -/
def decimalValue (digits : List Char) : Nat :=
  digits.foldl (fun n c => n * 10 + (c.toNat - '0'.toNat)) 0

/-- The digits at the start of a text, and the text after them. -/
def digits (text : List Char) : List Char × List Char :=
  (text.takeWhile Char.isDigit, text.dropWhile Char.isDigit)

/-- The digits of an integer: a lone zero, or digits of which the first is not zero. -/
def wholeDigits? : List Char → Option (List Char × List Char)
  | '0' :: rest => some (['0'], rest)
  | c :: rest => if c.isDigit then some (digits (c :: rest)) else none
  | [] => none

/-- The digits of a fraction, empty if there is none. -/
def fractionDigits (text : List Char) : List Char × List Char :=
  match text with
  | '.' :: rest => if (digits rest).1.isEmpty then ([], text) else digits rest
  | _ => ([], text)

/-- The exponent of a number, if there is one. -/
def exponent? (text : List Char) : Option Int × List Char :=
  match text with
  | c :: rest =>
    if c = 'e' ∨ c = 'E' then
      let (negative, unsigned) := match rest with
        | '-' :: more => (true, more)
        | '+' :: more => (false, more)
        | _ => (false, rest)
      let (ds, after) := digits unsigned
      if ds.isEmpty then (none, text)
      else (some (if negative then -(decimalValue ds : Int) else decimalValue ds), after)
    else (none, text)
  | [] => (none, text)

/-- Reads a number from after its sign. `whole` is the text at the sign. -/
def unsignedNumber (negative : Bool) (whole text : List Char) : Reads JsonValue :=
  match wholeDigits? text with
  | none => fault .value whole
  | some (ds, rest) =>
    let (fraction, rest) := fractionDigits rest
    let (exponent, rest) := exponent? rest
    if fraction.isEmpty && exponent.isNone then
      if maxDigits < ds.length then .error (.tooManyDigits ds.length)
      else
        let n : Int := decimalValue ds
        .ok (.integer (if negative then -n else n), rest)
    else
      let x := Double.ofDecimal negative (decimalValue (ds ++ fraction))
        (exponent.getD 0 - fraction.length)
      .ok (.double x, rest)

/-- The words that stand for values. -/
def words : List (String × JsonValue) :=
  [("null", .null), ("true", .bool true), ("false", .bool false), ("NaN", .double .notANumber),
    ("Infinity", .double (.infinite false)), ("-Infinity", .double (.infinite true))]

/-- Reads a word or a number. -/
def scalar (text : List Char) : Reads JsonValue :=
  match words.find? fun (word, _) => word.toList.isPrefixOf text with
  | some (word, value) => .ok (value, text.drop word.length)
  | none =>
    match text with
    | '-' :: rest => unsignedNumber true text rest
    | _ => unsignedNumber false text text

mutual

/-- Reads a value. The fuel bounds the number of nested steps. -/
def value : Nat → List Char → Reads JsonValue
  | 0, text => fault .value text
  | fuel + 1, text =>
    match text with
    | '"' :: rest => (string rest).map fun (s, after) => (.string s, after)
    | '[' :: rest =>
      match skipSpace rest with
      | ']' :: after => .ok (.array [], after)
      | first => (items fuel first).map fun (xs, after) => (.array xs, after)
    | '{' :: rest =>
      match skipSpace rest with
      | '}' :: after => .ok (.object [], after)
      | first => (fields fuel [] first).map fun (fs, after) => (.object fs, after)
    | _ => scalar text

/-- Reads the items of an array up to its closing bracket. -/
def items : Nat → List Char → Reads (List JsonValue)
  | 0, text => fault .value text
  | fuel + 1, text =>
    match value fuel text with
    | .error e => .error e
    | .ok (x, rest) =>
      match skipSpace rest with
      | ']' :: after => .ok ([x], after)
      | ',' :: more => (items fuel (skipSpace more)).map fun (xs, after) => (x :: xs, after)
      | other => fault .comma other

/-- Reads the fields of an object up to its closing brace, setting them on top of `before`. -/
def fields : Nat → List (CodePoints × JsonValue) → List Char →
    Reads (List (CodePoints × JsonValue))
  | 0, _, text => fault .propertyName text
  | fuel + 1, before, text =>
    match text with
    | '"' :: keyText =>
      match string keyText with
      | .error e => .error e
      | .ok (key, rest) =>
        match skipSpace rest with
        | ':' :: valueText =>
          match value fuel (skipSpace valueText) with
          | .error e => .error e
          | .ok (x, rest) =>
            let now := JsonValue.setField key x before
            match skipSpace rest with
            | '}' :: after => .ok (now, after)
            | ',' :: more => fields fuel now (skipSpace more)
            | other => fault .comma other
        | other => fault .colon other
    | other => fault .propertyName other

end

/-- Reads a whole text as one value. -/
def document (text : List Char) : Except JsonFault JsonValue :=
  if text.head? = some '\uFEFF' then .error (.malformed .byteOrderMark text.length)
  else
    match value (2 * text.length + 2) (skipSpace text) with
    | .error e => .error e
    | .ok (x, rest) =>
      match skipSpace rest with
      | [] => .ok x
      | extra => .error (.malformed .extraData extra.length)

end JsonReader

end ElmSuite

/-!
# UTF-8

Bytes are decoded one at a time, by a decoder that holds what it has read of a
character. Each continuation byte has to lie in the range that leaves the
character possible, so that overlong forms, surrogates and code points beyond
`U+10FFFF` are refused at the first byte that gives them away.
-/

namespace ElmSuite.Utf8

/-- What has been read of a character. -/
inductive Decoder where
  /-- Nothing. -/
  | ready
  /-- The code so far; `missing + 1` bytes are to come, the next one from `low` to `high`. -/
  | pending (missing : Nat) (code : Nat) (low high : UInt8)
  deriving DecidableEq, Repr

/-- What one byte leads to. -/
inductive Step where
  /-- A character is complete. -/
  | complete (c : Char)
  /-- More bytes are needed. -/
  | needsMore (d : Decoder)
  /-- The byte cannot stand where it stands. -/
  | refused

/-- The decoder that expects the first continuation byte of a character. -/
def expect (missing code : Nat) (low high : UInt8) : Step := .needsMore (.pending missing code low high)

/-- The first byte of a character. -/
def firstByte (b : UInt8) : Step :=
  let n := b.toNat
  if n < 0x80 then .complete (Char.ofNat n)
  else if n < 0xC2 then .refused
  else if n < 0xE0 then expect 0 (n - 0xC0) 0x80 0xBF
  else if n = 0xE0 then expect 1 0 0xA0 0xBF
  else if n = 0xED then expect 1 0xD 0x80 0x9F
  else if n < 0xF0 then expect 1 (n - 0xE0) 0x80 0xBF
  else if n = 0xF0 then expect 2 0 0x90 0xBF
  else if n < 0xF4 then expect 2 (n - 0xF0) 0x80 0xBF
  else if n = 0xF4 then expect 2 4 0x80 0x8F
  else .refused

/-- One byte more. -/
def step : Decoder → UInt8 → Step
  | .ready, b => firstByte b
  | .pending missing code low high, b =>
    if low ≤ b ∧ b ≤ high then
      let code := code * 64 + (b.toNat - 0x80)
      match missing with
      | 0 => .complete (Char.ofNat code)
      | missing + 1 => .needsMore (.pending missing code 0x80 0xBF)
    else .refused

/-- Decodes bytes on from a state; fails at a byte that is refused. `read` holds the characters read,
backwards. -/
def decodeFrom (d : Decoder) (read : List Char) : List UInt8 → Option (List Char × Decoder)
  | [] => some (read.reverse, d)
  | b :: rest =>
    match step d b with
    | .complete c => decodeFrom .ready (c :: read) rest
    | .needsMore d => decodeFrom d read rest
    | .refused => none

/-- Why bytes are no text: the first ones that are no character. -/
structure Flaw where
  /-- How many bytes stand before them. -/
  position : Nat
  /-- The bytes that are no character, of which there is at least one. -/
  bytes : List UInt8
  reason : String
  deriving DecidableEq, Repr

/-- The flaw that shows at the byte `b`, after the bytes `held` of a character that is not complete.
The byte belongs to it only if it cannot begin a character. -/
def Flaw.atByte (position : Nat) (held : List UInt8) (b : UInt8) : Flaw :=
  if held = [] then ⟨position, [b], "invalid start byte"⟩
  else ⟨position, held, "invalid continuation byte"⟩

/-- A byte in two hexadecimal digits. -/
def hexByte (b : UInt8) : String :=
  String.ofList [Nat.digitChar (b.toNat / 16), Nat.digitChar (b.toNat % 16)]

/-- The report on a flaw. -/
def Flaw.message (f : Flaw) : String :=
  let place := match f.bytes with
    | [b] => "byte 0x" ++ hexByte b ++ " in position " ++ toString f.position
    | bs => "bytes in position " ++ toString f.position ++ "-" ++
        toString (f.position + bs.length - 1)
  "'utf-8' codec can't decode " ++ place ++ ": " ++ f.reason

/-- Decodes bytes on from a state. The bytes `held` of a character that is not complete stand at
`position`; `read` holds the characters before it, backwards. -/
def readFrom (d : Decoder) (position : Nat) (held : List UInt8) (read : List Char) :
    List UInt8 → Except Flaw (List Char)
  | [] =>
    if d = .ready then .ok read.reverse
    else .error ⟨position, held, "unexpected end of data"⟩
  | b :: rest =>
    match step d b with
    | .complete c => readFrom .ready (position + held.length + 1) [] (c :: read) rest
    | .needsMore d => readFrom d position (held ++ [b]) read rest
    | .refused => .error (Flaw.atByte position held b)

/-- The text of bytes, which have to be whole characters. -/
def decode (bytes : List UInt8) : Except Flaw (List Char) := readFrom .ready 0 [] [] bytes

/-- Decodes bytes on from a state. What cannot be part of a character is replaced by `U+FFFD`: the
bytes read so far together, the byte that is refused being read again as a first byte. -/
def replaceFrom (d : Decoder) (read : List Char) : List UInt8 → List Char
  | [] => (if d = .ready then read else '\uFFFD' :: read).reverse
  | b :: rest =>
    match step d b with
    | .complete c => replaceFrom .ready (c :: read) rest
    | .needsMore d => replaceFrom d read rest
    | .refused =>
      let read := '\uFFFD' :: read
      if d = .ready then replaceFrom .ready read rest
      else match firstByte b with
        | .complete c => replaceFrom .ready (c :: read) rest
        | .needsMore d => replaceFrom d read rest
        | .refused => replaceFrom .ready ('\uFFFD' :: read) rest

/-- The text of bytes, with `U+FFFD` for what is not a character. -/
def decodeReplacing (bytes : List UInt8) : List Char := replaceFrom .ready [] bytes

end ElmSuite.Utf8

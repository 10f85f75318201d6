import ElmSuite.Decimal.Shortest
import ElmSuite.Json.Value

/-!
# Writing JSON

JSON text with one item or field a line, indented by four blanks a level, and
in ASCII only: what lies beyond is escaped, in pairs of surrogates where one
escape does not reach.
-/

namespace ElmSuite

namespace JsonPrinter

/-- A double is written positionally from `10 ^ -4` up to below `10 ^ 16`, and with a mark and an
exponent of at least two digits otherwise. -/
def doubleLayout : Double.Layout :=
  ⟨-4, 16, 'e', 2, "NaN", "Infinity"⟩

/-- A hexadecimal digit, in lower case. -/
def hexDigit (n : Nat) : Char := (Nat.digitChar (n % 16))

/-- The escape of one unit of sixteen bits. -/
def unitEscape (n : Nat) : List Char :=
  ['\\', 'u', hexDigit (n / 0x1000), hexDigit (n / 0x100), hexDigit (n / 0x10), hexDigit n]

/-- A code point as it is written inside a string. -/
def codePoint (n : Nat) : List Char :=
  if n = 0x22 then ['\\', '"']
  else if n = 0x5C then ['\\', '\\']
  else if n = 0x0A then ['\\', 'n']
  else if n = 0x0D then ['\\', 'r']
  else if n = 0x09 then ['\\', 't']
  else if n = 0x0C then ['\\', 'f']
  else if n = 0x08 then ['\\', 'b']
  else if 0x20 ≤ n ∧ n < 0x7F then [Char.ofNat n]
  else if n < 0x10000 then unitEscape n
  else unitEscape (0xD800 + (n - 0x10000) / 0x400) ++ unitEscape (0xDC00 + (n - 0x10000) % 0x400)

/-- A string with its quotes. -/
def string (codes : CodePoints) : List Char := '"' :: (codes.flatMap codePoint ++ ['"'])

/-- The start of a line at a level of nesting. -/
def newLine (level : Nat) : List Char := '\n' :: List.replicate (4 * level) ' '

mutual

/-- A value at a level of nesting. -/
def value (level : Nat) : JsonValue → List Char
  | .null => "null".toList
  | .bool b => (if b then "true" else "false").toList
  | .integer n => (toString n).toList
  | .double x => x.text doubleLayout
  | .string s => string s
  | .array [] => ['[', ']']
  | .array (x :: xs) =>
    '[' :: (newLine (level + 1) ++ value (level + 1) x ++ items (level + 1) xs ++ newLine level ++
      [']'])
  | .object [] => ['{', '}']
  | .object ((k, x) :: fs) =>
    '{' :: (newLine (level + 1) ++ string k ++ [':', ' '] ++ value (level + 1) x ++
      fields (level + 1) fs ++ newLine level ++ ['}'])

/-- The items after the first. -/
def items (level : Nat) : List JsonValue → List Char
  | [] => []
  | x :: xs => ',' :: (newLine level ++ value level x ++ items level xs)

/-- The fields after the first. -/
def fields (level : Nat) : List (CodePoints × JsonValue) → List Char
  | [] => []
  | (k, x) :: fs =>
    ',' :: (newLine level ++ string k ++ [':', ' '] ++ value level x ++ fields level fs)

end

/-- A whole value as text. -/
def document (x : JsonValue) : String := String.ofList (value 0 x)

end JsonPrinter

end ElmSuite

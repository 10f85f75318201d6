import ElmSuite.Text.CodePoints

/-!
# Elm string literals

A string as an Elm literal. Quotes and backslashes are escaped, and so are
control characters: by a letter where there is one, by their code otherwise.
-/

namespace ElmSuite.Literal

/-- An upper case hexadecimal digit. -/
def hexDigit (n : Nat) : Char := (Nat.digitChar (n % 16)).toUpper

/-- The escape of a character by its code, in four digits. -/
def codeEscape (n : Nat) : List Char :=
  ['\\', 'u', '\x7b', hexDigit (n / 0x1000), hexDigit (n / 0x100), hexDigit (n / 0x10), hexDigit n,
    '\x7d']

/-- A character as it is written inside a literal. -/
def encodeChar (c : Char) : List Char :=
  if c = '\\' then ['\\', '\\']
  else if c = '"' then ['\\', '"']
  else if c = '\n' then ['\\', 'n']
  else if c = '\r' then ['\\', 'r']
  else if c = '\t' then ['\\', 't']
  else if c.toNat < 0x20 ∨ c.toNat = 0x7F then codeEscape c.toNat
  else [c]

/-- The inside of a literal. -/
def encode (s : List Char) : List Char := s.flatMap encodeChar

/-- The literal of a string. -/
def literal (s : String) : List Char := '"' :: (encode s.toList ++ ['"'])

/-- A code point as it is written inside a literal; a surrogate is copied. -/
def encodePoint (n : Nat) : CodePoints :=
  if n.isValidChar then .ofChars (encodeChar (Char.ofNat n)) else [n]

/-- The literal of a text. -/
def ofText (text : CodePoints) : CodePoints :=
  '"'.toNat :: (text.flatMap encodePoint ++ ['"'.toNat])

end ElmSuite.Literal

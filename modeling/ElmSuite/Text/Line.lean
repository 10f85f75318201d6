/-!
# Lines of text

Text is cut into lines in two ways. Text held in memory ends a line at any of
ten separators, with a carriage return and a line feed side by side taken as
one. Text read from a file ends a line at `\n`, `\r` or the two together, and
each of these reads as a single `\n`.
-/

namespace ElmSuite.Text

/-- The characters that end a line of text held in memory. -/
def isLineEnd (c : Char) : Bool :=
  c == '\n' || c == '\r' || c == '\x0b' || c == '\x0c' || c == '\x1c' || c == '\x1d' ||
    c == '\x1e' || c == '\x85' || c == '\u2028' || c == '\u2029'

/-- The lines of a text without their ends. `line` holds what was read of the current line,
backwards; a text that ends with a separator has no empty last line. -/
def splitLinesFrom (line : List Char) : List Char → List (List Char)
  | [] => if line.isEmpty then [] else [line.reverse]
  | '\r' :: '\n' :: rest => line.reverse :: splitLinesFrom [] rest
  | c :: rest =>
    if isLineEnd c then line.reverse :: splitLinesFrom [] rest
    else splitLinesFrom (c :: line) rest

/-- The lines of a text held in memory. -/
def splitLines (text : List Char) : List (List Char) := splitLinesFrom [] text

/-- Every `\r\n` and every lone `\r` becomes `\n`. -/
def unifyLineEnds : List Char → List Char
  | [] => []
  | '\r' :: '\n' :: rest => '\n' :: unifyLineEnds rest
  | c :: rest => (if c = '\r' then '\n' else c) :: unifyLineEnds rest

/-- Drops the carriage returns and line feeds at the end of a line. -/
def dropLineEnd (line : List Char) : List Char :=
  (line.reverse.dropWhile fun c => c == '\n' || c == '\r').reverse

/-- No line end is lost or made beside the three that are unified. -/
theorem not_mem_unifyLineEnds (text : List Char) : '\r' ∉ unifyLineEnds text := by
  fun_induction unifyLineEnds text with
  | case1 => simp
  | case2 rest ih => simpa using ih
  | case3 c rest _ ih =>
    by_cases h : c = '\r'
    · simpa [h] using ih
    · simpa [h, Ne.symm h] using ih

end ElmSuite.Text

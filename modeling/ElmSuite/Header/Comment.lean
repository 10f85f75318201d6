/-!
# Comments

A line comment runs from `--` to the end of its line. A block comment runs from
`{-` to the `-}` that closes it; block comments nest and may span lines, and
nothing but these two markers means anything inside one. Comments are dropped
line by line, the depth of open block comments being carried from line to line.

A block comment that starts and ends on one line leaves a single space, so that
the words on its two sides stay apart.
-/

namespace ElmSuite.Comment

/-- Drops the comments from the rest of a line that is read `depth` block comments deep.
`opened` tells whether the outermost open comment began on this line. The result is the text kept
and the depth at the end of the line. -/
def stripFrom (opened : Bool) (depth : Int) : List Char → List Char × Int
  | [] => ([], depth)
  | [c] => (if depth = 0 then [c] else [], depth)
  | c :: d :: rest =>
    if depth = 0 ∧ c = '-' ∧ d = '-' then ([], depth)
    else if c = '{' ∧ d = '-' then
      stripFrom (opened || decide (depth = 0)) (depth + 1) rest
    else if 0 < depth ∧ c = '-' ∧ d = '}' then
      let closes := opened && decide (depth = 1)
      let (kept, after) := stripFrom (opened && !closes) (depth - 1) rest
      (if closes then ' ' :: kept else kept, after)
    else
      let (kept, after) := stripFrom opened depth (d :: rest)
      (if depth = 0 then c :: kept else kept, after)

/-- Drops the comments from a line that starts `depth` block comments deep. -/
def strip (depth : Int) (line : List Char) : List Char × Int := stripFrom false depth line

/-- A line that starts outside comments ends at a depth that is not negative. -/
theorem stripFrom_depth_nonneg (opened : Bool) (depth : Int) (line : List Char) (h : 0 ≤ depth) :
    0 ≤ (stripFrom opened depth line).2 := by
  fun_induction stripFrom opened depth line with
  | case1 | case2 | case3 => exact h
  | case4 => rename_i ih; exact ih (by omega)
  | case5 => rename_i heq ih; simpa [heq] using ih (by omega)
  | case6 => rename_i heq ih; simpa [heq] using ih h

end ElmSuite.Comment

import ElmSuite.Problem
import ElmSuite.Text.Digit

/-!
# Integer arguments

An integer is an optional sign and decimal digits of any script, with single
underscores allowed between digits and blanks allowed around the whole.
-/

namespace ElmSuite.IntegerText

/-- The most digits an integer may have that is read or shown. -/
def maxDigits : Nat := 4300

/-- The values of digits between which single underscores may stand. -/
def digitValues? : List Char → Option (List Nat)
  | [] => none
  | [c] => (Text.digitValue? c).map ([·])
  | c :: '_' :: rest => do return (← Text.digitValue? c) :: (← digitValues? rest)
  | c :: rest => do return (← Text.digitValue? c) :: (← digitValues? rest)

/-- The number that digits denote. -/
def valueOf (digits : List Nat) : Nat := digits.foldl (fun n d => n * 10 + d) 0

/-- The number that a text of digits denotes. -/
def natural? (text : List Char) : Option Nat := do
  let digits ← digitValues? text
  if digits.length ≤ maxDigits then some (valueOf digits) else none

/-- The integer that a text denotes. -/
def integer? (text : List Char) : Option Int :=
  match Text.trim text with
  | '-' :: rest => (natural? rest).map fun n => -(n : Int)
  | '+' :: rest => (natural? rest).map Int.ofNat
  | rest => (natural? rest).map Int.ofNat

/-- Whether an integer has no more digits than are shown. -/
def isShown (n : Int) : Bool := (Nat.toDigits 10 n.natAbs).length ≤ maxDigits

/-- Reads the integer given for a flag, which has to be above zero where `positive` is set. -/
def read (flag value : String) (positive : Bool) : Except Problem Int :=
  match integer? value.toList with
  | some n => if positive ∧ n ≤ 0 then .error (.invalidInteger flag value) else .ok n
  | none => .error (.invalidInteger flag value)

end ElmSuite.IntegerText

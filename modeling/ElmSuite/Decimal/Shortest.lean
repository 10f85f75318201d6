import ElmSuite.Decimal.Double

/-!
# Shortest decimals

The decimal with the fewest digits that rounds back to a given double, and of
those with equally few digits the nearest. The reals that round to a double
form an interval; a grid of decimals has a point in it exactly when one of the
two neighbours of the double on that grid lies in it.
-/

namespace ElmSuite.Double

/-- A positive decimal `digits * 10 ^ exponent`. -/
structure Decimal where
  digits : Nat
  exponent : Int
  deriving DecidableEq, Repr

/-- The exponent of ten of the leading decimal digit of `significand * 2 ^ exponent`. -/
def leadingExponent (significand : Nat) (exponent : Int) : Int :=
  let shift : Nat := 350
  let whole := significand * Nat.pow 2 exponent.toNat * Nat.pow 10 shift / Nat.pow 2 (-exponent).toNat
  ((Nat.toDigits 10 whole).length : Int) - 1 - shift

/-- The point nearest to `significand * 2 ^ exponent` on the grid of multiples of `10 ^ grid`, if it
rounds back to the double. Lengths are counted in quarters of the spacing of doubles, so that the
ends of the interval are whole. -/
def nearestOnGrid? (significand : Nat) (exponent grid : Int) : Option Nat :=
  let quarter := exponent - 2
  let step := Nat.pow 10 grid.toNat * Nat.pow 2 (-quarter).toNat
  let unit := Nat.pow 10 (-grid).toNat * Nat.pow 2 quarter.toNat
  let m := significand
  let value := 4 * m * unit
  let below := if m = Nat.pow 2 52 ∧ minExponent < exponent then 1 else 2
  let low := (4 * m - below) * unit
  let high := (4 * m + 2) * unit
  let inside (x : Nat) : Bool :=
    if m % 2 = 0 then low ≤ x && x ≤ high else low < x && x < high
  let floor := value / step
  let down := floor * step
  let up := (floor + 1) * step
  let downFits := 0 < floor && inside down
  let upNearer := up - value < value - down || (up - value == value - down && floor % 2 == 1)
  if inside up && (upNearer || !downFits) then some (floor + 1)
  else if downFits then some floor
  else none

/-- The shortest decimal that rounds back to the positive double `significand * 2 ^ exponent`. Grids
are tried from the coarsest, of one digit, to that of seventeen digits, which always has a point. -/
def shortest (significand : Nat) (exponent : Int) : Decimal :=
  let leading := leadingExponent significand exponent
  let found := (List.range 17).findSome? fun (n : Nat) =>
    let grid := leading - n
    (nearestOnGrid? significand exponent grid).map fun digits => (⟨digits, grid⟩ : Decimal)
  found.getD ⟨significand, exponent⟩

/-- How the digits of a double are laid out as text. -/
structure Layout where
  /-- The least exponent of ten written positionally. -/
  positionalFrom : Int
  /-- The exponent of ten from which on a mark is written. -/
  markedFrom : Int
  /-- The mark before an exponent. -/
  mark : Char
  /-- The least number of digits of a marked exponent. -/
  exponentDigits : Nat
  notANumber : String
  infinity : String

/-- A natural number with zeros in front up to a width. -/
def padded (width n : Nat) : List Char :=
  let digits := Nat.toDigits 10 n
  List.replicate (width - digits.length) '0' ++ digits

/-- The digits of a decimal without zeros at the end, and the exponent of its first digit. -/
def significantDigits (d : Decimal) : List Char × Int :=
  let digits := Nat.toDigits 10 d.digits
  let kept := (digits.reverse.dropWhile (· = '0')).reverse
  (if kept.isEmpty then ['0'] else kept, d.exponent + digits.length - 1)

/-- The text of digits whose first has the place value `10 ^ leading`. -/
def layOut (layout : Layout) (digits : List Char) (leading : Int) : List Char :=
  if layout.positionalFrom ≤ leading ∧ leading < layout.markedFrom then
    if leading < 0 then
      "0.".toList ++ List.replicate (-leading - 1).toNat '0' ++ digits
    else
      let whole := digits.take (leading.toNat + 1)
      let fraction := digits.drop (leading.toNat + 1)
      whole ++ List.replicate (leading.toNat + 1 - whole.length) '0' ++ ['.'] ++
        if fraction.isEmpty then ['0'] else fraction
  else
    let fraction := digits.drop 1
    digits.take 1 ++ (if fraction.isEmpty then [] else '.' :: fraction) ++ [layout.mark] ++
      [if leading < 0 then '-' else '+'] ++ padded layout.exponentDigits leading.natAbs

/-- The text of a double. -/
def text (layout : Layout) : Double → List Char
  | notANumber => layout.notANumber.toList
  | infinite negative => (if negative then ['-'] else []) ++ layout.infinity.toList
  | finite negative significand exponent =>
    let sign := if negative then ['-'] else []
    if significand = 0 then sign ++ layOut layout ['0'] 0
    else
      let (digits, leading) := significantDigits (shortest significand exponent)
      sign ++ layOut layout digits leading

end ElmSuite.Double

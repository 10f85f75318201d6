/-!
# Double precision numbers

A binary floating point number of 64 bits, as its sign and the exact value
`significand * 2 ^ exponent`, and the rounding of a decimal numeral to the
nearest such number. All arithmetic is on natural numbers.
-/

namespace ElmSuite

/-- A double precision number. A finite one is kept with `significand < 2 ^ 53`, and with the least
exponent unless `2 ^ 52 ≤ significand`. -/
inductive Double where
  | notANumber
  | infinite (negative : Bool)
  | finite (negative : Bool) (significand : Nat) (exponent : Int)
  deriving DecidableEq, Repr

namespace Double

/-- The least exponent of a finite number. -/
def minExponent : Int := -1074

/-- The greatest exponent of a finite number. -/
def maxExponent : Int := 971

/-- The quotient `num / den` rounded to a natural number, a half going to the even neighbour. -/
def roundHalfEven (num den : Nat) : Nat :=
  let q := num / den
  let twice := 2 * (num % den)
  if twice < den ∨ (twice = den ∧ q % 2 = 0) then q else q + 1

/-- The double nearest to `num / den`, both positive. -/
def ofRatio (negative : Bool) (num den : Nat) : Double :=
  let scaled (e : Int) : Nat × Nat := (num * Nat.pow 2 (-e).toNat, den * Nat.pow 2 e.toNat)
  let guess : Int := (num.log2 : Int) - den.log2 - 52
  let (n, d) := scaled guess
  let fitted := if n / d < Nat.pow 2 52 then guess - 1 else guess
  let exponent := max fitted minExponent
  let (n, d) := scaled exponent
  let significand := roundHalfEven n d
  let (significand, exponent) :=
    if significand = Nat.pow 2 53 then (Nat.pow 2 52, exponent + 1) else (significand, exponent)
  if maxExponent < exponent then infinite negative else finite negative significand exponent

/-- The double nearest to `digits * 10 ^ exponent`. Numerals out of reach are told by their size, so
that no huge power is formed. -/
def ofDecimal (negative : Bool) (digits : Nat) (exponent : Int) : Double :=
  let size : Int := (Nat.toDigits 10 digits).length + exponent
  if digits = 0 ∨ size < -330 then finite negative 0 minExponent
  else if 330 < size then infinite negative
  else ofRatio negative (digits * Nat.pow 10 exponent.toNat) (Nat.pow 10 (-exponent).toNat)

end Double

end ElmSuite

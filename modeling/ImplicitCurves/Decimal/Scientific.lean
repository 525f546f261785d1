import ImplicitCurves.Decimal.Shortest

/-!
# Rounded decimals

A number with a given count of significant digits and an exponent, such as `8.41470984808e-1`.  The
exact value of the double is rounded to the nearest decimal, a tie to the even last digit.
-/

namespace ImplicitCurves.Decimal

/-- The quotient rounded to the nearest natural number, a tie to the even one. -/
def divideToEven (num den : Nat) : Nat :=
  let q := num / den
  let twice := 2 * (num % den)
  if twice < den then q
  else if den < twice then q + 1
  else if q % 2 = 0 then q else q + 1

/-- The magnitude as a fraction, in units of `10 ^ p`. -/
def Binary.fraction (b : Binary) (p : Int) : Nat × Nat :=
  (b.significand * Nat.pow 2 b.exponent.toNat * Nat.pow 10 (-p).toNat,
    Nat.pow 2 (-b.exponent).toNat * Nat.pow 10 p.toNat)

/-- The exponent of the leading digit, searched downwards from `p` in at most `tries` steps. -/
def Binary.leadingExponent (b : Binary) : (tries : Nat) → (p : Int) → Int
  | 0, p => p
  | tries + 1, p =>
    let (num, den) := b.fraction p
    if den ≤ num then p else b.leadingExponent tries (p - 1)

/-- The magnitude rounded to `count` significant digits, as a number with that many digits and the
exponent of its leading digit. -/
def Binary.rounded (b : Binary) (count : Nat) : Nat × Int :=
  let lead := b.leadingExponent 10 b.decimalBound
  let (num, den) := b.fraction (lead - (count - 1 : Nat))
  let n := divideToEven num den
  if n = Nat.pow 10 count then (Nat.pow 10 (count - 1), lead + 1) else (n, lead)

/-- The text with one digit in front of the point and the exponent after the letter `e`. -/
def exponential (ds : List Char) (exponent : Int) : List Char :=
  let mantissa :=
    match ds with
    | d :: e :: rest => d :: '.' :: e :: rest
    | ds => ds
  mantissa ++ 'e' :: (if exponent < 0 then ['-'] else []) ++ digits exponent.natAbs

/-- The text of a number that is not negative, with `count` significant digits. -/
def roundedMagnitude (count : Nat) (x : Float) : List Char :=
  if x.isNaN || x.isInf then magnitudeText x
  else
    let b := Binary.ofFloat x
    if b.significand = 0 then exponential (List.replicate count '0') 0
    else
      let (n, exponent) := b.rounded count
      exponential (digits n) exponent

/-- The text of a number with `count` significant digits. -/
def scientific (count : Nat) (x : Float) : List Char :=
  if isNegative x && !x.isNaN then '-' :: roundedMagnitude count x else roundedMagnitude count x

end ImplicitCurves.Decimal

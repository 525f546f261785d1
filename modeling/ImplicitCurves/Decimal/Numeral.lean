/-!
# Numerals

Reading decimal text.  A number is read as the double nearest to the decimal that is written, the
one with an even significand if two are equally near.  Two grammars are read: the plain numerals
of the notation (`12`, `0.5`), and the wider one for bounds and other settings, which also takes a
sign, an exponent, a missing side of the point, and the words for infinity and NaN.
-/

namespace ImplicitCurves.Decimal

/-- A decimal digit `0` to `9`. -/
def isDigit (c : Char) : Bool :=
  '0' ≤ c && c ≤ '9'

/-- The value of a digit. -/
def digitValue (c : Char) : Nat :=
  c.toNat - '0'.toNat

/-- The natural number that a row of digits denotes. -/
def naturalOfDigits (ds : List Char) : Nat :=
  ds.foldl (fun n d => 10 * n + digitValue d) 0

/-- The double nearest to `mantissa * 10 ^ exponent`.  Exponents so far out that the result is
certainly zero or infinite are settled without raising ten to them. -/
def nearest (mantissa : Nat) (exponent : Int) : Float :=
  if mantissa = 0 then 0
  else if 400 ≤ exponent then 1 / 0
  else if exponent + (mantissa.log2 + 1 : Nat) ≤ -400 then 0
  else Float.ofScientific mantissa (exponent < 0) exponent.natAbs

/-- Splits a plain numeral, digits and possibly a point with more digits, off the front.  Gives the
digits before the point, those after it, and the rest of the text.  A point without a digit after
it is not part of the numeral. -/
def splitPlain (cs : List Char) : List Char × List Char × List Char :=
  let whole := cs.takeWhile isDigit
  match cs.dropWhile isDigit with
  | '.' :: rest =>
    match rest.takeWhile isDigit with
    | [] => (whole, [], '.' :: rest)
    | fraction => (whole, fraction, rest.dropWhile isDigit)
  | rest => (whole, [], rest)

/-- The double that a numeral with the given digits before and after the point denotes. -/
def ofDigits (whole fraction : List Char) : Float :=
  nearest (naturalOfDigits (whole ++ fraction)) (-fraction.length)

/-- Splits a sign off the front: whether it is negative, and the rest. -/
def splitSign : List Char → Bool × List Char
  | '-' :: cs => (true, cs)
  | '+' :: cs => (false, cs)
  | cs => (false, cs)

/-- An ASCII letter in lower case. -/
def lowerLetter (c : Char) : Char :=
  if 'A' ≤ c && c ≤ 'Z' then Char.ofNat (c.toNat + 32) else c

/-- The exponent after a mantissa: nothing, or `e` with an optional sign and at least one digit. -/
def readExponent : List Char → Option Int
  | [] => some 0
  | c :: cs =>
    if lowerLetter c = 'e' then
      let (negative, ds) := splitSign cs
      if ds ≠ [] ∧ ds.all isDigit then
        some (if negative then -naturalOfDigits ds else naturalOfDigits ds)
      else none
    else none

/-- An unsigned number with at least one digit, a point anywhere among them, and possibly an
exponent. -/
def readMagnitude (cs : List Char) : Option Float :=
  let whole := cs.takeWhile isDigit
  let (fraction, rest) :=
    match cs.dropWhile isDigit with
    | '.' :: rest => (rest.takeWhile isDigit, rest.dropWhile isDigit)
    | rest => ([], rest)
  if whole = [] ∧ fraction = [] then none
  else (readExponent rest).map fun exponent =>
    nearest (naturalOfDigits (whole ++ fraction)) (exponent - fraction.length)

/-- Reads a number that makes up the whole text: a sign or none, then a magnitude or one of the
words `inf`, `infinity` and `nan` in any case. -/
def read (cs : List Char) : Option Float :=
  let (negative, rest) := splitSign cs
  let magnitude :=
    match String.ofList (rest.map lowerLetter) with
    | "inf" | "infinity" => some (1 / 0)
    | "nan" => some (0 / 0)
    | _ => readMagnitude rest
  magnitude.map fun x => if negative then -x else x

end ImplicitCurves.Decimal

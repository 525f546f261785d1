import ImplicitCurves.Decimal.Numeral

/-!
# Shortest decimals

The text of a number: of the decimals that read back as the number those with the fewest digits,
and of these the nearest one.  It is written without an exponent, however long that gets.

A finite double is `significand * 2 ^ exponent`.  The reals that round to it form an interval
around it, whose ends belong to it when the significand is even.  A decimal with its last digit at
`10 ^ p` lies in the interval just if one of the two neighbours of the number on the grid of
multiples of `10 ^ p` does, so the grids are tried from coarse to fine.
-/

namespace ImplicitCurves.Decimal

/-- The sign bit of a double. -/
def isNegative (x : Float) : Bool :=
  x.toBits.toNat / Nat.pow 2 63 = 1

/-- The magnitude of a finite double, `significand * 2 ^ exponent`. -/
structure Binary where
  significand : Nat
  exponent : Int
  /-- Whether the next smaller double is only half as far away as the next larger one. -/
  narrowBelow : Bool
deriving DecidableEq, Repr

/-- The significand and exponent of a finite double. -/
def Binary.ofFloat (x : Float) : Binary :=
  let bits : Nat := x.toBits.toNat
  let field : Nat := bits / Nat.pow 2 52 % Nat.pow 2 11
  let fraction : Nat := bits % Nat.pow 2 52
  if field = 0 then ⟨fraction, -1074, false⟩
  else ⟨Nat.pow 2 52 + fraction, (field : Int) - 1075, fraction = 0 && 1 < field⟩

/-- The reals from `low / scale` to `high / scale`, with the point `middle / scale` in it that is
to be written. -/
structure Interval where
  low : Nat
  middle : Nat
  high : Nat
  scale : Nat
  /-- Whether both ends belong to the interval. -/
  closed : Bool
deriving DecidableEq, Repr

/-- The reals that round to a positive double. -/
def Binary.rounding (b : Binary) : Interval :=
  let unit := Nat.pow 2 (b.exponent - 2).toNat
  let below := if b.narrowBelow then 1 else 2
  { low := (4 * b.significand - below) * unit
    middle := 4 * b.significand * unit
    high := (4 * b.significand + 2) * unit
    scale := Nat.pow 2 (2 - b.exponent).toNat
    closed := b.significand % 2 = 0 }

/-- The interval in units of `10 ^ p`. -/
def Interval.inUnits (i : Interval) (p : Int) : Interval :=
  let factor := Nat.pow 10 (-p).toNat
  { i with
    low := i.low * factor
    middle := i.middle * factor
    high := i.high * factor
    scale := i.scale * Nat.pow 10 p.toNat }

/-- Whether the natural number lies in the interval. -/
def Interval.contains (i : Interval) (n : Nat) : Bool :=
  let x := n * i.scale
  if i.closed then i.low ≤ x && x ≤ i.high else i.low < x && x < i.high

/-- The natural number in the interval that is nearest to its middle, as far as one of the two
neighbours of the middle is in it.  Of two that are equally near the larger one is taken. -/
def Interval.nearestNatural? (i : Interval) : Option Nat :=
  let down := i.middle / i.scale
  let up := down + 1
  match i.contains down, i.contains up with
  | true, true => some (if 2 * (i.middle % i.scale) < i.scale then down else up)
  | true, false => some down
  | false, true => some up
  | false, false => none

/-- Tries the grids `10 ^ p`, `10 ^ (p - 1)` and so on, `tries` of them in all, and gives the first
hit as a natural number with its grid. -/
def Interval.firstHit (i : Interval) : (tries : Nat) → (p : Int) → Nat × Int
  | 0, p => (i.middle / i.scale, p)
  | tries + 1, p =>
    match (i.inUnits p).nearestNatural? with
    | some n => (n, p)
    | none => i.firstHit tries (p - 1)

/-- A power of ten that is larger than the magnitude, and not by much: `log10 2` is a bit less than
`30103 / 100000`. -/
def Binary.decimalBound (b : Binary) : Int :=
  Int.fdiv ((b.exponent + b.significand.log2 + 1) * 30103) 100000 + 1

/-- The shortest decimal that reads back as a positive double, as a number and the power of ten
that it is multiplied with.  Seventeen digits always suffice. -/
def Binary.shortest (b : Binary) : Nat × Int :=
  b.rounding.firstHit 20 b.decimalBound

/-- The digits of a natural number. -/
def digits (n : Nat) : List Char :=
  Nat.toDigits 10 n

/-- Writes `n * 10 ^ p` without an exponent. -/
def positional (n : Nat) (p : Int) : List Char :=
  let ds := digits n
  let places := (-p).toNat
  if places = 0 then ds ++ List.replicate p.toNat '0'
  else if places < ds.length then
    ds.take (ds.length - places) ++ '.' :: ds.drop (ds.length - places)
  else '0' :: '.' :: List.replicate (places - ds.length) '0' ++ ds

/-- The text of a number that is not negative. -/
def magnitudeText (x : Float) : List Char :=
  if x.isNaN then "NaN".toList
  else if x.isInf then "inf".toList
  else
    let b := Binary.ofFloat x
    if b.significand = 0 then ['0']
    else
      let (n, p) := b.shortest
      positional n p

/-- The text of a number: the shortest decimal that reads back as it, without an exponent.  The
sign of zero is written, that of NaN is not. -/
def text (x : Float) : List Char :=
  if isNegative x && !x.isNaN then '-' :: magnitudeText x else magnitudeText x

end ImplicitCurves.Decimal

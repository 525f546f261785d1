import ImplicitCurves.UnaryFunction

/-!
# Scalars

The values that expressions have.  Programs run on doubles; everything that evaluates, searches or
samples is written against this interface, so that it can also be read over other values, such as
exact rationals with an undefined one.
-/

namespace ImplicitCurves

/-- Values with the operations that expressions are made of.  Numerals are doubles, and `ofFloat`
gives their value. -/
class Scalar (α : Type) extends Add α, Sub α, Mul α, Div α where
  ofFloat : Float → α
  power : α → α → α
  apply : UnaryFunction → α → α

namespace Scalar

variable {α : Type} [Scalar α]

/-- The value of everything that has none, such as a variable without a value. -/
def undefined : α := ofFloat (0 / 0)

/-- The value of the numeral `0`. -/
def zero : α := ofFloat 0

/-- The value of the numeral `1`, which a product starts from. -/
def one : α := ofFloat 1

/-- What the product of an item that is subtracted starts from. -/
def negativeOne : α := ofFloat (-1)

/-- What a sum starts from.  Over doubles negative zero is the neutral element of addition. -/
def emptySum : α := ofFloat (-0.0)

/-- The logarithm to any base, as a quotient of natural logarithms. -/
def logarithm (base antilog : α) : α :=
  apply .ln antilog / apply .ln base

end Scalar

/-- Counts are kept below this number. -/
def countLimit : Nat := Nat.pow 2 64

/-- Scalars that can be compared, and converted from and to counts. -/
class OrderedScalar (α : Type) extends Scalar α where
  /-- Whether the first is less than the second. -/
  less : α → α → Bool
  /-- Whether the first is less than or equal to the second. -/
  atMost : α → α → Bool
  /-- Whether two values are equal as numbers. -/
  same : α → α → Bool
  isFinite : α → Bool
  magnitude : α → α
  /-- The value of a count. -/
  ofCount : Nat → α
  /-- The count that is left when the places after the point are dropped.  What is below zero or
  undefined gives zero. -/
  toCount : α → Nat
  /-- The number of points that a grid from `low` to `high` has at most. -/
  gridSize : (low high step : α) → Nat

namespace OrderedScalar

variable {α : Type} [OrderedScalar α]

/-- Whether the value is finite and greater than zero. -/
def isPositive (x : α) : Bool :=
  isFinite x && less Scalar.zero x

/-- Whether the value equals zero, of either sign. -/
def isZero (x : α) : Bool :=
  same x Scalar.zero

/-- Whether the value is less than zero.  An undefined value is not. -/
def isBelowZero (x : α) : Bool :=
  less x Scalar.zero

/-- The smaller of two values, the first if they are equal. -/
def smaller (x y : α) : α :=
  if less y x then y else x

/-- The larger of two values, the first if they are equal. -/
def larger (x y : α) : α :=
  if less x y then y else x

end OrderedScalar

instance : Scalar Float where
  ofFloat x := x
  power := Float.pow
  apply := UnaryFunction.value

instance : OrderedScalar Float where
  less x y := decide (x < y)
  atMost x y := decide (x ≤ y)
  same x y := x == y
  isFinite := Float.isFinite
  magnitude := Float.abs
  ofCount n := (UInt64.ofNat n).toFloat
  toCount x := x.toUInt64.toNat
  gridSize _ _ _ := countLimit

end ImplicitCurves

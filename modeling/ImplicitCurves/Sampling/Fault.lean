import ImplicitCurves.Decimal.Shortest

/-!
# Sampling faults

The axes of the plane, and what can be wrong with the numbers that a root search or a sweep is
given.
-/

namespace ImplicitCurves

/-- A coordinate axis. -/
inductive Axis where
  | x
  | y
deriving DecidableEq, Repr

namespace Axis

/-- The variable of the axis. -/
def name : Axis → Char
  | x => 'x'
  | y => 'y'

/-- The other axis. -/
def cross : Axis → Axis
  | x => y
  | y => x

end Axis

/-- Why numbers cannot be used for searching or sampling. -/
inductive SamplingFault (α : Type) where
  /-- The granularity is not a positive number. -/
  | granularity (value : α)
  /-- The maximum gap is not a positive number. -/
  | maxGap (value : α)
  /-- A bound of the range is infinite or undefined. -/
  | unboundedRange (low high : α)
  /-- The range ends before it starts. -/
  | emptyRange (low high : α)
  /-- The step is not a positive number. -/
  | step (value : α)
  /-- The padding is not a number from zero on. -/
  | padding (value : α)
  /-- A range of the viewport is not finite, or empty. -/
  | viewport (axis : Axis) (low high : α)
deriving DecidableEq

namespace SamplingFault

/-- The text of a number. -/
private def number (x : Float) : String :=
  String.ofList (Decimal.text x)

/-- The text of a range. -/
private def range (low high : Float) : String :=
  "[" ++ number low ++ ", " ++ number high ++ "]"

/-- The fault in words. -/
def reason : SamplingFault Float → String
  | granularity x => "the granularity must be a positive number, but it is " ++ number x
  | maxGap x => "the maximum gap must be a positive number, but it is " ++ number x
  | unboundedRange low high => "the range " ++ range low high ++ " must have finite bounds"
  | emptyRange low high => "the range " ++ range low high ++ " is empty"
  | step x => "the step must be a positive number, but it is " ++ number x
  | padding x => "the padding must be a non-negative number, but it is " ++ number x
  | viewport axis low high =>
    "the " ++ String.singleton axis.name ++ " range of the viewport, " ++ range low high ++
      ", must be finite and non-empty"

end SamplingFault

end ImplicitCurves

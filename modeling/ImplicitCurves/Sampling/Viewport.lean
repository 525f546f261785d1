import ImplicitCurves.Decimal.Numeral
import ImplicitCurves.Sampling.Fault
import ImplicitCurves.Scalar
import ImplicitCurves.Text.Blank

/-!
# Viewports

The part of the plane that is looked at.
-/

namespace ImplicitCurves

/-- The bounds of the visible part of the plane. -/
structure Viewport (α : Type) where
  lowX : α
  highX : α
  lowY : α
  highY : α

namespace Viewport

variable {α : Type}

/-- From minus ten to ten on both axes. -/
def default : Viewport Float :=
  ⟨-10, 10, -10, 10⟩

/-- The bounds on an axis. -/
def range (v : Viewport α) : Axis → α × α
  | .x => (v.lowX, v.highX)
  | .y => (v.lowY, v.highY)

/-- What is wrong with the bounds on an axis, if anything. -/
def axisFault? [OrderedScalar α] (v : Viewport α) (axis : Axis) : Option (SamplingFault α) :=
  let (low, high) := v.range axis
  if OrderedScalar.isFinite low && OrderedScalar.isFinite high && OrderedScalar.less low high then
    none
  else some (.viewport axis low high)

/-- What is wrong with a viewport, if anything.  Both ranges have to be finite and not empty. -/
def fault? [OrderedScalar α] (v : Viewport α) : Option (SamplingFault α) :=
  (v.axisFault? .x).or (v.axisFault? .y)

/-- The parts of a text between commas. -/
def splitCommas : List Char → List (List Char)
  | [] => [[]]
  | c :: cs =>
    match splitCommas cs with
    | [] => [[c]]
    | part :: parts => if c = ',' then [] :: part :: parts else (c :: part) :: parts

/-- Reads a finite number, with blanks around it. -/
def readBound (cs : List Char) : Option Float :=
  (Decimal.read (Text.trim cs)).filter Float.isFinite

/-- Reads a viewport written as four numbers between commas: low and high `x`, low and high `y`. -/
def read (cs : List Char) : Option (Viewport Float) :=
  match (splitCommas cs).mapM readBound with
  | some [lowX, highX, lowY, highY] =>
    if lowX < highX ∧ lowY < highY then some ⟨lowX, highX, lowY, highY⟩ else none
  | _ => none

end Viewport

end ImplicitCurves

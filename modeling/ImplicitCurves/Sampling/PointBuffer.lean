import ImplicitCurves.Sampling.Fault
import ImplicitCurves.Scalar

/-!
# Point buffers

The points that a sweep finds, in a flat array of numbers.  Each record is a count, a coordinate on
the axis that is swept, and that many coordinates on the other axis.
-/

namespace ImplicitCurves

/-- Records of points for a sweep along an axis. -/
structure PointBuffer (α : Type) where
  sweep : Axis
  data : Array α
deriving DecidableEq

namespace PointBuffer

variable {α : Type} [OrderedScalar α]

/-- The buffer without records. -/
def empty (sweep : Axis) : PointBuffer α :=
  ⟨sweep, #[]⟩

/-- Adds a record, unless there are no roots. -/
def push (b : PointBuffer α) (coordinate : α) (roots : List α) : PointBuffer α :=
  if roots.isEmpty then b
  else { b with
    data := b.data ++ OrderedScalar.ofCount roots.length :: coordinate :: roots }

/-- The records in a list of numbers.  A record whose count is too large takes all that is left; a
single number at the end is no record. -/
def recordsOf : List α → List (α × List α)
  | count :: coordinate :: rest =>
    let n := min (OrderedScalar.toCount count) rest.length
    (coordinate, rest.take n) :: recordsOf (rest.drop n)
  | _ => []
termination_by data => data.length
decreasing_by simp; omega

/-- The records: a coordinate on the axis that is swept, and the roots found there. -/
def records (b : PointBuffer α) : List (α × List α) :=
  recordsOf b.data.toList

/-- The number of records. -/
def length (b : PointBuffer α) : Nat :=
  b.records.length

/-- Whether there is no data. -/
def isEmpty (b : PointBuffer α) : Bool :=
  b.data.isEmpty

/-- The point of a root at a coordinate of the axis that is swept. -/
def point (sweep : Axis) (coordinate root : α) : α × α :=
  match sweep with
  | .x => (coordinate, root)
  | .y => (root, coordinate)

/-- All points, in the order of the records. -/
def points (b : PointBuffer α) : List (α × α) :=
  b.records.flatMap fun (coordinate, roots) => roots.map (point b.sweep coordinate)

end PointBuffer

end ImplicitCurves

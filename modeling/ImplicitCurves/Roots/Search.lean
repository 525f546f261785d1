import ImplicitCurves.Sampling.Fault
import ImplicitCurves.Scalar

/-!
# Searching roots

The roots of a function of one variable in a range.  The function is probed on a grid; a probe that
is zero is a root, and between two neighbouring probes of opposite signs a root is narrowed down by
bisection.  Each result comes with the arguments that the function was probed at, the latest first.
-/

namespace ImplicitCurves

variable {α : Type} [OrderedScalar α]

open OrderedScalar

/-- How a search is done. -/
structure RootOptions (α : Type) where
  /-- The distance of neighbouring probes.  Roots that are closer than that may be missed. -/
  granularity : α
  /-- A bracket that is narrower than this is not halved any more. -/
  maxGap : α

/-- A granularity of a tenth and a gap of a ten-thousandth. -/
def RootOptions.default : RootOptions Float :=
  ⟨0.1, 1e-4⟩

/-- What is wrong with searching a range, if anything. -/
def RootOptions.fault? (o : RootOptions α) (low high : α) : Option (SamplingFault α) :=
  if !isPositive o.granularity then some (.granularity o.granularity)
  else if !isPositive o.maxGap then some (.maxGap o.maxGap)
  else if !(isFinite low && isFinite high) then some (.unboundedRange low high)
  else if less high low then some (.emptyRange low high)
  else none

/-- A range with the values of the function at both ends. -/
structure Bracket (α : Type) where
  left : α
  right : α
  leftValue : α
  rightValue : α

namespace Bracket

/-- The middle of the range. -/
def middle (b : Bracket α) : α :=
  (b.left + b.right) / Scalar.ofFloat 2

/-- The distance of the values at the ends. -/
def drop (b : Bracket α) : α :=
  magnitude (b.leftValue - b.rightValue)

/-- The half of a bracket that still has values of both signs, given the value in the middle.  An
undefined value counts as positive. -/
def half (b : Bracket α) (rising : Bool) (value : α) : Bracket α :=
  if isBelowZero value = rising then { b with left := b.middle, leftValue := value }
  else { b with right := b.middle, rightValue := value }

end Bracket

/-- What bisection ends with: a point where the function is exactly zero, or a narrow bracket. -/
structure Narrowing (α : Type) where
  zero? : Option α
  bracket : Bracket α
  probes : List α

/-- Halves a bracket up to `tries` times, until it is narrower than the gap, or has no point inside,
or its middle is exactly zero. -/
def narrow (f : α → α) (maxGap : α) (rising : Bool) :
    (tries : Nat) → Bracket α → List α → Narrowing α
  | 0, b, probes => ⟨none, b, probes⟩
  | tries + 1, b, probes =>
    let middle := b.middle
    if less (b.right - b.left) maxGap then ⟨none, b, probes⟩
    else if atMost middle b.left || atMost b.right middle then ⟨none, b, probes⟩
    else
      let value := f middle
      if isZero value then ⟨some middle, b, middle :: probes⟩
      else narrow f maxGap rising tries (b.half rising value) (middle :: probes)

/-- The most halvings of a single bracket. -/
def maxHalvings : Nat := 200

/-- The root in a bracket with values of opposite signs.  If the values at the ends of the narrowed
bracket are not closer together than before, the change of sign is at a pole, and there is no
root. -/
def bisect (f : α → α) (maxGap : α) (b : Bracket α) (probes : List α) : Option α × List α :=
  let n := narrow f maxGap (less Scalar.zero b.rightValue) maxHalvings b probes
  match n.zero? with
  | some root => (some root, n.probes)
  | none => (if less n.bracket.drop b.drop then some n.bracket.middle else none, n.probes)

/-- How far a search has come: roots and probes, the latest first, and the last probe on the grid
with its value, if that is finite. -/
structure RootSearch (α : Type) where
  roots : List α
  probes : List α
  previous : Option (α × α)

/-- The start of a search. -/
def RootSearch.initial : RootSearch α :=
  ⟨[], [], none⟩

/-- Probes the function at the next point of the grid.  A value that is not finite breaks the search
off, so that nothing is looked for on either side of it. -/
def RootSearch.visit (f : α → α) (maxGap : α) (s : RootSearch α) (x : α) : RootSearch α :=
  let y := f x
  let probes := x :: s.probes
  if !isFinite y then { s with probes, previous := none }
  else if isZero y then ⟨x :: s.roots, probes, some (x, y)⟩
  else
    match s.previous with
    | none => ⟨s.roots, probes, some (x, y)⟩
    | some (x', y') =>
      if !isZero y' && isBelowZero y' != isBelowZero y then
        let (root, probes) := bisect f maxGap ⟨x', x, y', y⟩ probes
        ⟨root.toList ++ s.roots, probes, some (x, y)⟩
      else ⟨s.roots, probes, some (x, y)⟩

/-- The point of a grid with the given index. -/
def gridPoint (low step : α) (index : Nat) : α :=
  low + ofCount index * step

/-- Visits the points of the grid from the given index on, up to the end of the range. -/
def RootSearch.scan (f : α → α) (o : RootOptions α) (low high : α) (index : Nat)
    (s : RootSearch α) : RootSearch α :=
  if index < gridSize low high o.granularity then
    let x := gridPoint low o.granularity index
    if less high x then s else scan f o low high (index + 1) (s.visit f o.maxGap x)
  else s
termination_by gridSize low high o.granularity - index

/-- The roots of a function in a range, in ascending order, and the probes, the latest first. -/
def searchRoots (f : α → α) (low high : α) (o : RootOptions α) :
    Except (SamplingFault α) (List α × List α) :=
  match o.fault? low high with
  | some fault => .error fault
  | none =>
    let s := RootSearch.initial.scan f o low high 0
    .ok (s.roots.reverse, s.probes)

/-- The roots of a function in a range, in ascending order.  There may be none. -/
def findRoots (f : α → α) (low high : α) (o : RootOptions α) :
    Except (SamplingFault α) (List α) :=
  (searchRoots f low high o).map (·.1)

end ImplicitCurves

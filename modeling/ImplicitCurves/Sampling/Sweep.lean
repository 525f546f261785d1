import ImplicitCurves.Program.Machine
import ImplicitCurves.Roots.Search
import ImplicitCurves.Roots.Equation
import ImplicitCurves.Sampling.Options
import ImplicitCurves.Sampling.Parallel
import ImplicitCurves.Sampling.PointBuffer

/-!
# Sweeps

A sweep goes along one axis of the viewport and finds, at each sample, where a program is zero along
the other axis.  Coarse samples are one step apart, from one step before the viewport to one step
past it.  Between two neighbours more samples are taken, which are searched around the roots of the
neighbours first.
-/

namespace ImplicitCurves

variable {α : Type} [OrderedScalar α]

/-- What a sweep searches: a program, the values of its variables, the axis that is swept, and how
roots are searched. -/
structure Sweep (α : Type) where
  program : Program
  environment : Environment α
  axis : Axis
  options : RootOptions α

/-- A coordinate on the axis that is swept, and the roots found there. -/
abbrev Sample (α : Type) := α × List α

namespace Sweep

/-- The roots along the other axis at a coordinate of the axis that is swept.  There are none in a
range that ends before it starts. -/
def rootsAt (s : Sweep α) (coordinate : α) (range : α × α) :
    Except (SamplingFault α) (List α) :=
  if OrderedScalar.less range.2 range.1 then .ok []
  else
    let p := s.program
    let slots := p.setVariable (p.bind s.environment) s.axis.name coordinate
    findRoots (p.asFunction slots (p.slot s.axis.cross.name)) range.1 range.2 s.options

/-- The least and greatest root of two neighbouring samples, if both have roots. -/
def rootBounds : List α → List α → Option (α × α)
  | r :: rs, s :: ss =>
    some ((rs ++ s :: ss).foldl
      (fun b x => (OrderedScalar.smaller b.1 x, OrderedScalar.larger b.2 x)) (r, r))
  | _, _ => none

/-- The roots at a sample between two coarse ones.  With roots on both sides, the range of those is
searched with the padding around it; if nothing is found there, what is above it and then what is
below it.  Otherwise all of the range across is searched. -/
def refinedRoots (s : Sweep α) (padding : α) (cross : α × α) (bounds : Option (α × α))
    (coordinate : α) : Except (SamplingFault α) (List α) :=
  match bounds with
  | none => s.rootsAt coordinate cross
  | some (least, greatest) => do
    let roots ← s.rootsAt coordinate (least - padding, greatest + padding)
    if roots.isEmpty then
      let above ← s.rootsAt coordinate (greatest - padding, cross.2)
      let below ← s.rootsAt coordinate (cross.1, least + padding)
      return above ++ below
    else return roots

/-- The coordinate of the sample with index `j` after the coarse sample with index `i`. -/
def refinedCoordinate (low step : α) (refinements i j : Nat) : α :=
  gridPoint low step i +
    step * OrderedScalar.ofCount (j + 1) / OrderedScalar.ofCount (refinements + 1)

/-- The coordinates of the coarse samples from the given index on, up to `high`, behind those in
`found`. -/
def coarseCoordinates (low high step : α) (index : Nat) (found : Array α) : Array α :=
  if index < OrderedScalar.gridSize low high step then
    let x := gridPoint low step index
    if OrderedScalar.atMost x high then
      coarseCoordinates low high step (index + 1) (found.push x)
    else found
  else found
termination_by OrderedScalar.gridSize low high step - index

/-- The samples between the coarse sample with index `i` and the next one. -/
def refinedSamples (s : Sweep α) (o : SampleOptions α) (low : α) (cross : α × α) (i : Nat)
    (roots next : List α) : Except (SamplingFault α) (List (Sample α)) :=
  (List.range o.refinements).mapM fun j => do
    let coordinate := refinedCoordinate low o.step o.refinements i j
    return (coordinate, ← s.refinedRoots o.padding cross (rootBounds roots next) coordinate)

/-- The samples behind each coarse sample, from the one with index `i` on, up to the next coarse
one. -/
def refinements (s : Sweep α) (o : SampleOptions α) (low : α) (cross : α × α) (i : Nat) :
    List (Sample α) → List (Except (SamplingFault α) (List (Sample α)))
  | coarse :: next :: rest =>
    s.refinedSamples o low cross i coarse.2 next.2 ::
      s.refinements o low cross (i + 1) (next :: rest)
  | _ => []

/-- Each coarse sample followed by those behind it. -/
def interleave : List (Sample α) → List (List (Sample α)) → List (Sample α)
  | coarse :: rest, refined :: others => coarse :: refined ++ interleave rest others
  | coarse, _ => coarse

end Sweep

/-- A range that is wider by a step at both ends. -/
def widened (range : α × α) (step : α) : α × α :=
  (range.1 - step, range.2 + step)

/-- All samples of a sweep in order, also those without roots. -/
def sweepSamples (p : Program) (env : Environment α) (axis : Axis) (v : Viewport α)
    (o : SampleOptions α) (schedule : Schedule := .inOrder) :
    Except (SamplingFault α) (List (Sample α)) := do
  let (low, high) := widened (v.range axis) o.step
  let cross := widened (v.range axis.cross) o.step
  let s : Sweep α := ⟨p, env, axis, o.rootOptions⟩
  let coordinates := (Sweep.coarseCoordinates low high o.step 0 #[]).toList
  let coarse ← schedule.collect axis .coarse
    (coordinates.map fun x => (s.rootsAt x cross).map (x, ·))
  let refined ← schedule.collect axis .refined (s.refinements o low cross 0 coarse)
  return Sweep.interleave coarse refined

/-- Samples where a program is zero along an axis of a viewport. -/
def sample (p : Program) (env : Environment α) (axis : Axis) (v : Viewport α)
    (o : SampleOptions α) (schedule : Schedule := .inOrder) :
    Except (SamplingFault α) (PointBuffer α) :=
  match o.fault?.or v.fault? with
  | some fault => .error fault
  | none => do
    let samples ← sweepSamples p env axis v o schedule
    return samples.foldl (fun b x => b.push x.1 x.2) (.empty axis)

end ImplicitCurves

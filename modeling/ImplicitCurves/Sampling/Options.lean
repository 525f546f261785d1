import ImplicitCurves.Roots.Search
import ImplicitCurves.Sampling.Viewport

/-!
# Sampling options

How densely a sweep samples a curve, and how precisely.
-/

namespace ImplicitCurves

/-- How a sweep is done, in units of the plane. -/
structure SampleOptions (α : Type) where
  /-- The distance of neighbouring coarse samples, which is also how far the sweep and its searches
  go past the viewport. -/
  step : α
  /-- The granularity of each root search. -/
  granularity : α
  /-- The gap of each root search. -/
  maxGap : α
  /-- The number of samples between two neighbouring coarse samples. -/
  refinements : Nat
  /-- How far past the roots of the neighbouring coarse samples such a sample is searched. -/
  padding : α

namespace SampleOptions

/-- The smallest count that is not less than a number, kept between zero and the largest count below
`2 ^ 64`; zero if the number is undefined. -/
def ceilCount (x : Float) : Nat :=
  let n := x.toUInt64.toNat
  if n + 1 < countLimit ∧ OrderedScalar.less (OrderedScalar.ofCount n) x then n + 1 else n

/-- The options for a canvas of the given size in pixels: a step of a fiftieth of the mean of width
and height, one sample in between for every two pixels of a step, a probe for every four pixels,
roots up to half a pixel, and twenty pixels of padding. -/
def forCanvas (v : Viewport Float) (width height : Float) : SampleOptions Float :=
  let stepPixels := (width + height) / 2 / 50
  let unitsPerPixel := (v.highX - v.lowX) / width
  { step := stepPixels * unitsPerPixel
    granularity := 4 * unitsPerPixel
    maxGap := 0.5 * unitsPerPixel
    refinements := ceilCount (stepPixels / 2)
    padding := 20 * unitsPerPixel }

/-- The options for the default viewport on a canvas of a thousand by a thousand pixels. -/
def default : SampleOptions Float :=
  forCanvas Viewport.default 1000 1000

variable {α : Type}

/-- The options of each root search. -/
def rootOptions (o : SampleOptions α) : RootOptions α :=
  ⟨o.granularity, o.maxGap⟩

/-- What is wrong with the options, if anything. -/
def fault? [OrderedScalar α] (o : SampleOptions α) : Option (SamplingFault α) :=
  if !OrderedScalar.isPositive o.step then some (.step o.step)
  else if !(OrderedScalar.isFinite o.padding && OrderedScalar.atMost Scalar.zero o.padding) then
    some (.padding o.padding)
  else o.rootOptions.fault? Scalar.zero Scalar.zero

end SampleOptions

end ImplicitCurves

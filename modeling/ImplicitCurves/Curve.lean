import ImplicitCurves.Definitions
import ImplicitCurves.Parser.Source
import ImplicitCurves.Program.Compiler
import ImplicitCurves.Sampling.Sweep

/-!
# Curves

A curve is the set of points of the plane where an equation in `x` and `y` holds.  It is prepared
from a text and the definitions at hand, and can then be sampled in a viewport.
-/

namespace ImplicitCurves

/-- A curve that is ready to be sampled. -/
structure Curve where
  /-- The equation, formed, with the defined variables replaced and its calls linked. -/
  equation : Equation
  /-- The program of the equation. -/
  program : Program
  /-- Values for the variables that linked functions read. -/
  environment : Environment Float
  usesX : Bool
  usesY : Bool

/-- The spans of the tokens that are the given letter and have a token after them, or none, of which
`followed` holds. -/
def letterSpans (name : Char) (followed : Option TokenKind → Bool) : List Token → List Span
  | [] => []
  | t :: ts =>
    let rest := letterSpans name followed ts
    if t.kind = .letter name ∧ followed (ts.head?.map (·.kind)) then t.span :: rest else rest

namespace Curve

/-- The equation that a text stands for.  A text without an equals sign gives the value of `y`,
which it must not use itself. -/
def readEquation (source : List Char) (tokens : List Token) : Except Error Equation :=
  if Statement.hasAssign tokens then parse Equation source
  else do
    let e ← parse Expression source
    if e.allVariables.contains 'y' then
      .error ⟨.curveMentionsY, letterSpans 'y' (fun _ => true) tokens⟩
    else return .between (.ofFactor (.variable 'y' none)) e

/-- Whether a variable of a curve has a value, or gets one by sampling. -/
def isSupported (d : Definitions) (name : Char) : Bool :=
  name = 'x' || name = 'y' || d.values.contains name

/-- Prepares the curve that a text stands for. -/
def ofText (source : List Char) (d : Definitions) : Except Error Curve := do
  let tokens ← tokenize source
  let equation ← readEquation source tokens
  let equation ← (equation.substitute d.bindings).linked d.functions
  match equation.functions.find? fun key => !d.functions.contains key with
  | some key =>
    .error ⟨.undefinedFunction key, letterSpans key.name (· = some .openParen) tokens⟩
  | none =>
    let names := equation.freeVariablesLinked
    match names.find? fun name => !isSupported d name with
    | some name =>
      .error ⟨.unsupportedVariable name, letterSpans name (fun _ => true) tokens⟩
    | none =>
      let equation := equation.form
      return {
        equation
        program := equation.program
        environment := d.values
        usesX := names.contains 'x'
        usesY := names.contains 'y' }

/-- A sweep along an axis, which finds nothing and is left out unless the curve uses the other
axis. -/
def sweep (c : Curve) (axis : Axis) (needed : Bool) (v : Viewport Float)
    (o : SampleOptions Float) (schedule : Schedule := .inOrder) :
    Except Error (PointBuffer Float) :=
  if needed then
    (ImplicitCurves.sample c.program c.environment axis v o schedule).mapError Error.ofFault
  else .ok (.empty axis)

/-- Samples a curve in a viewport: the sweep along `x`, if the curve uses `y`, and the sweep along
`y`, if the curve uses `x`. -/
def sample (c : Curve) (v : Viewport Float) (o : SampleOptions Float)
    (schedule : Schedule := .inOrder) : Except Error (PointBuffer Float × PointBuffer Float) := do
  let xSweep ← c.sweep .x c.usesY v o schedule
  let ySweep ← c.sweep .y c.usesX v o schedule
  return (xSweep, ySweep)

end Curve

end ImplicitCurves

import ImplicitCurves.Curve
import ImplicitCurves.Program.Listing
import ImplicitCurves.Roots.Equation

/-!
# Sessions

A session executes lines one after another.  A line is a command, a definition, or an expression or
equation that is answered with its value or its formed equation.  Definitions are remembered, and no
function can be defined in terms of itself.
-/

namespace ImplicitCurves

/-- The definitions of the user, and the viewport that curves are sampled in. -/
structure Session where
  definitions : Definitions
  viewport : Viewport Float

namespace Session

/-- A session without definitions. -/
def start (viewport : Viewport Float) : Session :=
  ⟨.empty, viewport⟩

/-- The number of bytes of the blanks in front of a line. -/
def indentation (line : List Char) : Nat :=
  Text.byteLength line - Text.byteLength (Text.trimStart line)

/-- The arguments of a command and their offset in the line, if the line starts with the word of the
command and then ends or goes on with a blank. -/
def stripCommand (command : Command) (line : List Char) : Option (Nat × List Char) :=
  let word := command.word.toList
  let text := Text.trimStart line
  if word.isPrefixOf text then
    let rest := text.drop word.length
    if rest.isEmpty || rest.head?.any Text.isBlank then
      let arguments := Text.trimStart rest
      some (Text.byteLength line - Text.byteLength arguments, Text.trimEnd arguments)
    else none
  else none

/-- Splits a range of two numbers off the end of the arguments, if there is one. -/
def splitRange (arguments : List Char) : List Char × Option (Float × Float) :=
  let range := do
    let (head, high) ← Text.splitAtLastBlank arguments
    let (equation, low) ← Text.splitAtLastBlank (Text.trimEnd head)
    return (Text.trimEnd equation, (← Decimal.read low, ← Decimal.read high))
  match range with
  | some (equation, range) => (equation, some range)
  | none => (arguments, none)

/-- The error of a text at an offset of a line, as an error of the line.  An error without a place
is about all of the text. -/
def relocate (offset : Nat) (text : List Char) (error : Error) : Error :=
  if error.spans.isEmpty then
    { error with spans := [⟨offset, offset + Text.byteLength text⟩] }
  else error.shift offset

/-- The error of a command that is used wrongly. -/
def wrongUsage (command : Command) (line : List Char) : Error :=
  ⟨.invalidArguments command,
    [⟨indentation line, Text.byteLength (Text.trimEnd line)⟩]⟩

/-- Solves an equation in a range, which is that of `x` in the viewport if none is given. -/
def roots (s : Session) (text : List Char) (range : Option (Float × Float)) :
    Except Error (List Char) := do
  let eq ← parse Equation text
  let eq ← (eq.substitute s.definitions.bindings).linked s.definitions.functions
  let (low, high) := range.getD (s.viewport.range .x)
  let found ← eq.findRoots s.definitions.values low high .default
  if found.isEmpty then
    return "no roots in [".toList ++ Decimal.text low ++ ", ".toList ++ Decimal.text high ++ [']']
  else return List.intercalate ", ".toList (found.map Decimal.text)

/-- The width and height, in pixels, of the canvas that a session samples for. -/
def canvasSize : Float := 1000

/-- How much a sweep found. -/
def sweepSummary (b : PointBuffer Float) : List Char :=
  (String.singleton b.sweep.name ++ "-sweep: " ++ toString b.length ++ " record(s), " ++
    toString b.points.length ++ " point(s)").toList

/-- Samples a curve and tells how much was found. -/
def sample (s : Session) (text : List Char) (schedule : Schedule := .inOrder) :
    Except Error (List Char) := do
  let c ← Curve.ofText text s.definitions
  let (xSweep, ySweep) ←
    c.sample s.viewport (.forCanvas s.viewport canvasSize canvasSize) schedule
  return c.equation.text ++ '\n' :: sweepSummary xSweep ++ '\n' :: sweepSummary ySweep

/-- Lists the definitions, one in a line. -/
def listDefinitions (s : Session) : List Char :=
  match s.definitions.texts with
  | [] => "no definitions".toList
  | texts => List.intercalate ['\n'] texts

/-- The program of an expression or a formed equation; none for a definition. -/
def assemble (s : Session) (text : List Char) : Except Error (Option Program) := do
  match ← parse Statement text with
  | .expression e => return some (← e.linked s.definitions.functions).program
  | .equation eq => return some (← eq.form.linked s.definitions.functions).program
  | .variable _ | .function _ => return none

/-- The text of a program, without the line feed at its end. -/
def listing (p : Program) : List Char :=
  Text.trimEnd p.text.toList

/-- Fails if a new definition would be defined in terms of itself. -/
def checkRecursion (s : Session) (f : FunctionDefinition) : Except Error Unit := do
  let probe := Expression.ofFactor (.call f.name (f.parameters.map fun _ => .zero) .unlinked)
  let _ ← probe.linked (s.definitions.functions.insert f)

/-- Executes a statement: the answer, and the session after it. -/
def statement (s : Session) (text : List Char) : Except Error (List Char × Session) := do
  match ← parse Statement text with
  | .variable v =>
    return (v.text, { s with definitions := s.definitions.defineVariable v })
  | .function f =>
    s.checkRecursion f
    return (f.text, { s with definitions := s.definitions.defineFunction f })
  | .expression e =>
    let e ← e.linked s.definitions.functions
    let value := e.program.eval s.definitions.values
    return (e.text ++ " = ".toList ++ Decimal.text value, s)
  | .equation eq => return (eq.form.text, s)

/-- Executes the command that a line starts with, if it starts with one.  No command changes the
session. -/
def command (s : Session) (line : List Char) (schedule : Schedule := .inOrder) :
    Option (Except Error (List Char)) :=
  match stripCommand .roots line with
  | some (offset, arguments) =>
    if arguments.isEmpty then some (.error (wrongUsage .roots line))
    else
      let (text, range) := splitRange arguments
      some ((s.roots text range).mapError (relocate offset text))
  | none =>
    match stripCommand .sample line with
    | some (offset, arguments) =>
      if arguments.isEmpty then some (.error (wrongUsage .sample line))
      else some ((s.sample arguments schedule).mapError (relocate offset arguments))
    | none =>
      match stripCommand .definitions line with
      | some _ => some (.ok s.listDefinitions)
      | none =>
        match stripCommand .listing line with
        | some (offset, arguments) =>
          if arguments.isEmpty then some (.error (wrongUsage .listing line))
          else
            match s.assemble arguments with
            | .error error => some (.error (relocate offset arguments error))
            | .ok none => some (.error (wrongUsage .listing line))
            | .ok (some p) => some (.ok (listing p))
        | none => none

/-- Executes a line: the answer or an error, and the session after it. -/
def execute (s : Session) (line : List Char) (schedule : Schedule := .inOrder) :
    Except Error (List Char) × Session :=
  match s.command line schedule with
  | some answer => (answer, s)
  | none =>
    let text := Text.trim line
    match s.statement text with
    | .ok (answer, s) => (.ok answer, s)
    | .error error => (.error (relocate (indentation line) text error), s)

/-- Executes lines one after another, each with a schedule of its own. -/
def executeAll (s : Session) (lines : List (List Char))
    (schedules : Nat → Schedule := fun _ => .inOrder) :
    List (Except Error (List Char)) × Session :=
  match lines with
  | [] => ([], s)
  | line :: lines =>
    let (answer, s) := s.execute line (schedules 0)
    let (answers, s) := executeAll s lines fun n => schedules (n + 1)
    (answer :: answers, s)

end Session

end ImplicitCurves

/-!
# Commands

The words that make a line of a session a command.
-/

namespace ImplicitCurves

/-- A command of a session. -/
inductive Command where
  /-- Solves an equation for its only variable without a value. -/
  | roots
  /-- Samples a curve. -/
  | sample
  /-- Lists the definitions. -/
  | definitions
  /-- Shows the program of an expression or equation. -/
  | listing
deriving DecidableEq, Repr

namespace Command

/-- The word that a line with the command starts with. -/
def word : Command → String
  | roots => "roots"
  | sample => "sample"
  | definitions => ":defs"
  | listing => ":asm"

/-- How the command is used. -/
def usage : Command → String
  | roots => "roots <equation> [min max]"
  | sample => "sample <curve>"
  | definitions => ":defs"
  | listing => ":asm <expression or equation>"

end Command

end ImplicitCurves

/-!
# Functions of one argument

The logarithms and trigonometric functions that the notation has commands for.
-/

namespace ImplicitCurves

/-- A logarithm, a trigonometric function, or the inverse of one. -/
inductive UnaryFunction where
  | ln | lg
  | sin | arcsin
  | cos | arccos
  | tan | arctan
  | csc | arccsc
  | sec | arcsec
  | cot | arccot
deriving DecidableEq, Repr

namespace UnaryFunction

/-- All functions of one argument. -/
def all : List UnaryFunction :=
  [ln, lg, sin, arcsin, cos, arccos, tan, arctan, csc, arccsc, sec, arcsec, cot, arccot]

/-- The plain name, without the backslash of a command. -/
def name : UnaryFunction → String
  | ln => "ln"
  | lg => "lg"
  | sin => "sin"
  | arcsin => "arcsin"
  | cos => "cos"
  | arccos => "arccos"
  | tan => "tan"
  | arctan => "arctan"
  | csc => "csc"
  | arccsc => "arccsc"
  | sec => "sec"
  | arcsec => "arcsec"
  | cot => "cot"
  | arccot => "arccot"

/-- The command that a function is written with.  Inverse functions are written with the exponent
`-1`. -/
def command : UnaryFunction → List Char
  | ln => "\\ln".toList
  | lg => "\\lg".toList
  | sin => "\\sin".toList
  | arcsin => "\\sin^\x7b-1\x7d".toList
  | cos => "\\cos".toList
  | arccos => "\\cos^\x7b-1\x7d".toList
  | tan => "\\tan".toList
  | arctan => "\\tan^\x7b-1\x7d".toList
  | csc => "\\csc".toList
  | arccsc => "\\csc^\x7b-1\x7d".toList
  | sec => "\\sec".toList
  | arcsec => "\\sec^\x7b-1\x7d".toList
  | cot => "\\cot".toList
  | arccot => "\\cot^\x7b-1\x7d".toList

/-- The value at a double.  Outside of the domain it is NaN or an infinity; the reciprocal functions
take the reciprocal of the value or of the argument. -/
def value : UnaryFunction → Float → Float
  | ln, x => x.log
  | lg, x => x.log10
  | sin, x => x.sin
  | arcsin, x => x.asin
  | cos, x => x.cos
  | arccos, x => x.acos
  | tan, x => x.tan
  | arctan, x => x.atan
  | csc, x => 1 / x.sin
  | arccsc, x => (1 / x).asin
  | sec, x => 1 / x.cos
  | arcsec, x => (1 / x).acos
  | cot, x => 1 / x.tan
  | arccot, x => (1 / x).atan

end UnaryFunction

end ImplicitCurves

import ImplicitCurves.FunctionKey
import ImplicitCurves.UnaryFunction

/-!
# Expression trees

An expression is a sum of signed items, an item a product of factors, and a factor a number, a
variable, or an operation on expressions.  A call of a user function can be linked to the definition
that it stands for; the body of that definition is linked in its turn, so a linked tree needs no
table of functions to be evaluated.
-/

namespace ImplicitCurves

/-- The constants that have a name. -/
inductive NamedConstant where
  /-- Euler's number. -/
  | e
  /-- The ratio of the circumference of a circle to its diameter. -/
  | pi
deriving DecidableEq, Repr

/-- The double nearest to the constant. -/
def NamedConstant.value : NamedConstant → Float
  | e => Float.ofBits 0x4005BF0A8B145769
  | pi => Float.ofBits 0x400921FB54442D18

mutual

/-- A sum of items. -/
structure Expression where
  items : List Item

/-- A product of factors that is added (`positive`) or subtracted. -/
structure Item where
  positive : Bool
  factors : List Factor

/-- A component of a product. -/
inductive Factor where
  | number (value : Float)
  | constant (c : NamedConstant)
  /-- A variable.  A value that is bound to it in place goes before any other value. -/
  | variable (name : Char) (bound : Option Float)
  | fraction (numerator denominator : Expression)
  | power (base exponent : Expression)
  | bracket (inner : Expression)
  | unary (f : UnaryFunction) (argument : Expression)
  | logarithm (base antilog : Expression)
  | call (name : Char) (arguments : List Expression) (link : Link)

/-- What a call is linked to. -/
inductive Link where
  | unlinked
  /-- A definition with a linked body.  Links made in different passes are kept apart by the number
  of the pass. -/
  | linked (pass : Nat) (definition : FunctionDefinition)

/-- A function with its parameters and body.  `globals` are the variables of the body that are not
parameters and have no value bound in place. -/
structure FunctionDefinition where
  name : Char
  parameters : List Char
  body : Expression
  globals : List Char

end

instance : Inhabited Expression := ⟨⟨[]⟩⟩

instance : Inhabited Item := ⟨⟨true, []⟩⟩

instance : Inhabited Factor := ⟨.number 0⟩

namespace Expression

/-- The expression that consists of one factor. -/
def ofFactor (f : Factor) : Expression :=
  ⟨[⟨true, [f]⟩]⟩

/-- The expression that consists of one number. -/
def ofNumber (x : Float) : Expression :=
  ofFactor (.number x)

/-- The expression `0`. -/
def zero : Expression :=
  ofNumber 0

end Expression

namespace Factor

/-- One divided by a factor. -/
def reciprocal (f : Factor) : Factor :=
  .fraction (.ofNumber 1) (.ofFactor f)

/-- The expressions right inside a factor.  The body of a linked definition is not one of them. -/
def children : Factor → List Expression
  | .number _ | .constant _ | .variable _ _ => []
  | .fraction a b | .power a b | .logarithm a b => [a, b]
  | .bracket a | .unary _ a => [a]
  | .call _ arguments _ => arguments

end Factor

namespace FunctionDefinition

/-- The key of a function. -/
def key (d : FunctionDefinition) : FunctionKey :=
  ⟨d.name, d.parameters.length⟩

end FunctionDefinition

end ImplicitCurves

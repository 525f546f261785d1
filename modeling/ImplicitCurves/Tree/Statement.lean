import ImplicitCurves.Tree.Equation

/-!
# Statements

What a line of input can say: it gives a variable a value, defines a function, states an equation,
or is an expression.
-/

namespace ImplicitCurves

/-- The definition of a variable. -/
structure VariableDefinition where
  name : Char
  value : Float
deriving DecidableEq

/-- The text of a definition of a variable. -/
def VariableDefinition.text (d : VariableDefinition) : List Char :=
  d.name :: '=' :: Decimal.text d.value

/-- A line of input. -/
inductive Statement where
  | variable (d : VariableDefinition)
  | function (d : FunctionDefinition)
  | equation (eq : Equation)
  | expression (e : Expression)

/-- The text of a statement. -/
def Statement.text : Statement → List Char
  | «variable» d => d.text
  | function d => d.text
  | equation eq => eq.text
  | expression e => e.text

end ImplicitCurves

import ImplicitCurves.Environment
import ImplicitCurves.Tree

/-!
# Values of trees

The value of an expression in a scope.  Nothing fails: what has no value, such as a variable without
one or a call that is not linked, is undefined.
-/

namespace ImplicitCurves

variable {α : Type} [Scalar α]

/-- The value of a variable: the one bound to it in place, else the one of the scope. -/
def variableValue (scope : Scope α) (name : Char) : Option Float → α
  | some x => Scalar.ofFloat x
  | none => (scope.value? name).getD Scalar.undefined

mutual

/-- The value of an expression, its items added from left to right. -/
def Expression.value (scope : Scope α) : Expression → α
  | ⟨items⟩ => sumOfItems scope Scalar.emptySum items

/-- The values of items added to a sum, from left to right. -/
def sumOfItems (scope : Scope α) (sum : α) : List Item → α
  | [] => sum
  | i :: is => sumOfItems scope (sum + i.value scope) is

/-- The value of an item, its factors multiplied from left to right with one or minus one in
front. -/
def Item.value (scope : Scope α) : Item → α
  | ⟨positive, factors⟩ =>
    productOfFactors scope (if positive then Scalar.one else Scalar.negativeOne) factors

/-- A product multiplied with the values of factors, from left to right. -/
def productOfFactors (scope : Scope α) (product : α) : List Factor → α
  | [] => product
  | f :: fs => productOfFactors scope (product * f.value scope) fs

/-- The value of a factor. -/
def Factor.value (scope : Scope α) : Factor → α
  | .number x => Scalar.ofFloat x
  | .constant c => Scalar.ofFloat c.value
  | .variable name bound => variableValue scope name bound
  | .fraction a b => a.value scope / b.value scope
  | .power a b => Scalar.power (a.value scope) (b.value scope)
  | .bracket a => a.value scope
  | .unary f a => Scalar.apply f (a.value scope)
  | .logarithm base antilog => Scalar.logarithm (base.value scope) (antilog.value scope)
  | .call _ arguments link => link.value scope (valuesOfArguments scope arguments)

/-- The values of arguments, in order. -/
def valuesOfArguments (scope : Scope α) : List Expression → List α
  | [] => []
  | e :: es => e.value scope :: valuesOfArguments scope es

/-- The value of a call with the given arguments. -/
def Link.value (scope : Scope α) (arguments : List α) : Link → α
  | .unlinked => Scalar.undefined
  | .linked _ definition => definition.applied scope arguments

/-- The value of the body with the parameters bound to the arguments. -/
def FunctionDefinition.applied (scope : Scope α) (arguments : List α) : FunctionDefinition → α
  | ⟨_, parameters, body, _⟩ => body.value (scope.enter (parameters.zip arguments))

end

/-- The value of an expression in an environment. -/
def Expression.compute (e : Expression) (env : Environment α) : α :=
  e.value (Scope.outermost env)

end ImplicitCurves

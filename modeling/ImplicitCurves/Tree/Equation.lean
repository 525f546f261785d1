import ImplicitCurves.Tree.Inlining
import ImplicitCurves.Tree.Printer
import ImplicitCurves.Tree.Traversal
import ImplicitCurves.Tree.Value

/-!
# Equations

An equation states that two expressions are equal.  Forming it moves every item to the left-hand
side, so that the solutions are the zeros of that side.
-/

namespace ImplicitCurves

/-- Two sides that are equal.  `formed` says that every item has been moved to the left. -/
structure Equation where
  lhs : Expression
  rhs : Expression
  formed : Bool

namespace Equation

/-- The equation between two expressions. -/
def between (lhs rhs : Expression) : Equation :=
  ⟨lhs, rhs, false⟩

/-- The equation that an expression is zero. -/
def withZero (lhs : Expression) : Equation :=
  between lhs .zero

end Equation

/-- The item with its sign changed. -/
def Item.negated (i : Item) : Item :=
  ⟨!i.positive, i.factors⟩

namespace Equation

/-- Moves each item of the right-hand side to the left with its sign changed.  An equation that is
formed stays as it is. -/
def form (eq : Equation) : Equation :=
  if eq.formed then eq
  else ⟨⟨eq.lhs.items ++ eq.rhs.items.map Item.negated⟩, .zero, true⟩

/-- The text of an equation. -/
def text (eq : Equation) : List Char :=
  eq.lhs.text ++ '=' :: eq.rhs.text

/-- The difference of the two sides in an environment, which is zero where the equation holds. -/
def compute {α : Type} [Scalar α] (eq : Equation) (env : Environment α) : α :=
  eq.lhs.compute env - eq.rhs.compute env

/-- The equation with both sides changed. -/
def mapSides (change : Expression → Expression) (eq : Equation) : Equation :=
  { eq with lhs := change eq.lhs, rhs := change eq.rhs }

/-- The names of the variables of both sides, in order of first appearance. -/
def allVariables (eq : Equation) : List Char :=
  addAllNew eq.lhs.allVariables eq.rhs.allVariables

/-- The names of the variables of both sides that have no value bound in place. -/
def freeVariables (eq : Equation) : List Char :=
  addAllNew eq.lhs.freeVariables eq.rhs.freeVariables

/-- The free variables of the left-hand side with those that its linked definitions read, then those
of the right-hand side. -/
def freeVariablesLinked (eq : Equation) : List Char :=
  addAllNew eq.lhs.freeVariablesLinked eq.rhs.freeVariablesLinked

/-- The keys of the functions that are called on either side. -/
def functions (eq : Equation) : List FunctionKey :=
  addAllNew eq.lhs.functions eq.rhs.functions

/-- Whether each call on either side is linked, and each call in the bodies of the linked
definitions. -/
def linkComplete (eq : Equation) : Bool :=
  eq.lhs.linkComplete && eq.rhs.linkComplete

/-- Replaces the variables that have a binding, on both sides. -/
def substitute (bindings : Bindings) : Equation → Equation :=
  mapSides (·.substitute bindings)

/-- Binds values in place to variables of both sides, or clears them. -/
def hiddenSubstitute (bindings : List (Char × Option Float)) : Equation → Equation :=
  mapSides (·.hiddenSubstitute bindings)

/-- Removes the links of all calls. -/
def unlink : Equation → Equation :=
  mapSides Expression.unlink

/-- Links the calls of both sides in one pass, with the error that stopped it, if any. -/
def link (table : FunctionTable) (eq : Equation) : Equation × Option Error :=
  match linkAll table [eq.lhs, eq.rhs] with
  | ([lhs, rhs], failure) => ({ eq with lhs, rhs }, failure)
  | (_, failure) => (eq, failure)

/-- The linked equation, or the error that stopped it. -/
def linked (table : FunctionTable) (eq : Equation) : Except Error Equation :=
  match eq.link table with
  | (eq, none) => .ok eq
  | (_, some error) => .error error

/-- Inlines the calls of both sides, with the error that stopped it, if any. -/
def inline (table : FunctionTable) (eq : Equation) : Equation × Option Error :=
  match inlineExpressions (table.expand table.size []) [eq.lhs, eq.rhs] none with
  | ([lhs, rhs], failure) => ({ eq with lhs, rhs }, failure)
  | (_, failure) => (eq, failure)

end Equation

end ImplicitCurves

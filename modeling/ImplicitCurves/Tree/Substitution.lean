import ImplicitCurves.Tree

/-!
# Substitution

Three ways to change a tree in place of its variables and calls: replacing variables for good,
binding values to variables that stay visible, and removing links.  Each rebuilds the tree with
every factor changed after the factors inside it, so what is put in is not changed again.
-/

namespace ImplicitCurves

mutual

/-- The expression with each factor changed, the innermost first. -/
def Expression.mapFactors (change : Factor → Factor) : Expression → Expression
  | ⟨items⟩ => ⟨mapItems change items⟩

/-- The items with each factor changed. -/
def mapItems (change : Factor → Factor) : List Item → List Item
  | [] => []
  | i :: is => i.mapFactors change :: mapItems change is

/-- The item with each factor changed. -/
def Item.mapFactors (change : Factor → Factor) : Item → Item
  | ⟨positive, factors⟩ => ⟨positive, mapFactorList change factors⟩

/-- The factors with each one changed, and each one inside them. -/
def mapFactorList (change : Factor → Factor) : List Factor → List Factor
  | [] => []
  | f :: fs => f.mapInner change :: mapFactorList change fs

/-- The factor changed after the factors inside it. -/
def Factor.mapInner (change : Factor → Factor) : Factor → Factor
  | .number x => change (.number x)
  | .constant c => change (.constant c)
  | .variable name bound => change (.variable name bound)
  | .fraction a b => change (.fraction (a.mapFactors change) (b.mapFactors change))
  | .power a b => change (.power (a.mapFactors change) (b.mapFactors change))
  | .bracket a => change (.bracket (a.mapFactors change))
  | .unary f a => change (.unary f (a.mapFactors change))
  | .logarithm a b => change (.logarithm (a.mapFactors change) (b.mapFactors change))
  | .call name arguments link => change (.call name (mapExpressions change arguments) link)

/-- The expressions with each factor changed. -/
def mapExpressions (change : Factor → Factor) : List Expression → List Expression
  | [] => []
  | e :: es => e.mapFactors change :: mapExpressions change es

end

/-- What takes the place of a variable. -/
inductive Substitute where
  | value (x : Float)
  /-- An expression, which is put in as a group. -/
  | expression (e : Expression)

/-- The factor that takes the place of a variable. -/
def Substitute.toFactor : Substitute → Factor
  | value x => .number x
  | expression e => .bracket e

/-- What takes the place of each variable, by name.  The first entry of a name counts. -/
abbrev Bindings := List (Char × Substitute)

namespace Expression

/-- Replaces the variables that have a binding, all at once. -/
def substitute (bindings : Bindings) (e : Expression) : Expression :=
  e.mapFactors fun f =>
    match f with
    | .variable name bound =>
      match bindings.lookup name with
      | some s => s.toFactor
      | none => .variable name bound
    | f => f

/-- Binds values in place to variables, or clears them. -/
def hiddenSubstitute (bindings : List (Char × Option Float)) (e : Expression) : Expression :=
  e.mapFactors fun f =>
    match f with
    | .variable name bound => .variable name ((bindings.lookup name).getD bound)
    | f => f

/-- Removes the links of all calls. -/
def unlink (e : Expression) : Expression :=
  e.mapFactors fun f =>
    match f with
    | .call name arguments _ => .call name arguments .unlinked
    | f => f

end Expression

end ImplicitCurves

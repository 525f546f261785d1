import ImplicitCurves.Tree

/-!
# Going through trees

The factors of an expression in the order in which they are written, and what is read off from them:
variables, calls, and the variables that linked definitions read.
-/

namespace ImplicitCurves

/-- Adds an element at the end unless it is there already. -/
def addNew {α : Type} [DecidableEq α] (xs : List α) (x : α) : List α :=
  if x ∈ xs then xs else xs ++ [x]

/-- Adds the elements of the second list that are new, in order. -/
def addAllNew {α : Type} [DecidableEq α] (xs ys : List α) : List α :=
  ys.foldl addNew xs

/-- The elements without repetitions, in the order in which they first appear. -/
def distinct {α : Type} [DecidableEq α] (xs : List α) : List α :=
  addAllNew [] xs

theorem mem_addNew {α : Type} [DecidableEq α] {xs : List α} {x y : α} :
    y ∈ addNew xs x ↔ y ∈ xs ∨ y = x := by
  unfold addNew
  split
  · next hx => exact ⟨.inl, fun h => h.elim id fun heq => heq ▸ hx⟩
  · rw [List.mem_append, List.mem_singleton]

theorem mem_addAllNew_iff {α : Type} [DecidableEq α] {xs ys : List α} {y : α} :
    y ∈ addAllNew xs ys ↔ y ∈ xs ∨ y ∈ ys := by
  unfold addAllNew
  induction ys generalizing xs with
  | nil => simp
  | cons x ys ih => rw [List.foldl_cons, ih, mem_addNew, List.mem_cons, or_assoc]

theorem mem_distinct {α : Type} [DecidableEq α] {xs : List α} {x : α} : x ∈ distinct xs ↔ x ∈ xs := by
  rw [distinct, mem_addAllNew_iff]
  simp

mutual

/-- All factors of an expression, each before those inside it. -/
def Expression.factors : Expression → List Factor
  | ⟨items⟩ => factorsOfItems items

/-- All factors of items. -/
def factorsOfItems : List Item → List Factor
  | [] => []
  | i :: is => i.allFactors ++ factorsOfItems is

/-- All factors of an item, also those inside its factors. -/
def Item.allFactors : Item → List Factor
  | ⟨_, factors⟩ => factorsOfFactors factors

/-- The factors of a list, each with those inside it. -/
def factorsOfFactors : List Factor → List Factor
  | [] => []
  | f :: fs => f.withInner ++ factorsOfFactors fs

/-- A factor and all factors inside it. -/
def Factor.withInner : Factor → List Factor
  | .number x => [.number x]
  | .constant c => [.constant c]
  | .variable name bound => [.variable name bound]
  | .fraction a b => .fraction a b :: (a.factors ++ b.factors)
  | .power a b => .power a b :: (a.factors ++ b.factors)
  | .bracket a => .bracket a :: a.factors
  | .unary f a => .unary f a :: a.factors
  | .logarithm a b => .logarithm a b :: (a.factors ++ b.factors)
  | .call name arguments link =>
    .call name arguments link :: factorsOfExpressions arguments

/-- All factors of expressions. -/
def factorsOfExpressions : List Expression → List Factor
  | [] => []
  | e :: es => e.factors ++ factorsOfExpressions es

end

/-- The name of a variable. -/
def Factor.variableName? : Factor → Option Char
  | .variable name _ => some name
  | _ => none

/-- The name of a variable that has no value bound in place. -/
def Factor.freeName? : Factor → Option Char
  | .variable name none => some name
  | _ => none

/-- The key of a call. -/
def Factor.callKey? : Factor → Option FunctionKey
  | .call name arguments _ => some ⟨name, arguments.length⟩
  | _ => none

namespace Expression

/-- The names of the variables of an expression, in order of first appearance. -/
def allVariables (e : Expression) : List Char :=
  distinct (e.factors.filterMap Factor.variableName?)

/-- The names of the variables that have no value bound in place. -/
def freeVariables (e : Expression) : List Char :=
  distinct (e.factors.filterMap Factor.freeName?)

/-- The keys of the functions that are called. -/
def functions (e : Expression) : List FunctionKey :=
  distinct (e.factors.filterMap Factor.callKey?)

end Expression

/-- A function definition, with the globals of its body. -/
def FunctionDefinition.make (name : Char) (parameters : List Char) (body : Expression) :
    FunctionDefinition :=
  { name, parameters, body, globals := body.freeVariables.filter (!parameters.contains ·) }

mutual

/-- The variables that linked definitions called in an expression read from the environment, each
as often as it is met: those of the body of a definition, then those of what the body calls. -/
def Expression.linkedGlobals : Expression → List Char
  | ⟨items⟩ => linkedGlobalsOfItems items

/-- The variables that definitions called in items read from the environment. -/
def linkedGlobalsOfItems : List Item → List Char
  | [] => []
  | i :: is => i.linkedGlobals ++ linkedGlobalsOfItems is

/-- The variables that definitions called in an item read from the environment. -/
def Item.linkedGlobals : Item → List Char
  | ⟨_, factors⟩ => linkedGlobalsOfFactors factors

/-- The variables that definitions called in factors read from the environment. -/
def linkedGlobalsOfFactors : List Factor → List Char
  | [] => []
  | f :: fs => f.linkedGlobals ++ linkedGlobalsOfFactors fs

/-- The variables that definitions called in a factor read from the environment.  For a call, those
of its own definition come before those of its arguments. -/
def Factor.linkedGlobals : Factor → List Char
  | .number _ | .constant _ | .variable _ _ => []
  | .fraction a b | .power a b | .logarithm a b => a.linkedGlobals ++ b.linkedGlobals
  | .bracket a | .unary _ a => a.linkedGlobals
  | .call _ arguments link => link.globals ++ linkedGlobalsOfExpressions arguments

/-- The variables that definitions called in expressions read from the environment. -/
def linkedGlobalsOfExpressions : List Expression → List Char
  | [] => []
  | e :: es => e.linkedGlobals ++ linkedGlobalsOfExpressions es

/-- The variables that a linked definition reads from the environment. -/
def Link.globals : Link → List Char
  | .unlinked => []
  | .linked _ definition => definition.reads

/-- The variables that the body of a linked definition reads from the environment, and then those
that the definitions called in it read. -/
def FunctionDefinition.reads : FunctionDefinition → List Char
  | ⟨_, parameters, body, _⟩ =>
    body.freeVariables.filter (!parameters.contains ·) ++ body.linkedGlobals

end

/-- The free variables of an expression, and then those that linked definitions read. -/
def Expression.freeVariablesLinked (e : Expression) : List Char :=
  addAllNew e.freeVariables e.linkedGlobals

mutual

/-- Whether each call is linked, also those in the bodies of linked definitions. -/
def Expression.linkComplete : Expression → Bool
  | ⟨items⟩ => linkCompleteItems items

/-- Whether each call in items is linked. -/
def linkCompleteItems : List Item → Bool
  | [] => true
  | i :: is => i.linkComplete && linkCompleteItems is

/-- Whether each call in an item is linked. -/
def Item.linkComplete : Item → Bool
  | ⟨_, factors⟩ => linkCompleteFactors factors

/-- Whether each call in factors is linked. -/
def linkCompleteFactors : List Factor → Bool
  | [] => true
  | f :: fs => f.linkComplete && linkCompleteFactors fs

/-- Whether each call in a factor is linked. -/
def Factor.linkComplete : Factor → Bool
  | .number _ | .constant _ | .variable _ _ => true
  | .fraction a b | .power a b | .logarithm a b => a.linkComplete && b.linkComplete
  | .bracket a | .unary _ a => a.linkComplete
  | .call _ arguments link => link.isComplete && linkCompleteExpressions arguments

/-- Whether each call in expressions is linked. -/
def linkCompleteExpressions : List Expression → Bool
  | [] => true
  | e :: es => e.linkComplete && linkCompleteExpressions es

/-- Whether there is a link, and each call in the body of its definition is linked. -/
def Link.isComplete : Link → Bool
  | .unlinked => false
  | .linked _ definition => definition.bodyComplete

/-- Whether each call in the body of a definition is linked. -/
def FunctionDefinition.bodyComplete : FunctionDefinition → Bool
  | ⟨_, _, body, _⟩ => body.linkComplete

end

end ImplicitCurves

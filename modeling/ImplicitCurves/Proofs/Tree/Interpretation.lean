import ImplicitCurves.Proofs.Program.Meaning

/-!
# Interpretations

The value and the meaning of an expression differ only in how the products of its items are added
up.  An interpretation leaves this open, so that what holds for all interpretations is proved once
for both.
-/

namespace ImplicitCurves

variable {α : Type} [Scalar α]

mutual

/-- The interpretation of an expression.  `total` adds up items, each given by whether it is positive
and by what its factors are. -/
def Expression.interpret (total : List (Bool × List α) → α) (scope : Scope α) : Expression → α
  | ⟨items⟩ => total (interpretItems total scope items)

/-- The signs of items and what their factors are. -/
def interpretItems (total : List (Bool × List α) → α) (scope : Scope α) :
    List Item → List (Bool × List α)
  | [] => []
  | i :: is => i.interpret total scope :: interpretItems total scope is

/-- The sign of an item and what its factors are. -/
def Item.interpret (total : List (Bool × List α) → α) (scope : Scope α) : Item → Bool × List α
  | ⟨positive, factors⟩ => (positive, interpretFactors total scope factors)

/-- What factors are. -/
def interpretFactors (total : List (Bool × List α) → α) (scope : Scope α) : List Factor → List α
  | [] => []
  | f :: fs => f.interpret total scope :: interpretFactors total scope fs

/-- What a factor is. -/
def Factor.interpret (total : List (Bool × List α) → α) (scope : Scope α) : Factor → α
  | .number x => Scalar.ofFloat x
  | .constant c => Scalar.ofFloat c.value
  | .variable name bound => variableValue scope name bound
  | .fraction a b => a.interpret total scope / b.interpret total scope
  | .power a b => Scalar.power (a.interpret total scope) (b.interpret total scope)
  | .bracket a => a.interpret total scope
  | .unary f a => Scalar.apply f (a.interpret total scope)
  | .logarithm a b => Scalar.logarithm (a.interpret total scope) (b.interpret total scope)
  | .call _ arguments link =>
    link.interpret total scope (interpretExpressions total scope arguments)

/-- The interpretations of arguments, in order. -/
def interpretExpressions (total : List (Bool × List α) → α) (scope : Scope α) :
    List Expression → List α
  | [] => []
  | e :: es => e.interpret total scope :: interpretExpressions total scope es

/-- The interpretation of a call with the given arguments. -/
def Link.interpret (total : List (Bool × List α) → α) (scope : Scope α) (arguments : List α) :
    Link → α
  | .unlinked => Scalar.undefined
  | .linked _ definition => definition.interpret total scope arguments

/-- The interpretation of the body with the parameters bound to the arguments. -/
def FunctionDefinition.interpret (total : List (Bool × List α) → α) (scope : Scope α)
    (arguments : List α) : FunctionDefinition → α
  | ⟨_, parameters, body, _⟩ => body.interpret total (scope.enter (parameters.zip arguments))

end

/-- A sum and one more item, whose factors are multiplied with one or minus one in front. -/
def plusSigned (sum : α) (item : Bool × List α) : α :=
  sum + item.2.foldl (· * ·) (if item.1 then Scalar.one else Scalar.negativeOne)

/-- The total that values are built with. -/
def valueTotal (items : List (Bool × List α)) : α :=
  items.foldl plusSigned Scalar.emptySum

mutual

/-- The value of an expression is an interpretation. -/
theorem Expression.value_eq_interpret : ∀ (e : Expression) (scope : Scope α),
    e.value scope = e.interpret valueTotal scope
  | ⟨items⟩, scope => sumOfItems_eq_foldl items scope Scalar.emptySum

theorem sumOfItems_eq_foldl : ∀ (is : List Item) (scope : Scope α) (sum : α),
    sumOfItems scope sum is = (interpretItems valueTotal scope is).foldl plusSigned sum
  | [], _, _ => rfl
  | ⟨positive, factors⟩ :: is, scope, sum => by
    rw [sumOfItems, interpretItems, List.foldl_cons, sumOfItems_eq_foldl is, Item.value,
      productOfFactors_eq_foldl factors]
    rfl

theorem productOfFactors_eq_foldl : ∀ (fs : List Factor) (scope : Scope α) (product : α),
    productOfFactors scope product fs =
      (interpretFactors valueTotal scope fs).foldl (· * ·) product
  | [], _, _ => rfl
  | f :: fs, scope, product => by
    rw [productOfFactors, interpretFactors, List.foldl_cons, f.value_eq_interpret,
      productOfFactors_eq_foldl fs]

theorem Factor.value_eq_interpret : ∀ (f : Factor) (scope : Scope α),
    f.value scope = f.interpret valueTotal scope
  | .number _, _ | .constant _, _ | .variable _ _, _ => rfl
  | .fraction a b, scope | .power a b, scope | .logarithm a b, scope => by
    rw [Factor.value, Factor.interpret, a.value_eq_interpret, b.value_eq_interpret]
  | .bracket a, scope | .unary _ a, scope => by
    rw [Factor.value, Factor.interpret, a.value_eq_interpret]
  | .call _ arguments link, scope => by
    rw [Factor.value, Factor.interpret, valuesOfArguments_eq_interpret arguments,
      link.value_eq_interpret]

theorem valuesOfArguments_eq_interpret : ∀ (es : List Expression) (scope : Scope α),
    valuesOfArguments scope es = interpretExpressions valueTotal scope es
  | [], _ => rfl
  | e :: es, scope => by
    rw [valuesOfArguments, interpretExpressions, e.value_eq_interpret,
      valuesOfArguments_eq_interpret es]

theorem Link.value_eq_interpret : ∀ (link : Link) (scope : Scope α) (arguments : List α),
    link.value scope arguments = link.interpret valueTotal scope arguments
  | .unlinked, _, _ => rfl
  | .linked _ ⟨_, _, body, _⟩, _, _ => body.value_eq_interpret _

end

/-- The product of factors, the first of them standing alone. -/
def productOf (factors : List α) : α :=
  (factors.foldl (fun product factor => some (timesFactor product factor)) none).getD Scalar.one

/-- The total that meanings are built with. -/
def meaningTotal (items : List (Bool × List α)) : α :=
  (items.foldl (fun sum item => some (plusItem sum item.1 (productOf item.2))) none).getD
    Scalar.zero

mutual

/-- The meaning of an expression is an interpretation. -/
theorem Expression.meaning_eq_interpret : ∀ (e : Expression) (scope : Scope α),
    e.meaning scope = e.interpret meaningTotal scope
  | ⟨items⟩, scope => meaningOfItems_eq_foldl items scope none

theorem meaningOfItems_eq_foldl : ∀ (is : List Item) (scope : Scope α) (sum : Option α),
    meaningOfItems scope sum is = ((interpretItems meaningTotal scope is).foldl
      (fun sum item => some (plusItem sum item.1 (productOf item.2))) sum).getD Scalar.zero
  | [], _, _ => rfl
  | ⟨positive, factors⟩ :: is, scope, sum => by
    rw [meaningOfItems, interpretItems, List.foldl_cons, meaningOfItems_eq_foldl is, Item.product,
      meaningOfFactors_eq_foldl factors]
    rfl

theorem meaningOfFactors_eq_foldl : ∀ (fs : List Factor) (scope : Scope α) (product : Option α),
    meaningOfFactors scope product fs = ((interpretFactors meaningTotal scope fs).foldl
      (fun product factor => some (timesFactor product factor)) product).getD Scalar.one
  | [], _, _ => rfl
  | f :: fs, scope, product => by
    rw [meaningOfFactors, interpretFactors, List.foldl_cons, f.meaning_eq_interpret,
      meaningOfFactors_eq_foldl fs]

theorem Factor.meaning_eq_interpret : ∀ (f : Factor) (scope : Scope α),
    f.meaning scope = f.interpret meaningTotal scope
  | .number _, _ | .constant _, _ | .variable _ _, _ => rfl
  | .fraction a b, scope | .power a b, scope | .logarithm a b, scope => by
    rw [Factor.meaning, Factor.interpret, a.meaning_eq_interpret, b.meaning_eq_interpret]
  | .bracket a, scope | .unary _ a, scope => by
    rw [Factor.meaning, Factor.interpret, a.meaning_eq_interpret]
  | .call _ arguments link, scope => by
    rw [Factor.meaning, Factor.interpret, meaningsOfArguments_eq_interpret arguments,
      link.meaning_eq_interpret]

theorem meaningsOfArguments_eq_interpret : ∀ (es : List Expression) (scope : Scope α),
    meaningsOfArguments scope es = interpretExpressions meaningTotal scope es
  | [], _ => rfl
  | e :: es, scope => by
    rw [meaningsOfArguments, interpretExpressions, e.meaning_eq_interpret,
      meaningsOfArguments_eq_interpret es]

theorem Link.meaning_eq_interpret : ∀ (link : Link) (scope : Scope α) (arguments : List α),
    link.meaning scope arguments = link.interpret meaningTotal scope arguments
  | .unlinked, _, _ => rfl
  | .linked _ ⟨_, _, body, _⟩, _, _ => body.meaning_eq_interpret _

end

end ImplicitCurves

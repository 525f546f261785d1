import ImplicitCurves.Tree.Value

/-!
# Meanings of expressions

What an expression means when its items are added and subtracted: a first item that is negative is
subtracted from zero, and a sign is never multiplied into a product.  This is the meaning that
programs compute.  It differs from the value of a tree only in where sums and products start.
-/

namespace ImplicitCurves

variable {α : Type} [Scalar α]

/-- A product with one more factor, or that factor alone if there is none yet. -/
def timesFactor (product : Option α) (factor : α) : α :=
  match product with
  | none => factor
  | some product => product * factor

/-- A sum with one more item, which is subtracted unless it is positive.  If there is no sum yet, a
positive item stands alone, and any other is subtracted from zero. -/
def plusItem (sum : Option α) (positive : Bool) (item : α) : α :=
  match sum, positive with
  | none, true => item
  | none, false => Scalar.zero - item
  | some sum, true => sum + item
  | some sum, false => sum - item

mutual

/-- The meaning of an expression.  That of an expression without items is zero. -/
def Expression.meaning (scope : Scope α) : Expression → α
  | ⟨items⟩ => meaningOfItems scope none items

/-- The meaning of items that follow a sum. -/
def meaningOfItems (scope : Scope α) (sum : Option α) : List Item → α
  | [] => sum.getD Scalar.zero
  | i :: is => meaningOfItems scope (some (plusItem sum i.positive (i.product scope))) is

/-- The product of the factors of an item, without its sign.  That of no factors is one. -/
def Item.product (scope : Scope α) : Item → α
  | ⟨_, factors⟩ => meaningOfFactors scope none factors

/-- The meaning of factors that follow a product. -/
def meaningOfFactors (scope : Scope α) (product : Option α) : List Factor → α
  | [] => product.getD Scalar.one
  | f :: fs => meaningOfFactors scope (some (timesFactor product (f.meaning scope))) fs

/-- The meaning of a factor. -/
def Factor.meaning (scope : Scope α) : Factor → α
  | .number x => Scalar.ofFloat x
  | .constant c => Scalar.ofFloat c.value
  | .variable name bound => variableValue scope name bound
  | .fraction a b => a.meaning scope / b.meaning scope
  | .power a b => Scalar.power (a.meaning scope) (b.meaning scope)
  | .bracket a => a.meaning scope
  | .unary f a => Scalar.apply f (a.meaning scope)
  | .logarithm base antilog => Scalar.logarithm (base.meaning scope) (antilog.meaning scope)
  | .call _ arguments link => link.meaning scope (meaningsOfArguments scope arguments)

/-- The meanings of arguments, in order. -/
def meaningsOfArguments (scope : Scope α) : List Expression → List α
  | [] => []
  | e :: es => e.meaning scope :: meaningsOfArguments scope es

/-- The meaning of a call with the given arguments, which is undefined if the call is not linked. -/
def Link.meaning (scope : Scope α) (arguments : List α) : Link → α
  | .unlinked => Scalar.undefined
  | .linked _ definition => definition.meaning scope arguments

/-- The meaning of the body with the parameters bound to the arguments.  The arguments of the
function around the call are not seen in it. -/
def FunctionDefinition.meaning (scope : Scope α) (arguments : List α) : FunctionDefinition → α
  | ⟨_, parameters, body, _⟩ => body.meaning (scope.enter (parameters.zip arguments))

end

theorem length_meaningsOfArguments (scope : Scope α) (es : List Expression) :
    (meaningsOfArguments scope es).length = es.length := by
  induction es with
  | nil => rfl
  | cons e es ih => simp [meaningsOfArguments, ih]

mutual

/-- Whether each linked call has as many arguments as its definition has parameters, also in the
bodies of definitions.  The arguments of a call that is not linked do not matter. -/
def Expression.callsFit : Expression → Bool
  | ⟨items⟩ => itemsFit items

/-- Whether each linked call in items fits its definition. -/
def itemsFit : List Item → Bool
  | [] => true
  | i :: is => i.callsFit && itemsFit is

/-- Whether each linked call in an item fits its definition. -/
def Item.callsFit : Item → Bool
  | ⟨_, factors⟩ => factorsFit factors

/-- Whether each linked call in factors fits its definition. -/
def factorsFit : List Factor → Bool
  | [] => true
  | f :: fs => f.callsFit && factorsFit fs

/-- Whether each linked call in a factor fits its definition. -/
def Factor.callsFit : Factor → Bool
  | .number _ | .constant _ | .variable _ _ => true
  | .fraction a b | .power a b | .logarithm a b => a.callsFit && b.callsFit
  | .bracket a | .unary _ a => a.callsFit
  | .call _ arguments link =>
    match link with
    | .unlinked => true
    | .linked _ definition =>
      argumentsFit arguments && definition.parameters.length == arguments.length &&
        definition.bodyFits

/-- Whether each linked call in arguments fits its definition. -/
def argumentsFit : List Expression → Bool
  | [] => true
  | e :: es => e.callsFit && argumentsFit es

/-- Whether each linked call in the body of a definition fits its definition. -/
def FunctionDefinition.bodyFits : FunctionDefinition → Bool
  | ⟨_, _, body, _⟩ => body.callsFit

end

mutual

/-- The expression without the links of calls that do not fit their definitions, also in the bodies of
definitions.  To a program such a call is as undefined as one that is not linked. -/
def Expression.fitted : Expression → Expression
  | ⟨items⟩ => ⟨fittedItems items⟩

/-- Items without the links of calls that do not fit. -/
def fittedItems : List Item → List Item
  | [] => []
  | i :: is => i.fitted :: fittedItems is

/-- An item without the links of calls that do not fit. -/
def Item.fitted : Item → Item
  | ⟨positive, factors⟩ => ⟨positive, fittedFactors factors⟩

/-- Factors without the links of calls that do not fit. -/
def fittedFactors : List Factor → List Factor
  | [] => []
  | f :: fs => f.fitted :: fittedFactors fs

/-- A factor without the links of calls that do not fit. -/
def Factor.fitted : Factor → Factor
  | .number x => .number x
  | .constant c => .constant c
  | .variable name bound => .variable name bound
  | .fraction a b => .fraction a.fitted b.fitted
  | .power a b => .power a.fitted b.fitted
  | .bracket a => .bracket a.fitted
  | .unary f a => .unary f a.fitted
  | .logarithm a b => .logarithm a.fitted b.fitted
  | .call name arguments .unlinked => .call name arguments .unlinked
  | .call name arguments (.linked pass definition) =>
    if definition.parameters.length = arguments.length then
      .call name (fittedExpressions arguments) (.linked pass definition.fitted)
    else .call name arguments .unlinked

/-- Arguments without the links of calls that do not fit. -/
def fittedExpressions : List Expression → List Expression
  | [] => []
  | e :: es => e.fitted :: fittedExpressions es

/-- A definition without the links of calls in its body that do not fit. -/
def FunctionDefinition.fitted : FunctionDefinition → FunctionDefinition
  | ⟨name, parameters, body, globals⟩ => ⟨name, parameters, body.fitted, globals⟩

end

theorem length_fittedExpressions (es : List Expression) :
    (fittedExpressions es).length = es.length := by
  induction es with
  | nil => rfl
  | cons e es ih => simp [fittedExpressions, ih]

mutual

/-- If all calls fit, then no link is removed. -/
theorem Expression.fitted_eq : ∀ e : Expression, e.callsFit = true → e.fitted = e
  | ⟨items⟩, h => congrArg Expression.mk (fittedItems_eq items h)

theorem fittedItems_eq : ∀ is : List Item, itemsFit is = true → fittedItems is = is
  | [], _ => rfl
  | ⟨positive, factors⟩ :: is, h => by
    obtain ⟨hitem, hrest⟩ := Bool.and_eq_true_iff.1 h
    rw [fittedItems, Item.fitted, fittedFactors_eq factors hitem, fittedItems_eq is hrest]

theorem fittedFactors_eq : ∀ fs : List Factor, factorsFit fs = true → fittedFactors fs = fs
  | [], _ => rfl
  | f :: fs, h => by
    obtain ⟨hfactor, hrest⟩ := Bool.and_eq_true_iff.1 h
    rw [fittedFactors, f.fitted_eq hfactor, fittedFactors_eq fs hrest]

theorem Factor.fitted_eq : ∀ f : Factor, f.callsFit = true → f.fitted = f
  | .number _, _ | .constant _, _ | .variable _ _, _ | .call _ _ .unlinked, _ => rfl
  | .fraction a b, h | .power a b, h | .logarithm a b, h => by
    obtain ⟨ha, hb⟩ := Bool.and_eq_true_iff.1 h
    rw [Factor.fitted, a.fitted_eq ha, b.fitted_eq hb]
  | .bracket a, h | .unary _ a, h => by
    rw [Factor.fitted, a.fitted_eq h]
  | .call _ arguments (.linked _ ⟨_, _, body, _⟩), h => by
    obtain ⟨hfirst, hbody⟩ := Bool.and_eq_true_iff.1 h
    obtain ⟨harguments, hlength⟩ := Bool.and_eq_true_iff.1 hfirst
    rw [Factor.fitted, if_pos (eq_of_beq hlength), fittedExpressions_eq arguments harguments,
      FunctionDefinition.fitted, body.fitted_eq hbody]

theorem fittedExpressions_eq :
    ∀ es : List Expression, argumentsFit es = true → fittedExpressions es = es
  | [], _ => rfl
  | e :: es, h => by
    obtain ⟨hfirst, hrest⟩ := Bool.and_eq_true_iff.1 h
    rw [fittedExpressions, e.fitted_eq hfirst, fittedExpressions_eq es hrest]

end

end ImplicitCurves

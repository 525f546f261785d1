import ImplicitCurves.Proofs.Program.Correctness
import ImplicitCurves.Proofs.Program.SignedSums
import ImplicitCurves.Proofs.Scalar.Binary64

/-!
# Programs and trees over doubles

Over doubles a program adds up the same numbers as the tree that it was compiled from, in the same
order.  They only start differently: where a tree adds the opposite of a first item to negative zero,
a program subtracts the item from zero.  The rest of the sum does not take this back, so the sum of
the program is zero plus the sum of the tree (`meaningTotal_eq_flatTotal`).  That is the same double
unless the sum of the tree is negative zero.
-/

namespace ImplicitCurves

open Binary64

/-! ### Sums and products -/

instance : SignedScalar Float where
  one_mul := Binary64.one_mul
  emptySum_add := negativeZero_add
  neg_mul := Binary64.neg_mul
  negativeOne_eq := rfl
  sub_eq_add_neg := Binary64.sub_eq_add_neg

/-- Zero in front of a sum is zero plus the sum. -/
theorem foldl_plusSigned_zero_add (items : List (Bool × List Float)) (sum : Float) :
    items.foldl plusSigned (0 + sum) = 0 + items.foldl plusSigned sum := by
  induction items generalizing sum with
  | nil => rfl
  | cons item items ih =>
    have hstep : plusSigned (0 + sum) item = 0 + plusSigned sum item := zero_add_add sum _
    rw [List.foldl_cons, List.foldl_cons, hstep, ih]

/-- The total that programs compute, by the one that trees are evaluated with: unless the first item
is added, zero is added to it. -/
def flatTotal : List (Bool × List Float) → Float
  | (true, fs) :: items => valueTotal ((true, fs) :: items)
  | items => 0 + valueTotal items

theorem meaningTotal_eq_flatTotal : (meaningTotal : List (Bool × List Float) → Float) = flatTotal := by
  funext items
  cases items with
  | nil => rfl
  | cons item items =>
    obtain ⟨positive, fs⟩ := item
    have hvalue := valueTotal_cons (positive, fs) items
    have hmeaning := meaningTotal_cons (positive, fs) items
    cases positive with
    | true => exact hmeaning.trans hvalue.symm
    | false =>
      have hzero : plusItem none false (productOf fs) = 0 + -productOf fs :=
        Binary64.sub_eq_add_neg 0 (productOf fs)
      have hflat : flatTotal ((false, fs) :: items) = 0 + valueTotal ((false, fs) :: items) := rfl
      rw [hflat, hvalue, hmeaning, hzero, foldl_plusSigned_zero_add]
      rfl

/-- The two totals agree but for negative zero. -/
theorem flatTotal_eq_valueTotal {items : List (Bool × List Float)}
    (h : items.head?.map Prod.fst = some true ∨ valueTotal items ≠ -0.0) :
    flatTotal items = valueTotal items := by
  match items, h with
  | [], h => exact absurd rfl (h.resolve_left (by simp))
  | (true, _) :: _, _ => rfl
  | (false, _) :: _, h => exact Binary64.zero_add (h.resolve_left (by simp))

/-- The total of the single item `-x` for `x = 0`. -/
example : valueTotal [(false, [0])] = -0.0 ∧ flatTotal [(false, [0])] = 0 := by decide +kernel

/-- Over doubles a program always comes to an end, with what its tree is under the total of programs
if calls that do not fit their definitions are undefined. -/
theorem Expression.run?_eq_interpret (e : Expression) (env : Environment Float) :
    e.program.run? (e.program.bind env) =
      some (e.fitted.interpret flatTotal (Scope.outermost env)) := by
  rw [e.run?_eq_fitted_meaning env, e.fitted.meaning_eq_interpret, meaningTotal_eq_flatTotal]

/-! ### Equal values -/

mutual

/-- An expression is regular in a scope unless something occurs in it to which a tree and a program
give different values: a sum that has no items, or subtracts its first, and has the value negative
zero, or a call that does not fit its definition and yet has a value. -/
def Expression.Regular (scope : Scope Float) : Expression → Prop
  | ⟨items⟩ => ItemsRegular scope items ∧
      (items.head?.map Item.positive = some true ∨ Expression.value scope ⟨items⟩ ≠ -0.0)

/-- Items are regular if each of them is. -/
def ItemsRegular (scope : Scope Float) : List Item → Prop
  | [] => True
  | i :: is => i.Regular scope ∧ ItemsRegular scope is

/-- An item is regular if its factors are. -/
def Item.Regular (scope : Scope Float) : Item → Prop
  | ⟨_, factors⟩ => FactorsRegular scope factors

/-- Factors are regular if each of them is. -/
def FactorsRegular (scope : Scope Float) : List Factor → Prop
  | [] => True
  | f :: fs => f.Regular scope ∧ FactorsRegular scope fs

/-- A factor is regular if its parts are and, for a call, also the body of the definition.  A call
that is not linked is undefined to trees and programs alike. -/
def Factor.Regular (scope : Scope Float) : Factor → Prop
  | .number _ | .constant _ | .variable _ _ | .call _ _ .unlinked => True
  | .fraction a b | .power a b | .logarithm a b => a.Regular scope ∧ b.Regular scope
  | .bracket a | .unary _ a => a.Regular scope
  | .call _ arguments (.linked _ definition) =>
    if definition.parameters.length = arguments.length then
      ExpressionsRegular scope arguments ∧
        definition.Regular scope (valuesOfArguments scope arguments)
    else definition.applied scope (valuesOfArguments scope arguments) = Scalar.undefined

/-- Arguments are regular if each of them is. -/
def ExpressionsRegular (scope : Scope Float) : List Expression → Prop
  | [] => True
  | e :: es => e.Regular scope ∧ ExpressionsRegular scope es

/-- A definition is regular for arguments if its body is with the parameters bound to them. -/
def FunctionDefinition.Regular (scope : Scope Float) (arguments : List Float) :
    FunctionDefinition → Prop
  | ⟨_, parameters, body, _⟩ => body.Regular (scope.enter (parameters.zip arguments))

end

theorem head?_interpretItems (total : List (Bool × List Float) → Float) (scope : Scope Float) :
    ∀ is : List Item,
      (interpretItems total scope is).head?.map Prod.fst = is.head?.map Item.positive := by
  intro is
  cases is with
  | nil => rfl
  | cons i is =>
    obtain ⟨positive, factors⟩ := i
    rfl

mutual

/-- A regular expression has the same value under the total of programs. -/
theorem Expression.interpret_flatTotal : ∀ (e : Expression) (scope : Scope Float),
    e.Regular scope → e.fitted.interpret flatTotal scope = e.value scope
  | ⟨items⟩, scope, h => by
    have hvalue : Expression.value scope ⟨items⟩ =
        valueTotal (interpretItems valueTotal scope items) := Expression.value_eq_interpret _ _
    have htotal : flatTotal (interpretItems valueTotal scope items) =
        valueTotal (interpretItems valueTotal scope items) := by
      refine flatTotal_eq_valueTotal ?_
      rw [head?_interpretItems]
      rw [← hvalue]
      exact h.2
    rw [hvalue, Expression.fitted, Expression.interpret, interpretItems_flatTotal items scope h.1,
      htotal]

theorem interpretItems_flatTotal : ∀ (is : List Item) (scope : Scope Float),
    ItemsRegular scope is →
      interpretItems flatTotal scope (fittedItems is) = interpretItems valueTotal scope is
  | [], _, _ => rfl
  | ⟨_, factors⟩ :: is, scope, h => by
    rw [fittedItems, interpretItems, interpretItems, interpretItems_flatTotal is scope h.2,
      Item.fitted, Item.interpret, Item.interpret, interpretFactors_flatTotal factors scope h.1]

theorem interpretFactors_flatTotal : ∀ (fs : List Factor) (scope : Scope Float),
    FactorsRegular scope fs →
      interpretFactors flatTotal scope (fittedFactors fs) = interpretFactors valueTotal scope fs
  | [], _, _ => rfl
  | f :: fs, scope, h => by
    rw [fittedFactors, interpretFactors, interpretFactors, f.interpret_flatTotal scope h.1,
      f.value_eq_interpret, interpretFactors_flatTotal fs scope h.2]

theorem Factor.interpret_flatTotal : ∀ (f : Factor) (scope : Scope Float),
    f.Regular scope → f.fitted.interpret flatTotal scope = f.value scope
  | .number _, _, _ | .constant _, _, _ | .variable _ _, _, _ | .call _ _ .unlinked, _, _ => rfl
  | .fraction a b, scope, h | .power a b, scope, h | .logarithm a b, scope, h => by
    rw [Factor.fitted, Factor.interpret, Factor.value, a.interpret_flatTotal scope h.1,
      b.interpret_flatTotal scope h.2]
  | .bracket a, scope, h | .unary _ a, scope, h => by
    rw [Factor.fitted, Factor.interpret, Factor.value, a.interpret_flatTotal scope h]
  | .call _ arguments (.linked _ definition), scope, h => by
    rw [Factor.Regular] at h
    rw [Factor.fitted, Factor.value, Link.value]
    by_cases hcount : definition.parameters.length = arguments.length
    · rw [if_pos hcount] at h ⊢
      rw [Factor.interpret, Link.interpret, interpretExpressions_flatTotal arguments scope h.1,
        definition.interpret_flatTotal scope _ h.2]
    · rw [if_neg hcount] at h ⊢
      exact h.symm

theorem interpretExpressions_flatTotal : ∀ (es : List Expression) (scope : Scope Float),
    ExpressionsRegular scope es →
      interpretExpressions flatTotal scope (fittedExpressions es) = valuesOfArguments scope es
  | [], _, _ => rfl
  | e :: es, scope, h => by
    rw [fittedExpressions, interpretExpressions, valuesOfArguments, e.interpret_flatTotal scope h.1,
      interpretExpressions_flatTotal es scope h.2]

theorem FunctionDefinition.interpret_flatTotal :
    ∀ (d : FunctionDefinition) (scope : Scope Float) (arguments : List Float),
      d.Regular scope arguments →
        d.fitted.interpret flatTotal scope arguments = d.applied scope arguments
  | ⟨_, parameters, body, _⟩, scope, arguments, h =>
    body.interpret_flatTotal (scope.enter (parameters.zip arguments)) h

end

/-- The program of a regular expression comes to an end with the value of the expression, bit for
bit. -/
theorem Expression.eval_program_eq_compute (e : Expression) (env : Environment Float)
    (h : e.Regular (Scope.outermost env)) :
    e.program.run? (e.program.bind env) = some (e.compute env) ∧
      e.program.eval env = e.compute env := by
  have hrun : e.program.run? (e.program.bind env) = some (e.compute env) := by
    rw [e.run?_eq_interpret env, e.interpret_flatTotal _ h, Expression.compute]
  exact ⟨hrun, Program.eval_eq_of_run? hrun⟩

/-- With `f(t) = -t + a`, where `a` is one, `-f(x)` is two for `x = 3`, and nothing in it is negative
zero. -/
theorem Expression.eval_program_eq_compute_linkedCall :
    let body : Expression := ⟨[⟨false, [.variable 't' none]⟩, ⟨true, [.variable 'a' none]⟩]⟩
    let call : Factor := .call 'f' [.ofFactor (.variable 'x' none)]
      (.linked 0 ⟨'f', ['t'], body, ['a']⟩)
    let e : Expression := ⟨[⟨false, [call]⟩]⟩
    let env : Environment Float := (Directory.empty.insert ('a', 1)).insert ('x', 3)
    e.Regular (Scope.outermost env) ∧ e.program.eval env = e.compute env ∧ e.compute env = 2 := by
  intro body call e env
  have harguments : valuesOfArguments (Scope.outermost env) [.ofFactor (.variable 'x' none)] = [3] :=
    by decide +kernel
  have hbody : body.Regular ((Scope.outermost env).enter [('t', 3)]) :=
    ⟨⟨⟨trivial, trivial⟩, ⟨trivial, trivial⟩, trivial⟩, .inr (by decide +kernel)⟩
  have hcall : call.Regular (Scope.outermost env) := by
    refine ⟨⟨⟨⟨⟨trivial, trivial⟩, trivial⟩, .inl rfl⟩, trivial⟩, ?_⟩
    rw [harguments]
    exact hbody
  have he : e.Regular (Scope.outermost env) :=
    ⟨⟨⟨hcall, trivial⟩, trivial⟩, .inr (by decide +kernel)⟩
  exact ⟨he, (e.eval_program_eq_compute env he).2, by decide +kernel⟩

end ImplicitCurves

import ImplicitCurves.Proofs.Program.Correctness
import ImplicitCurves.Proofs.Scalar.Fields
import ImplicitCurves.Proofs.Tree.FaithfulLinks

/-!
# Formed equations

Forming an equation moves the items of its right-hand side to the left with their signs changed.  Over
the values of a field this keeps the difference of the sides, for trees and for programs alike, and
what is read off from both sides stays the same: main statement `Equation.form_keepsMeaning`.
-/

namespace ImplicitCurves

/-! ### What is put together with the items -/

theorem factorsOfItems_append (is js : List Item) :
    factorsOfItems (is ++ js) = factorsOfItems is ++ factorsOfItems js := by
  induction is with
  | nil => rfl
  | cons i is ih => rw [List.cons_append, factorsOfItems, factorsOfItems, ih, List.append_assoc]

theorem factorsOfItems_negated (is : List Item) :
    factorsOfItems (is.map Item.negated) = factorsOfItems is := by
  induction is with
  | nil => rfl
  | cons i is ih =>
    obtain ⟨_, factors⟩ := i
    rw [List.map_cons, factorsOfItems, factorsOfItems, ih]
    rfl

theorem linkedGlobalsOfItems_append (is js : List Item) :
    linkedGlobalsOfItems (is ++ js) = linkedGlobalsOfItems is ++ linkedGlobalsOfItems js := by
  induction is with
  | nil => rfl
  | cons i is ih =>
    rw [List.cons_append, linkedGlobalsOfItems, linkedGlobalsOfItems, ih, List.append_assoc]

theorem linkedGlobalsOfItems_negated (is : List Item) :
    linkedGlobalsOfItems (is.map Item.negated) = linkedGlobalsOfItems is := by
  induction is with
  | nil => rfl
  | cons i is ih =>
    obtain ⟨_, factors⟩ := i
    rw [List.map_cons, linkedGlobalsOfItems, linkedGlobalsOfItems, ih]
    rfl

theorem fittedItems_eq_map (is : List Item) : fittedItems is = is.map Item.fitted := by
  induction is with
  | nil => rfl
  | cons i is ih => rw [fittedItems, List.map_cons, ih]

theorem Item.negated_fitted (i : Item) : i.fitted.negated = i.negated.fitted := by
  cases i
  rfl

section Interpretation

variable {α : Type} [Scalar α] (total : List (Bool × List α) → α) (scope : Scope α)

theorem interpretItems_append (is js : List Item) :
    interpretItems total scope (is ++ js) =
      interpretItems total scope is ++ interpretItems total scope js := by
  induction is with
  | nil => rfl
  | cons i is ih => rw [List.cons_append, interpretItems, interpretItems, ih, List.cons_append]

/-- What an item is with the other sign. -/
def oppositeSign (item : Bool × List α) : Bool × List α :=
  (!item.1, item.2)

theorem interpretItems_negated (is : List Item) :
    interpretItems total scope (is.map Item.negated) =
      (interpretItems total scope is).map oppositeSign := by
  induction is with
  | nil => rfl
  | cons i is ih =>
    obtain ⟨positive, factors⟩ := i
    rw [List.map_cons, interpretItems, interpretItems, ih]
    rfl

end Interpretation

/-! ### The difference of the sides -/

section ExactField

open FieldValue

variable {K : Type} [Field K] [Scalar (FieldValue K)] [ExactField K]

/-- To add an item with the other sign is to subtract it. -/
theorem plusSigned_oppositeSign (sum sum' : FieldValue K) (item : Bool × List (FieldValue K)) :
    plusSigned (sum - sum') (oppositeSign item) = sum - plusSigned sum' item := by
  obtain ⟨positive, fs⟩ := item
  rw [plusSigned, plusSigned, ExactField.sub_add, oppositeSign, foldl_mul_sign, foldl_mul_sign]
  cases positive with
  | true => rfl
  | false => exact congrArg (sum - sum' + ·) (neg_neg (productOf fs)).symm

theorem foldl_oppositeSign (items : List (Bool × List (FieldValue K))) (sum sum' : FieldValue K) :
    (items.map oppositeSign).foldl plusSigned (sum - sum') = sum - items.foldl plusSigned sum' := by
  induction items generalizing sum' with
  | nil => rfl
  | cons item items ih =>
    rw [List.map_cons, List.foldl_cons, List.foldl_cons, plusSigned_oppositeSign, ih]

/-- The total of items and of others with the opposite signs is the difference of the totals. -/
theorem valueTotal_append_oppositeSign (items items' : List (Bool × List (FieldValue K))) :
    valueTotal (items ++ items'.map oppositeSign) = valueTotal items - valueTotal items' := by
  have hstart : valueTotal items = valueTotal items - Scalar.emptySum := by
    rw [ExactField.emptySum_eq, ExactField.sub_defined_zero]
  have hsplit : valueTotal (items ++ items'.map oppositeSign) =
      (items'.map oppositeSign).foldl plusSigned (valueTotal items) := List.foldl_append
  rw [hsplit, hstart, foldl_oppositeSign, ← hstart]
  rfl

/-- Over the values of a field the meaning of an expression is its value. -/
theorem Expression.meaning_eq_value (e : Expression) (scope : Scope (FieldValue K)) :
    e.meaning scope = e.value scope := by
  have hzero : (Scalar.zero : FieldValue K) = Scalar.emptySum :=
    ExactField.zero_eq.trans ExactField.emptySum_eq.symm
  rw [e.meaning_eq_interpret, e.value_eq_interpret, meaningTotal_eq_valueTotal hzero]

theorem Expression.value_zero (scope : Scope (FieldValue K)) :
    Expression.zero.value scope = defined 0 := by
  have hzero : Expression.zero.value scope = Scalar.emptySum + Scalar.one * Scalar.zero := rfl
  rw [hzero, SignedScalar.emptySum_add, SignedScalar.one_mul, ExactField.zero_eq]

namespace Equation

/-- Forming keeps the difference of the sides. -/
theorem compute_form (eq : Equation) (env : Environment (FieldValue K)) :
    eq.form.compute env = eq.compute env := by
  obtain ⟨⟨left⟩, ⟨right⟩, formed⟩ := eq
  cases formed with
  | true => rfl
  | false =>
    have hmoved : Expression.compute ⟨left ++ right.map Item.negated⟩ env =
        Expression.compute ⟨left⟩ env - Expression.compute ⟨right⟩ env := by
      simp only [Expression.compute, Expression.value_eq_interpret, Expression.interpret]
      rw [interpretItems_append, interpretItems_negated, valueTotal_append_oppositeSign]
    have hform : (Equation.form ⟨⟨left⟩, ⟨right⟩, false⟩).compute env =
        Expression.compute ⟨left ++ right.map Item.negated⟩ env - Expression.zero.compute env := rfl
    have hzero : Expression.zero.compute env = defined 0 := Expression.value_zero _
    rw [hform, hmoved, hzero, ExactField.sub_defined_zero]
    rfl

omit [Field K] [Scalar (FieldValue K)] [ExactField K] in
/-- Links that are taken away from the sides are taken away from the formed equation. -/
theorem form_fitted (eq : Equation) :
    (eq.mapSides Expression.fitted).form = eq.form.mapSides Expression.fitted := by
  obtain ⟨⟨left⟩, ⟨right⟩, formed⟩ := eq
  cases formed with
  | true => rfl
  | false =>
    have hitems : fittedItems left ++ (fittedItems right).map Item.negated =
        fittedItems (left ++ right.map Item.negated) := by
      simp only [fittedItems_eq_map, List.map_append, List.map_map]
      exact congrArg _ (List.map_congr_left fun i _ => i.negated_fitted)
    exact congrArg (fun items => (⟨⟨items⟩, .zero, true⟩ : Equation)) hitems

/-- The program of an equation comes to an end with the difference of the sides, in which calls that
do not fit their definitions are undefined. -/
theorem run?_eq_compute_fitted (eq : Equation) (env : Environment (FieldValue K)) :
    eq.program.run? (eq.program.bind env) = some ((eq.mapSides Expression.fitted).compute env) := by
  rw [eq.run?_eq_fitted_difference env, Expression.meaning_eq_value, Expression.meaning_eq_value]
  rfl

/-- Forming keeps the result of the program. -/
theorem run?_form (eq : Equation) (env : Environment (FieldValue K)) :
    eq.form.program.run? (eq.form.program.bind env) = eq.program.run? (eq.program.bind env) := by
  rw [run?_eq_compute_fitted, run?_eq_compute_fitted, ← form_fitted, compute_form]

theorem run?_eq_compute {eq : Equation} (h : eq.Fits) (env : Environment (FieldValue K)) :
    eq.program.run? (eq.program.bind env) = some (eq.compute env) := by
  rw [eq.run?_eq_difference (eq.lhs.callsFit_of_fits h.1) (eq.rhs.callsFit_of_fits h.2) env,
    Expression.meaning_eq_value, Expression.meaning_eq_value]
  rfl

end Equation

end ExactField

/-! ### What is read off from both sides -/

section Lists

variable {β : Type} [DecidableEq β]

theorem distinct_concat (xs : List β) (x : β) : distinct (xs ++ [x]) = addNew (distinct xs) x :=
  List.foldl_append

/-- Repetitions in what is added make no difference. -/
theorem addAllNew_distinct (xs ys : List β) : addAllNew xs (distinct ys) = addAllNew xs ys := by
  induction ys using List.reverseRecOn with
  | nil => rfl
  | append_singleton ys y ih =>
    have hlast : addAllNew xs (ys ++ [y]) = addNew (addAllNew xs ys) y := List.foldl_append
    rw [distinct_concat, hlast, addNew]
    split
    · next hy =>
      -- The last one has been met, and so it was added already.
      have hmem : y ∈ addAllNew xs ys := mem_addAllNew_iff.2 (.inr (mem_distinct.1 hy))
      rw [ih, addNew, if_pos hmem]
    · have hnew : addAllNew xs (distinct ys ++ [y]) = addNew (addAllNew xs (distinct ys)) y :=
        List.foldl_append
      rw [hnew, ih]

/-- The distinct elements of two lists, one behind the other. -/
theorem distinct_append (xs ys : List β) :
    distinct (xs ++ ys) = addAllNew (distinct xs) (distinct ys) := by
  have hsplit : distinct (xs ++ ys) = addAllNew (distinct xs) ys := List.foldl_append
  rw [hsplit, addAllNew_distinct]

end Lists

namespace Equation

/-- The left-hand side has all factors after forming, and none of those on the right-hand side is a
variable or a call.  An equation that is formed stays as it is. -/
theorem form_cases (eq : Equation) : eq.form = eq ∨
    (eq.form.lhs.factors = eq.lhs.factors ++ eq.rhs.factors ∧
      eq.form.lhs.linkedGlobals = eq.lhs.linkedGlobals ++ eq.rhs.linkedGlobals ∧
      eq.form.rhs = .zero) := by
  obtain ⟨⟨left⟩, ⟨right⟩, formed⟩ := eq
  cases formed with
  | true => exact .inl rfl
  | false =>
    refine .inr ⟨?_, ?_, rfl⟩
    · exact (factorsOfItems_append _ _).trans (congrArg _ (factorsOfItems_negated right))
    · exact (linkedGlobalsOfItems_append _ _).trans (congrArg _ (linkedGlobalsOfItems_negated right))

/-- What is read off from the factors of the sides, in order of first appearance, stays the same if
nothing is read off from numbers. -/
theorem addAllNew_form {β : Type} [DecidableEq β] (read : Factor → Option β)
    (hnumber : ∀ x, read (.number x) = none) (eq : Equation) :
    addAllNew (distinct (eq.form.lhs.factors.filterMap read))
        (distinct (eq.form.rhs.factors.filterMap read)) =
      addAllNew (distinct (eq.lhs.factors.filterMap read))
        (distinct (eq.rhs.factors.filterMap read)) := by
  obtain hsame | ⟨hfactors, -, hzero⟩ := eq.form_cases
  · rw [hsame]
  · have hnone : Expression.zero.factors.filterMap read = [] := by
      have hfactor : Expression.zero.factors = [.number 0] := rfl
      rw [hfactor, List.filterMap_cons_none (hnumber 0), List.filterMap_nil]
    rw [hfactors, hzero, hnone, List.filterMap_append, distinct_append]
    rfl

theorem functions_form (eq : Equation) : eq.form.functions = eq.functions :=
  addAllNew_form Factor.callKey? (fun _ => rfl) eq

theorem mem_freeVariablesLinked {eq : Equation} {name : Char} : name ∈ eq.freeVariablesLinked ↔
    name ∈ (eq.lhs.factors ++ eq.rhs.factors).filterMap Factor.freeName? ∨
      name ∈ eq.lhs.linkedGlobals ++ eq.rhs.linkedGlobals := by
  simp only [freeVariablesLinked, Expression.freeVariablesLinked, Expression.freeVariables,
    mem_addAllNew_iff, mem_distinct, List.filterMap_append, List.mem_append]
  exact or_or_or_comm

theorem mem_freeVariablesLinked_form (eq : Equation) (name : Char) :
    name ∈ eq.form.freeVariablesLinked ↔ name ∈ eq.freeVariablesLinked := by
  obtain hsame | ⟨hfactors, hglobals, hzero⟩ := eq.form_cases
  · rw [hsame]
  · have hnames : Expression.zero.factors.filterMap Factor.freeName? = [] := rfl
    have hreads : Expression.zero.linkedGlobals = [] := rfl
    rw [mem_freeVariablesLinked, mem_freeVariablesLinked, hfactors, hglobals, hzero, hreads,
      List.filterMap_append, hnames, List.append_nil, List.append_nil]

theorem linkComplete_form (eq : Equation) : eq.form.linkComplete = eq.linkComplete := by
  obtain hsame | ⟨hfactors, -, hzero⟩ := eq.form_cases
  · rw [hsame]
  · rw [linkComplete, linkComplete, Expression.linkComplete_eq, hfactors, hzero, List.all_append,
      ← Expression.linkComplete_eq, ← Expression.linkComplete_eq]
    exact Bool.and_true _

theorem fits_form_iff (eq : Equation) : eq.form.Fits ↔ eq.Fits := by
  obtain hsame | ⟨hfactors, -, hzero⟩ := eq.form_cases
  · rw [hsame]
  · have hnumber : Expression.zero.Fits := fun f hf => by
      obtain rfl : f = .number 0 := List.mem_singleton.1 hf
      trivial
    rw [Fits, Fits, Expression.Fits, hfactors, hzero, and_iff_left hnumber, List.forall_mem_append]
    rfl

theorem form_form (eq : Equation) : eq.form.form = eq.form := by
  obtain ⟨lhs, rhs, formed⟩ := eq
  cases formed <;> rfl

/-- Forming an equation keeps its meaning.  Over the values of a field and an undefined one it has the
same difference of the sides in every environment, whatever its calls are linked to, and its program
has the same result.  If all linked calls fit their definitions, which is so for trees without links
and after linking, then this result is the difference of the sides.  Forming twice is forming once,
the variables and functions of the sides are listed in the same order, the same variables are read
through links, and calls are linked as they were. -/
theorem form_keepsMeaning {K : Type} [Field K] [Scalar (FieldValue K)] [ExactField K]
    (eq : Equation) :
    (∀ env : Environment (FieldValue K), eq.form.compute env = eq.compute env ∧
      eq.form.program.run? (eq.form.program.bind env) = eq.program.run? (eq.program.bind env) ∧
      (eq.Fits → eq.form.program.run? (eq.form.program.bind env) = some (eq.compute env) ∧
        eq.form.program.eval env = eq.compute env)) ∧
    ((∀ f ∈ eq.lhs.factors ++ eq.rhs.factors, f.withoutLink = f) → eq.Fits) ∧
    (∀ table : FunctionTable, eq.Fits ∨ (eq.link table).2 = none → (eq.link table).1.Fits) ∧
    eq.form.form = eq.form ∧
    eq.form.allVariables = eq.allVariables ∧ eq.form.freeVariables = eq.freeVariables ∧
    eq.form.functions = eq.functions ∧
    (∀ name, name ∈ eq.form.freeVariablesLinked ↔ name ∈ eq.freeVariablesLinked) ∧
    eq.form.linkComplete = eq.linkComplete := by
  refine ⟨fun env => ⟨eq.compute_form env, eq.run?_form env, fun hfits => ?_⟩, fun hnone => ?_,
    fun table => fits_link table, eq.form_form, addAllNew_form _ (fun _ => rfl) eq,
    addAllNew_form _ (fun _ => rfl) eq, eq.functions_form, eq.mem_freeVariablesLinked_form,
    eq.linkComplete_form⟩
  · have hrun := run?_eq_compute (eq.fits_form_iff.2 hfits) env
    rw [eq.compute_form env] at hrun
    exact ⟨hrun, Program.eval_eq_of_run? hrun⟩
  · obtain ⟨hlhs, hrhs⟩ := List.forall_mem_append.1 hnone
    exact ⟨Expression.fits_of_withoutLink hlhs, Expression.fits_of_withoutLink hrhs⟩

/-- With `f(t) = tt`, the equation `xf(2) = 3 - \frac{1}{x}` between rational numbers is linked and
then formed.  Its sides differ by eleven halves for `x = 2`, and are undefined for `x = 0`. -/
theorem form_keepsMeaning_linkedFraction :
    let _ := FieldValue.exactly (K := ℚ) (fun _ _ => .undefined) fun _ _ => .undefined
    let x : Factor := .variable 'x' none
    let f : FunctionDefinition :=
      .make 'f' ['t'] ⟨[⟨true, [.variable 't' none, .variable 't' none]⟩]⟩
    let unlinked : Equation := .between ⟨[⟨true, [x, .call 'f' [.ofNumber 2] .unlinked]⟩]⟩
      ⟨[⟨true, [.number 3]⟩, ⟨false, [.reciprocal x]⟩]⟩
    let eq := (unlinked.link (Directory.empty.insert f)).1
    let env : Environment (FieldValue ℚ) := Environment.set .empty 'x' (.defined 2)
    let env' : Environment (FieldValue ℚ) := Environment.set .empty 'x' (.defined 0)
    eq.Fits ∧ eq.form.lhs.items.map Item.positive = [true, false, true] ∧
      eq.form.compute env = eq.compute env ∧ eq.form.program.eval env = eq.compute env ∧
      eq.compute env = .defined (11 / 2) ∧
      eq.form.program.eval env' = eq.compute env' ∧ eq.compute env' = .undefined := by
  intro _ x f unlinked eq env env'
  have : ExactField ℚ := FieldValue.exactField_exactly _ _
  obtain ⟨-, -, hlink, -⟩ := unlinked.form_keepsMeaning (K := ℚ)
  obtain ⟨hmeaning, -⟩ := eq.form_keepsMeaning (K := ℚ)
  have hfits : eq.Fits := hlink _ (.inr (by decide +kernel))
  obtain ⟨hform, -, hrun⟩ := hmeaning env
  obtain ⟨-, -, hrun'⟩ := hmeaning env'
  exact ⟨hfits, by decide +kernel, hform, (hrun hfits).2, by decide +kernel, (hrun' hfits).2,
    by decide +kernel⟩

/-- A call can be linked by hand to a function with another number of parameters.  The body of
`f(t) = 1` has a value without its argument, so the tree of `f() = 0` has one, formed or not, but the
machine does not make a call with a wrong number of arguments. -/
theorem form_program_ne_of_missingArgument :
    let _ := FieldValue.exactly (K := ℚ) (fun _ _ => .undefined) fun _ _ => .undefined
    let f : FunctionDefinition := .make 'f' ['t'] (.ofNumber 1)
    let eq : Equation := .between (.ofFactor (.call 'f' [] (.linked 0 f))) .zero
    let env : Environment (FieldValue ℚ) := .empty
    eq.compute env = .defined 1 ∧ eq.form.compute env = .defined 1 ∧
      eq.form.program.eval env = .undefined ∧ eq.form.program.eval env ≠ eq.compute env := by
  intro _ f eq env
  have hvalue : eq.compute env = .defined 1 := by decide +kernel
  have hprogram : eq.form.program.eval env = .undefined := by decide +kernel
  refine ⟨hvalue, by decide +kernel, hprogram, ?_⟩
  rw [hprogram, hvalue]
  exact nofun

end Equation

end ImplicitCurves

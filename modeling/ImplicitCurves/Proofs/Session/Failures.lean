import ImplicitCurves.Proofs.Session.Errors

/-!
# Where recursion is reported

Reading a text, solving an equation and sampling a curve have errors of their own, none of which is
about a function that is defined in terms of itself.  So only linking can report that: the main
statements say of each command that it does not, if linking with the definitions of the session never
fails.
-/

namespace ImplicitCurves

/-- Whether the cause is a function that is defined in terms of itself. -/
def Cause.isRecursion : Cause → Bool
  | recursiveFunction _ _ => true
  | _ => false

/-- The computation does not fail because of recursion. -/
def NeverRecursive {α : Type} (x : Except Error α) : Prop :=
  ∀ error, x = .error error → error.cause.isRecursion = false

theorem NeverRecursive.error {α : Type} {error : Error} (h : error.cause.isRecursion = false) :
    NeverRecursive (.error error : Except Error α) :=
  FailsOnly.error h

/-- What cannot be read is not recursive. -/
theorem Cause.isRecursion_of_isReading {cause : Cause} (h : cause.isReading = true) :
    cause.isRecursion = false := by
  cases cause <;> first | rfl | cases h

/-- Linking with the functions of a table never fails. -/
def FunctionTable.AlwaysLinks (table : FunctionTable) : Prop :=
  (∀ e : Expression, (e.link table).2 = none) ∧ ∀ eq : Equation, (eq.link table).2 = none

namespace FunctionTable.AlwaysLinks

variable {table : FunctionTable}

theorem expression (h : table.AlwaysLinks) (e : Expression) :
    e.linked table = .ok (e.link table).1 := by
  have hnone := h.1 e
  unfold Expression.linked
  split
  · next heq => rw [heq]
  · next heq =>
    rw [heq] at hnone
    cases hnone

theorem equation (h : table.AlwaysLinks) (eq : Equation) :
    eq.linked table = .ok (eq.link table).1 := by
  have hnone := h.2 eq
  unfold Equation.linked
  split
  · next heq => rw [heq]
  · next heq =>
    rw [heq] at hnone
    cases hnone

end FunctionTable.AlwaysLinks

/-- If linking never fails, nothing that can be wrong with a text is about recursion. -/
theorem TextError.isRecursion_cause {table : FunctionTable} {text : List Char} {e : Error}
    (he : TextError table text e) (h : table.AlwaysLinks) : e.cause.isRecursion = false := by
  cases he with
  | tokens he => exact Cause.isRecursion_of_isReading (isReading_of_tokenize he)
  | expression he => exact Cause.isRecursion_of_isReading (he.isReading Expression.isReading_explain)
  | equation he => exact Cause.isRecursion_of_isReading (he.isReading Equation.isReading_explain)
  | statement he => exact Cause.isRecursion_of_isReading (he.isReading Statement.isReading_explain)
  | linkedExpression he =>
    rw [h.expression] at he
    cases he
  | linkedEquation he =>
    rw [h.equation] at he
    cases he
  | _ => rfl

/-- No command fails because of recursion. -/
theorem Session.neverRecursive_command {s : Session} (h : s.definitions.functions.AlwaysLinks)
    {line : List Char} {schedule : Schedule} {answer : Except Error (List Char)}
    (hcommand : s.command line schedule = some answer) : NeverRecursive answer := by
  intro e he
  cases failsOnly_command hcommand e he with
  | usage => rfl
  | text hstrip htext =>
    rw [relocate_cause]
    exact htext.isRecursion_cause h

end ImplicitCurves

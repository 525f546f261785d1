import ImplicitCurves.Proofs.Sampling.Schedules
import ImplicitCurves.Proofs.Session.Errors
import ImplicitCurves.Proofs.Session.Orders

/-!
# Runs of a session

Two things are left open by the lines that a session executes: the order in which directories keep
their entries, which can be another one in front of each line, and the schedules of searches that are
done side by side.  A run takes some choice of both.  The first has no influence on anything that the
session answers, and the second only on which of the searches that fail is reported.
-/

namespace ImplicitCurves

namespace Session

/-! ### Schedules -/

/-- The answers are the same, or the errors of searches that numbers do not fit, at the same place. -/
def Alike (answer answer' : Except Error (List Char)) : Prop :=
  answer = answer' ∨ ∃ fault fault' spans, answer = .error ⟨.invalidSampling fault, spans⟩ ∧
    answer' = .error ⟨.invalidSampling fault', spans⟩

variable {s t u : Session} {schedule schedule' : Schedule}

variable {line : List Char} {lines : List (List Char)} {schedules schedules' : Nat → Schedule}
  {answers answers' : List (Except Error (List Char))}

end Session

end ImplicitCurves

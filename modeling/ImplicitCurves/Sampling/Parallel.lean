import ImplicitCurves.Sampling.Fault

/-!
# Searches side by side

The searches of a sweep are done side by side, in two passes.  If some searches of a pass fail, the
pass fails as one of them does, and which of them depends on how they happen to be scheduled.
-/

namespace ImplicitCurves

/-- The passes of a sweep: the coarse samples, then those between them. -/
inductive Pass where
  | coarse
  | refined
deriving DecidableEq, Repr

/-- Which of the failing searches of a pass is the one that is reported. -/
structure Schedule where
  /-- The index of the failing search that is reported, if there are so many others. -/
  reported : Axis → Pass → (others : Nat) → Fin (others + 1)

namespace Schedule

/-- The schedule in which searches are done one after another. -/
def inOrder : Schedule :=
  ⟨fun _ _ _ => 0⟩

/-- The errors of results, in order. -/
def failures {ε β : Type} (results : List (Except ε β)) : List ε :=
  results.filterMap fun result =>
    match result with
    | .ok _ => none
    | .error error => some error

/-- The results of a pass in order if none of them is an error, and else the error that is
reported. -/
def collect {ε β : Type} (schedule : Schedule) (axis : Axis) (pass : Pass)
    (results : List (Except ε β)) : Except ε (List β) :=
  match failures results with
  | [] => .ok (results.filterMap Except.toOption)
  | error :: errors =>
    .error ((error :: errors).get (schedule.reported axis pass errors.length))

end Schedule

end ImplicitCurves

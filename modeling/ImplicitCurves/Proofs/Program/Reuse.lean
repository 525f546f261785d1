import ImplicitCurves.Roots.Equation

/-!
# One machine for many runs

A search runs one machine again and again, each time with another value in a slot.  A run clears what
those before it left on the stacks and changes no values of variables, so what the search sees is a
function of the value in the slot.  Main statement: `Machine.evalEach_eq`.
-/

namespace ImplicitCurves.Machine

variable {α : Type} [Scalar α]

/-- A run changes neither the program nor the values of the variables. -/
theorem eval_snd (m : Machine α) :
    m.eval.2.program = m.program ∧ m.eval.2.slots = m.slots := by
  unfold eval
  dsimp only
  split <;> exact ⟨rfl, rfl⟩

theorem evalAt_fst (m : Machine α) (slot : Option Nat) (x : α) :
    (m.evalAt slot x).1 = m.program.asFunction m.slots slot x := by
  cases slot with
  | none => exact m.eval_fst
  | some slot => exact (m.setSlot slot x).eval_fst

/-- The machine after a run has the value in its slot, which the next run replaces. -/
theorem asFunction_evalAt (m : Machine α) (slot : Option Nat) (x : α) :
    (m.evalAt slot x).2.program.asFunction (m.evalAt slot x).2.slots slot =
      m.program.asFunction m.slots slot := by
  cases slot with
  | none =>
    obtain ⟨hprogram, hslots⟩ := m.eval_snd
    change m.eval.2.program.asFunction m.eval.2.slots none = _
    rw [hprogram, hslots]
  | some slot =>
    obtain ⟨hprogram, hslots⟩ := (m.setSlot slot x).eval_snd
    change (m.setSlot slot x).eval.2.program.asFunction (m.setSlot slot x).eval.2.slots
      (some slot) = _
    rw [hprogram, hslots]
    funext y
    exact congrArg m.program.run (Array.setIfInBounds_setIfInBounds ..)

/-- The values of runs for one value of a slot after another, all of them by one machine. -/
def evalEach (slot : Option Nat) : List α → Machine α → List α
  | [], _ => []
  | x :: xs, m =>
    let (value, m) := m.evalAt slot x
    value :: evalEach slot xs m

/-- The runs of one machine give the values of a function, whatever is on its stacks at first. -/
theorem evalEach_eq (m : Machine α) (slot : Option Nat) (xs : List α) :
    m.evalEach slot xs = xs.map (m.program.asFunction m.slots slot) := by
  induction xs generalizing m with
  | nil => rfl
  | cons x xs ih =>
    have hstep : m.evalEach slot (x :: xs) =
        (m.evalAt slot x).1 :: (m.evalAt slot x).2.evalEach slot xs := rfl
    rw [hstep, ih, asFunction_evalAt, evalAt_fst, List.map_cons]

end ImplicitCurves.Machine

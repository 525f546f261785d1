import ImplicitCurves.Error
import ImplicitCurves.Program.Compiler
import ImplicitCurves.Program.Machine
import ImplicitCurves.Roots.Search

/-!
# Roots of equations

Solving an equation for its only variable without a value.
-/

namespace ImplicitCurves

/-- The value of a program as a function of the variable in a slot, or the same value everywhere if
there is no slot. -/
def Program.asFunction {α : Type} [Scalar α] (p : Program) (slots : Array α) (slot : Option Nat)
    (x : α) : α :=
  match slot with
  | some slot => p.run (setSlot slots slot x)
  | none => p.run slots

/-- The variables of an equation that have no value in an environment. -/
def Equation.unbound {α : Type} (eq : Equation) (env : Environment α) : List Char :=
  eq.freeVariablesLinked.filter (!env.contains ·)

/-- The values in a range that solve an equation for its only variable without a value. -/
def Equation.findRoots (eq : Equation) (env : Environment Float) (low high : Float)
    (o : RootOptions Float) : Except Error (List Float) :=
  let formed := eq.form
  match formed.unbound env with
  | [name] =>
    let p := formed.program
    (ImplicitCurves.findRoots (p.asFunction (p.bind env) (p.slot name)) low high o).mapError
      Error.ofFault
  | unbound => .error ⟨.rootPrecondition unbound, []⟩

end ImplicitCurves

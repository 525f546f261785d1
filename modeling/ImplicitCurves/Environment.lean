import ImplicitCurves.Directory
import ImplicitCurves.Scalar

/-!
# Environments

An environment gives values to variables.  A scope is what an expression is evaluated in: the
environment, and in front of it the arguments of the function whose body is being evaluated.
-/

namespace ImplicitCurves

/-- The values of variables, by name. -/
abbrev Environment (α : Type) := Directory (Prod.fst : Char × α → Char)

namespace Environment

variable {α : Type}

/-- The value of a variable. -/
def value? (env : Environment α) (name : Char) : Option α :=
  (env.find? name).map (·.2)

/-- Gives a variable a value, in place of the one it had. -/
def set (env : Environment α) (name : Char) (value : α) : Environment α :=
  env.insert (name, value)

theorem value?_set (env : Environment α) (name : Char) (value : α) (name' : Char) :
    (env.set name value).value? name' = if name' = name then some value else env.value? name' := by
  rw [value?, set, Directory.find?_insert]
  by_cases hname : name' = name
  · rw [if_pos hname, if_pos hname.symm, Option.map_some]
  · rw [if_neg hname, if_neg (Ne.symm hname), value?]

end Environment

/-- The environment and the arguments of the current function, which hide variables of the same
name. -/
structure Scope (α : Type) where
  environment : Environment α
  arguments : List (Char × α)

namespace Scope

variable {α : Type}

/-- The scope outside of all functions. -/
def outermost (env : Environment α) : Scope α := ⟨env, []⟩

/-- The scope of a function body.  The arguments of the calling function cannot be seen in it. -/
def enter (scope : Scope α) (arguments : List (Char × α)) : Scope α :=
  { scope with arguments }

/-- The value of a name: the first argument of that name, else the value of the variable. -/
def value? (scope : Scope α) (name : Char) : Option α :=
  (scope.arguments.lookup name).or (scope.environment.value? name)

end Scope

end ImplicitCurves

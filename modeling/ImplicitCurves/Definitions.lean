import ImplicitCurves.Tree.Statement

/-!
# Definitions

The variables and functions that the user has defined.
-/

namespace ImplicitCurves

/-- Values of variables and definitions of functions. -/
structure Definitions where
  values : Environment Float
  functions : FunctionTable

namespace Definitions

/-- No definitions. -/
def empty : Definitions :=
  ⟨.empty, .empty⟩

/-- Defines a variable, in place of the one of that name. -/
def defineVariable (d : Definitions) (v : VariableDefinition) : Definitions :=
  { d with values := d.values.set v.name v.value }

/-- Defines a function, in place of the one of that name and number of parameters. -/
def defineFunction (d : Definitions) (f : FunctionDefinition) : Definitions :=
  { d with functions := d.functions.insert f }

/-- Takes up a statement if it is a definition; gives back any other statement. -/
def define (d : Definitions) : Statement → Option Statement × Definitions
  | .variable v => (none, d.defineVariable v)
  | .function f => (none, d.defineFunction f)
  | other => (some other, d)

/-- The values of the variables, to be put in their place. -/
def bindings (d : Definitions) : Bindings :=
  d.values.entries.map fun (name, value) => (name, .value value)

/-- The texts of all definitions: variables by name, then functions by key. -/
def texts (d : Definitions) : List (List Char) :=
  d.values.sorted.map (fun (name, value) => VariableDefinition.text ⟨name, value⟩) ++
    d.functions.sorted.map FunctionDefinition.text

end Definitions

end ImplicitCurves

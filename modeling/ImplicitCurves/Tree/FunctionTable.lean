import ImplicitCurves.Directory
import ImplicitCurves.Tree

/-!
# Tables of functions

The functions that a computation may call, with one definition for each key.
-/

namespace ImplicitCurves

/-- Definitions of functions, by key. -/
abbrev FunctionTable := Directory FunctionDefinition.key

namespace FunctionTable

variable {table : FunctionTable} {key : FunctionKey} {d : FunctionDefinition}

theorem mem_of_find? (h : table.find? key = some d) : d ∈ table.entries :=
  List.mem_of_find?_eq_some h

theorem find?_insert_eq (table : FunctionTable) (d : FunctionDefinition) (key : FunctionKey) :
    (table.insert d).find? key = if key = d.key then some d else table.find? key := by
  rw [Directory.find?_insert]
  by_cases hkey : key = d.key
  · rw [if_pos hkey, if_pos hkey.symm]
  · rw [if_neg hkey, if_neg (Ne.symm hkey)]

theorem key_of_find? (h : table.find? key = some d) : d.key = key := by
  unfold Directory.find? at h
  simpa using List.find?_some h

end FunctionTable

end ImplicitCurves

import ImplicitCurves.Proofs.Tree.Linking
import Mathlib.Data.List.Chain
import Mathlib.Logic.Relation

/-!
# Recursive definitions

Which functions of a table call which others, and what it means that a function leads to one that is
defined in terms of itself.  While definitions are worked on, the stack of their keys is a chain of
calls, so a call of a function that is on it closes a cycle: main statement
`FunctionTable.namesCycle_of_mem`.
-/

namespace ImplicitCurves

/-- The keys of the calls among factors. -/
def callKeys (fs : List Factor) : List FunctionKey :=
  fs.filterMap Factor.callKey?

@[simp] theorem callKeys_append (fs gs : List Factor) : callKeys (fs ++ gs) = callKeys fs ++ callKeys gs :=
  List.filterMap_append

theorem Expression.mem_functions {e : Expression} {key : FunctionKey} :
    key ∈ e.functions ↔ key ∈ callKeys e.factors :=
  mem_distinct

namespace FunctionTable

variable {table : FunctionTable} {key key' : FunctionKey} {stack : List FunctionKey}

/-- The body of the definition of the first function calls the second one, at any place. -/
def Calls (table : FunctionTable) (key key' : FunctionKey) : Prop :=
  ∃ d, table.find? key = some d ∧ key' ∈ d.body.functions

/-- A function leads to a cycle if it is, or calls through others, a function that calls itself
through others. -/
def LeadsToCycle (table : FunctionTable) (key : FunctionKey) : Prop :=
  ∃ key', Relation.ReflTransGen table.Calls key key' ∧ Relation.TransGen table.Calls key' key'

/-- Calls that start with the function come to an end. -/
def Grounded (table : FunctionTable) (key : FunctionKey) : Prop :=
  Acc (fun callee caller => table.Calls caller callee) key

/-- An error that tells a cycle of calls: the chain ends where it starts, has no other repetition,
and each function of it is in the table and calls the next one. -/
def NamesCycle (table : FunctionTable) (error : Error) : Prop :=
  ∃ first rest, error.cause = .recursiveFunction first.name (first :: rest ++ [first]) ∧
    (first :: rest).Nodup ∧ (∀ key ∈ first :: rest, table.contains key = true) ∧
    (first :: rest ++ [first]).IsChain table.Calls

theorem LeadsToCycle.of_calls (h : table.LeadsToCycle key') (hcalls : table.Calls key key') :
    table.LeadsToCycle key := by
  obtain ⟨last, hpath, hcycle⟩ := h
  exact ⟨last, .head hcalls hpath, hcycle⟩

/-- A function whose calls come to an end does not lead to a cycle. -/
theorem Grounded.not_leadsToCycle (h : table.Grounded key) : ¬ table.LeadsToCycle key := by
  induction h with
  | intro key _ ih =>
    rintro ⟨last, hpath, hcycle⟩
    have hnext : ∃ next, table.Calls key next ∧ table.LeadsToCycle next := by
      rcases Relation.ReflTransGen.cases_head hpath with rfl | ⟨next, hcalls, hrest⟩
      · obtain ⟨next, hcalls, hback⟩ := Relation.TransGen.head'_iff.1 hcycle
        exact ⟨next, hcalls, key, hback, hcycle⟩
      · exact ⟨next, hcalls, last, hrest, hcycle⟩
    obtain ⟨next, hcalls, hleads⟩ := hnext
    exact ih next hcalls hleads

/-- A function without a definition calls nothing. -/
theorem grounded_of_find?_eq_none (h : table.find? key = none) : table.Grounded key := by
  refine Acc.intro key fun callee hcalls => ?_
  obtain ⟨d, hd, -⟩ := hcalls
  exact absurd (h.symm.trans hd) (Option.some_ne_none d).symm

/-- A function is grounded if everything that its body calls is. -/
theorem grounded_of_body {d : FunctionDefinition} (hkey : table.find? key = some d)
    (h : ∀ key' ∈ callKeys d.body.factors, table.Grounded key') : table.Grounded key := by
  refine Acc.intro key fun callee hcalls => ?_
  obtain ⟨d', hd', hcallee⟩ := hcalls
  obtain rfl := Option.some.inj (hkey.symm.trans hd')
  exact h callee (Expression.mem_functions.1 hcallee)

/-- A function leads to a cycle if something that its body calls does. -/
theorem leadsToCycle_of_body {d : FunctionDefinition} (hkey : table.find? key = some d)
    (h : ∃ key' ∈ callKeys d.body.factors, table.LeadsToCycle key') : table.LeadsToCycle key := by
  obtain ⟨key', hmem, hleads⟩ := h
  exact hleads.of_calls ⟨d, hkey, Expression.mem_functions.2 hmem⟩

/-- A function may be met while the definitions of a stack are worked on: it has no definition, or
the last one of the stack calls it, as each of them calls the next one. -/
def Admits (table : FunctionTable) (stack : List FunctionKey) (key : FunctionKey) : Prop :=
  table.find? key = none ∨ (stack ++ [key]).IsChain table.Calls

theorem admits_nil (table : FunctionTable) (key : FunctionKey) : table.Admits [] key :=
  .inr (List.isChain_singleton key)

/-- The calls in the body of a definition may be met while it is worked on. -/
theorem Admits.push {d : FunctionDefinition} (h : table.Admits stack key)
    (hkey : table.find? key = some d) :
    ∀ key' ∈ callKeys d.body.factors, table.Admits (stack ++ [key]) key' := by
  intro key' hmem
  rcases h with hnone | hchain
  · exact absurd (hnone.symm.trans hkey) (Option.some_ne_none d).symm
  · have hcalls : table.Calls key key' := ⟨d, hkey, Expression.mem_functions.2 hmem⟩
    refine .inr (List.isChain_append.2 ⟨hchain, List.isChain_singleton key', ?_⟩)
    simpa using hcalls

theorem transGen_of_isChain {α : Type} {r : α → α → Prop} {first last : α} {rest : List α}
    (h : (first :: rest ++ [last]).IsChain r) : Relation.TransGen r first last := by
  induction rest generalizing first with
  | nil => exact .single (List.isChain_cons_cons.1 h).1
  | cons next rest ih =>
    obtain ⟨hstep, hrest⟩ := List.isChain_cons_cons.1 h
    exact .head hstep (ih hrest)

/-- A call of a function that is on the stack closes a cycle, which the error tells. -/
theorem namesCycle_of_mem {depth : Nat} (hcovers : table.Covers depth stack)
    (hchain : (stack ++ [key]).IsChain table.Calls) (hmem : key ∈ stack) :
    table.NamesCycle (recursionError stack key) ∧ table.LeadsToCycle key := by
  obtain ⟨front, rest, rfl, hfront⟩ := List.eq_append_cons_of_mem hmem
  have hcycle : (front ++ key :: rest).dropWhile (· ≠ key) = key :: rest := by
    rw [List.dropWhile_append_of_pos]
    · simp
    · intro other hother
      simpa using fun heq : other = key => hfront (heq ▸ hother)
  have hback : (key :: rest ++ [key]).IsChain table.Calls := by
    rw [List.append_assoc] at hchain
    exact (List.isChain_append.1 hchain).2.1
  refine ⟨⟨key, rest, ?_, ?_, ?_, hback⟩, key, .refl, transGen_of_isChain hback⟩
  · rw [recursionError, hcycle]
  · exact (List.nodup_append.1 hcovers.nodup).2.1
  · intro other hother
    obtain ⟨d, hd⟩ := hcovers.contained other (List.mem_append_right _ hother)
    rw [Directory.contains, hd]
    rfl

end FunctionTable

end ImplicitCurves

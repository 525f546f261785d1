import ImplicitCurves.Proofs.Tree.FaithfulLinks

/-!
# What linked definitions read

A linked definition reads the variables of its body that are not parameters, and what the definitions
called in its body read.  So what a call reads is told by the table alone: its key leads to a
definition that has the variable free in its body.
-/

namespace ImplicitCurves

/-- The variables that the definition of a call reads; other factors call none. -/
def Factor.ownGlobals : Factor → List Char
  | .call _ _ link => link.globals
  | _ => []

mutual

/-- The definitions that a tree calls are those of its calls, one by one. -/
theorem Expression.linkedGlobals_eq : ∀ e : Expression,
    e.linkedGlobals = e.factors.flatMap Factor.ownGlobals
  | ⟨items⟩ => linkedGlobalsOfItems_eq items

theorem linkedGlobalsOfItems_eq : ∀ is : List Item,
    linkedGlobalsOfItems is = (factorsOfItems is).flatMap Factor.ownGlobals
  | [] => rfl
  | ⟨_, factors⟩ :: is => by
    rw [linkedGlobalsOfItems, Item.linkedGlobals, factorsOfItems, Item.allFactors,
      List.flatMap_append, linkedGlobalsOfFactors_eq factors, linkedGlobalsOfItems_eq is]

theorem linkedGlobalsOfFactors_eq : ∀ fs : List Factor,
    linkedGlobalsOfFactors fs = (factorsOfFactors fs).flatMap Factor.ownGlobals
  | [] => rfl
  | f :: fs => by
    rw [linkedGlobalsOfFactors, factorsOfFactors, List.flatMap_append, f.linkedGlobals_eq,
      linkedGlobalsOfFactors_eq fs]

theorem Factor.linkedGlobals_eq : ∀ f : Factor,
    f.linkedGlobals = f.withInner.flatMap Factor.ownGlobals
  | .number _ | .constant _ | .variable _ _ => rfl
  | .fraction a b | .power a b | .logarithm a b => by
    rw [Factor.linkedGlobals, Factor.withInner, List.flatMap_cons, List.flatMap_append,
      a.linkedGlobals_eq, b.linkedGlobals_eq]
    rfl
  | .bracket a | .unary _ a => by
    rw [Factor.linkedGlobals, Factor.withInner, List.flatMap_cons, a.linkedGlobals_eq]
    rfl
  | .call _ arguments link => by
    rw [Factor.linkedGlobals, Factor.withInner, List.flatMap_cons,
      linkedGlobalsOfExpressions_eq arguments]
    rfl

theorem linkedGlobalsOfExpressions_eq : ∀ es : List Expression,
    linkedGlobalsOfExpressions es = (factorsOfExpressions es).flatMap Factor.ownGlobals
  | [] => rfl
  | e :: es => by
    rw [linkedGlobalsOfExpressions, factorsOfExpressions, List.flatMap_append, e.linkedGlobals_eq,
      linkedGlobalsOfExpressions_eq es]

end

theorem freeName?_withoutLink (f : Factor) :
    (f.mapChildren Factor.withoutLink).withoutLink.freeName? = f.freeName? := by
  cases f <;> rfl

/-- Trees that are the same but for links have the same free variables. -/
theorem Expression.freeVariables_congr {e e' : Expression} (h : e.unlink = e'.unlink) :
    e.freeVariables = e'.freeVariables :=
  congrArg distinct (filterMap_congr freeName?_withoutLink h)

/-- A function reads a variable of the environment: its definition in the table, or one that is reached
from it through the bodies of the table, has it in its body and not among its parameters. -/
def FunctionTable.Reads (table : FunctionTable) (name : Char) (key : FunctionKey) : Prop :=
  ∃ key' d, Relation.ReflTransGen table.Calls key key' ∧ table.find? key' = some d ∧
    name ∈ d.body.freeVariables ∧ name ∉ d.parameters

section Reads

variable {table : FunctionTable} {pass : Nat} {name : Char} {key : FunctionKey} {link : Link}
  {factors : List Factor}

/-- A function that is not in the table reads nothing. -/
theorem FunctionTable.not_reads_of_find?_eq_none (h : table.find? key = none) :
    ¬ table.Reads name key := by
  rintro ⟨key', d, hpath, hd, -⟩
  rcases Relation.ReflTransGen.cases_head hpath with rfl | ⟨next, ⟨d', hd', -⟩, -⟩
  · cases h.symm.trans hd
  · cases h.symm.trans hd'

/-- A function reads what its body reads itself, and what the functions called in its body read. -/
theorem FunctionTable.reads_iff {d : FunctionDefinition} (hkey : table.find? key = some d) :
    table.Reads name key ↔ (name ∈ d.body.freeVariables ∧ name ∉ d.parameters) ∨
      ∃ key' ∈ callKeys d.body.factors, table.Reads name key' := by
  constructor
  · rintro ⟨last, d', hpath, hd', hreads⟩
    rcases Relation.ReflTransGen.cases_head hpath with rfl | ⟨next, ⟨d'', hd'', hmem⟩, hrest⟩
    · obtain rfl := Option.some.inj (hkey.symm.trans hd')
      exact .inl hreads
    · obtain rfl := Option.some.inj (hkey.symm.trans hd'')
      exact .inr ⟨next, Expression.mem_functions.1 hmem, last, d', hrest, hd', hreads⟩
  · rintro (hreads | ⟨next, hmem, last, d', hpath, hreads⟩)
    · exact ⟨key, d, .refl, hkey, hreads⟩
    · exact ⟨last, d', .head ⟨d, hkey, Expression.mem_functions.2 hmem⟩ hpath, hreads⟩

/-- If a property of keys tells what links read, then what a tree reads through its calls is told by
the keys of these. -/
theorem mem_ownGlobals_iff {reads : FunctionKey → Prop}
    (h : ∀ callee arguments link, .call callee arguments link ∈ factors →
      (name ∈ link.globals ↔ reads ⟨callee, arguments.length⟩)) :
    name ∈ factors.flatMap Factor.ownGlobals ↔ ∃ key ∈ callKeys factors, reads key := by
  rw [List.mem_flatMap]
  constructor
  · rintro ⟨f, hf, hmem⟩
    cases f with
    | call callee arguments link =>
      exact ⟨_, List.mem_filterMap.2 ⟨_, hf, rfl⟩, (h callee arguments link hf).1 hmem⟩
    | _ => cases hmem
  · rintro ⟨key, hkey, hreads⟩
    obtain ⟨f, hf, hcall⟩ := List.mem_filterMap.1 hkey
    cases f with
    | call callee arguments link =>
      obtain rfl := Option.some.inj hcall
      exact ⟨_, hf, (h callee arguments link hf).2 hreads⟩
    | _ => cases hcall

/-- The link that a pass gives to a call reads what its key reads. -/
theorem Link.StandsFor.mem_globals_iff (h : link.StandsFor table pass key) :
    name ∈ link.globals ↔ table.Reads name key := by
  induction h with
  | unlinked hnone => exact iff_of_false List.not_mem_nil (FunctionTable.not_reads_of_find?_eq_none hnone)
  | @linked key d body hkey hunlink _ ih =>
    have hglobals : (Link.linked pass { d with body }).globals =
        body.freeVariables.filter (!d.parameters.contains ·) ++ body.linkedGlobals := rfl
    rw [hglobals, List.mem_append, List.mem_filter, body.linkedGlobals_eq, mem_ownGlobals_iff ih,
      FunctionTable.reads_iff hkey, Expression.freeVariables_congr hunlink,
      Expression.callKeys_congr hunlink]
    simp

theorem CallsStand.mem_ownGlobals_iff (h : CallsStand table pass factors) :
    name ∈ factors.flatMap Factor.ownGlobals ↔ ∃ key ∈ callKeys factors, table.Reads name key :=
  ImplicitCurves.mem_ownGlobals_iff fun callee arguments link hmem =>
    (h callee arguments link hmem).mem_globals_iff

end Reads

end ImplicitCurves

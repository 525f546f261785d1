import ImplicitCurves.Proofs.Session.Executing
import ImplicitCurves.Proofs.Session.Failures
import ImplicitCurves.Proofs.Tree.Detection

/-!
# Definitions of a session

No function that a session knows is defined in terms of itself.  A definition may call functions that
do not exist yet, and replace one that others call, so a cycle can be closed by any definition; but it
then goes through the function that is being defined, and a call of that one tells.  Main statement:
`Session.acyclic_executeAll`.
-/

namespace ImplicitCurves

namespace FunctionTable

variable {table : FunctionTable}

/-- No function calls itself, directly or through others. -/
def Acyclic (table : FunctionTable) : Prop :=
  ∀ key, ¬ Relation.TransGen table.Calls key key

theorem Acyclic.not_leadsToCycle (h : table.Acyclic) (key : FunctionKey) : ¬ table.LeadsToCycle key := by
  rintro ⟨key', -, hcycle⟩
  exact h key' hcycle

theorem TellsRecursion.eq_none {called : List FunctionKey} {failure : Option Error}
    (h : table.TellsRecursion called failure) (hacyclic : table.Acyclic) : failure = none := by
  refine Option.not_isSome_iff_eq_none.1 fun hfailed => ?_
  obtain ⟨key, -, hleads⟩ := h.isSome_iff.1 hfailed
  exact hacyclic.not_leadsToCycle key hleads

theorem Acyclic.alwaysLinks (h : table.Acyclic) : table.AlwaysLinks :=
  ⟨fun e => (e.tellsRecursion_link table).eq_none h, fun eq => (eq.tellsRecursion_link table).eq_none h⟩

theorem acyclic_empty : FunctionTable.Acyclic .empty := by
  intro key hcycle
  obtain ⟨key', ⟨d, hd, -⟩, -⟩ := Relation.TransGen.head'_iff.1 hcycle
  cases hd

/-- Calls of functions other than the new one were there before. -/
theorem calls_of_insert {f : FunctionDefinition} {key key' : FunctionKey}
    (h : Calls (table.insert f) key key') (hkey : key ≠ f.key) : table.Calls key key' := by
  obtain ⟨d, hd, hmem⟩ := h
  rw [find?_insert_eq, if_neg hkey] at hd
  exact ⟨d, hd, hmem⟩

/-- A chain of calls was there before, or goes through the new function. -/
theorem transGen_of_insert {f : FunctionDefinition} {key key' : FunctionKey}
    (h : Relation.TransGen (Calls (table.insert f)) key key') :
    Relation.TransGen table.Calls key key' ∨
      (Relation.ReflTransGen (Calls (table.insert f)) key f.key ∧
        Relation.TransGen (Calls (table.insert f)) f.key key') := by
  induction h with
  | single hcalls =>
    by_cases hkey : key = f.key
    · subst hkey
      exact .inr ⟨.refl, .single hcalls⟩
    · exact .inl (.single (calls_of_insert hcalls hkey))
  | @tail middle last hpath hcalls ih =>
    by_cases hmiddle : middle = f.key
    · subst hmiddle
      exact .inr ⟨hpath.to_reflTransGen, .single hcalls⟩
    · rcases ih with hold | ⟨hto, hfrom⟩
      · exact .inl (.tail hold (calls_of_insert hcalls hmiddle))
      · exact .inr ⟨hto, .tail hfrom hcalls⟩

/-- A definition keeps a table without cycles if the function that it defines leads to none. -/
theorem Acyclic.insert (h : table.Acyclic) {f : FunctionDefinition}
    (hnew : ¬ LeadsToCycle (table.insert f) f.key) : FunctionTable.Acyclic (table.insert f) := by
  intro key hcycle
  rcases transGen_of_insert hcycle with hold | ⟨hto, hfrom⟩
  · exact h key hold
  · exact hnew ⟨f.key, .refl, .trans_left hfrom hto⟩

end FunctionTable

namespace Definitions

/-- Only the value of the variable differs: it is the one that is defined. -/
def SetsVariable (v : VariableDefinition) (d d' : Definitions) : Prop :=
  d'.functions = d.functions ∧
    ∀ name, d'.values.value? name = if name = v.name then some v.value else d.values.value? name

/-- Only the definition of the function differs: it is the new one. -/
def SetsFunction (f : FunctionDefinition) (d d' : Definitions) : Prop :=
  d'.values = d.values ∧
    ∀ key, d'.functions.find? key = if key = f.key then some f else d.functions.find? key

theorem setsVariable_defineVariable (d : Definitions) (v : VariableDefinition) :
    SetsVariable v d (d.defineVariable v) :=
  ⟨rfl, fun name => d.values.value?_set v.name v.value name⟩

theorem setsFunction_defineFunction (d : Definitions) (f : FunctionDefinition) :
    SetsFunction f d (d.defineFunction f) :=
  ⟨rfl, fun key => d.functions.find?_insert_eq f key⟩

end Definitions

namespace Session

/-- What a line does.  An error leaves the session as it was, and it is about recursion only if the
line defines a function.  Otherwise the session stays as it was, or the one variable or function that
the line defines is set. -/
def Behaves (s : Session) (line : List Char) : Except Error (List Char) × Session → Prop
  | (.error error, t) => t = s ∧ (error.cause.isRecursion = true →
      s.command line = none ∧ ∃ f, parse Statement (Text.trim line) = .ok (.function f))
  | (.ok _, t) => t.viewport = s.viewport ∧ (t.definitions = s.definitions ∨ s.command line = none ∧
      ((∃ v, parse Statement (Text.trim line) = .ok (.variable v) ∧
          Definitions.SetsVariable v s.definitions t.definitions) ∨
        ∃ f, parse Statement (Text.trim line) = .ok (.function f) ∧
          Definitions.SetsFunction f s.definitions t.definitions))

variable {s : Session}

theorem behaves_of_neverRecursive {line : List Char} {answer : Except Error (List Char)}
    (h : NeverRecursive answer) : s.Behaves line (answer, s) := by
  cases answer with
  | ok text => exact ⟨rfl, .inl rfl⟩
  | error error =>
    refine ⟨rfl, fun hrecursion => ?_⟩
    rw [h error rfl] at hrecursion
    cases hrecursion

/-- A definition that passes the check closes no cycle. -/
theorem acyclic_of_checkRecursion (h : s.definitions.functions.Acyclic) {f : FunctionDefinition}
    (hcheck : s.checkRecursion f = .ok ()) :
    FunctionTable.Acyclic (s.definitions.functions.insert f) := by
  let probe := Expression.ofFactor (.call f.name (f.parameters.map fun _ => .zero) .unlinked)
  have htells := probe.tellsRecursion_link (s.definitions.functions.insert f)
  have hprobe : f.key ∈ probe.functions := by
    rw [Expression.mem_functions]
    refine List.mem_filterMap.2 ⟨_, List.mem_cons_self, ?_⟩
    rw [Factor.callKey?, List.length_map, FunctionDefinition.key]
  refine h.insert fun hleads => ?_
  obtain ⟨error, herror⟩ := Option.isSome_iff_exists.1 (htells.isSome_iff.2 ⟨_, hprobe, hleads⟩)
  have hfailed : probe.linked (s.definitions.functions.insert f) = .error error := by
    unfold Expression.linked
    split
    · next hlink =>
      rw [hlink] at herror
      cases herror
    · next hlink =>
      rw [hlink] at herror
      rw [Option.some.inj herror]
  have hbind : s.checkRecursion f =
      probe.linked (s.definitions.functions.insert f) >>= fun _ => pure () := rfl
  rw [hcheck, hfailed] at hbind
  cases hbind

/-- A line of a session without recursive definitions. -/
theorem acyclic_execute (h : s.definitions.functions.Acyclic) (line : List Char)
    (schedule : Schedule) :
    (s.execute line schedule).2.definitions.functions.Acyclic ∧
      s.Behaves line (s.execute line schedule) := by
  have hexecutes := s.executes line schedule
  generalize s.execute line schedule = r at hexecutes ⊢
  cases hexecutes with
  | command hcommand =>
    exact ⟨h, behaves_of_neverRecursive (neverRecursive_command h.alwaysLinks hcommand)⟩
  | @unreadable error _ hparse =>
    have hanswer : NeverRecursive (.error (relocate (indentation line) (Text.trim line) error) :
        Except Error (List Char)) := by
      refine .error ?_
      rw [relocate_cause]
      exact Cause.isRecursion_of_isReading
        ((failsOnly_parse error hparse).isReading Statement.isReading_explain)
    exact ⟨h, behaves_of_neverRecursive hanswer⟩
  | @«variable» v hcommand hparse =>
    refine ⟨h, rfl, .inr ⟨command_eq_none_iff.2 hcommand, .inl ⟨v, hparse, ?_⟩⟩⟩
    exact s.definitions.setsVariable_defineVariable v
  | @function f hcommand hparse hcheck =>
    refine ⟨acyclic_of_checkRecursion h hcheck, rfl, ?_⟩
    refine .inr ⟨command_eq_none_iff.2 hcommand, .inr ⟨f, hparse, ?_⟩⟩
    exact s.definitions.setsFunction_defineFunction f
  | @recursive f _ hcommand hparse hcheck =>
    exact ⟨h, rfl, fun _ => ⟨command_eq_none_iff.2 hcommand, f, hparse⟩⟩
  | @unlinked e _ _ _ hlinked =>
    rw [h.alwaysLinks.expression e] at hlinked
    cases hlinked
  | value _ _ _ => exact ⟨h, rfl, .inl rfl⟩
  | equation _ _ => exact ⟨h, rfl, .inl rfl⟩

theorem acyclic_of_executeAll (h : s.definitions.functions.Acyclic) (lines : List (List Char))
    (schedules : Nat → Schedule) :
    (s.executeAll lines schedules).2.definitions.functions.Acyclic := by
  induction lines generalizing s schedules with
  | nil => exact h
  | cons line lines ih => exact ih (acyclic_execute h line _).1 _

/-- After any lines from the start of a session, no function is defined in terms of itself, directly
or through others; linking with its functions never fails; and of any next line, an error leaves the
session as it was and is about recursion only if the line defines a function, and without an error at
most the one variable or function that the line defines is changed. -/
theorem acyclic_executeAll (viewport : Viewport Float) (lines : List (List Char))
    (schedules : Nat → Schedule) :
    let s := ((start viewport).executeAll lines schedules).2
    s.definitions.functions.Acyclic ∧ s.definitions.functions.AlwaysLinks ∧
      ∀ line schedule, s.Behaves line (s.execute line schedule) := by
  intro s
  have hacyclic : s.definitions.functions.Acyclic :=
    acyclic_of_executeAll FunctionTable.acyclic_empty lines schedules
  exact ⟨hacyclic, hacyclic.alwaysLinks, fun line schedule =>
    (acyclic_execute hacyclic line schedule).2⟩

end Session

end ImplicitCurves

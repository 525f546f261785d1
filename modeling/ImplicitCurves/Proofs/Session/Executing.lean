import ImplicitCurves.Session

/-!
# What a line does

All the ways in which a session executes a line, as an inductive predicate.  Which lines are commands
is told by their text alone.  A line that is answered with an error leaves the session as it was, and no
line changes the viewport.
-/

namespace ImplicitCurves

namespace Session

/-- Whether a line starts with the word of a command. -/
def isCommand (line : List Char) : Bool :=
  [Command.roots, .sample, .definitions, .listing].any fun c => (stripCommand c line).isSome

/-- Which lines are commands depends neither on the session nor on the schedule. -/
theorem isSome_command (s : Session) (line : List Char) (schedule : Schedule) :
    (s.command line schedule).isSome = isCommand line := by
  unfold command isCommand
  simp only [List.any_cons, List.any_nil, Bool.or_false]
  cases stripCommand .roots line with
  | some =>
    dsimp only
    split <;> rfl
  | none =>
    cases stripCommand .sample line with
    | some =>
      dsimp only
      split <;> rfl
    | none =>
      cases stripCommand .definitions line with
      | some => rfl
      | none =>
        cases stripCommand .listing line with
        | none => rfl
        | some arguments =>
          dsimp only
          split
          · rfl
          · split <;> rfl

/-- The answer to a line and the session after it: those of a command, or those of the statement that
the line says, if it can be read and nothing that it calls is recursive. -/
inductive Executes (s : Session) (line : List Char) (schedule : Schedule) :
    Except Error (List Char) × Session → Prop
  | command {answer : Except Error (List Char)} (hcommand : s.command line schedule = some answer) :
    Executes s line schedule (answer, s)
  | unreadable {error : Error} (hcommand : isCommand line = false)
    (hparse : parse Statement (Text.trim line) = .error error) :
    Executes s line schedule (.error (relocate (indentation line) (Text.trim line) error), s)
  | variable {v : VariableDefinition} (hcommand : isCommand line = false)
    (hparse : parse Statement (Text.trim line) = .ok (.variable v)) :
    Executes s line schedule (.ok v.text, { s with definitions := s.definitions.defineVariable v })
  | function {f : FunctionDefinition} (hcommand : isCommand line = false)
    (hparse : parse Statement (Text.trim line) = .ok (.function f))
    (hcheck : s.checkRecursion f = .ok ()) :
    Executes s line schedule (.ok f.text, { s with definitions := s.definitions.defineFunction f })
  | recursive {f : FunctionDefinition} {error : Error} (hcommand : isCommand line = false)
    (hparse : parse Statement (Text.trim line) = .ok (.function f))
    (hcheck : s.checkRecursion f = .error error) :
    Executes s line schedule (.error (relocate (indentation line) (Text.trim line) error), s)
  | value {e linked : Expression} (hcommand : isCommand line = false)
    (hparse : parse Statement (Text.trim line) = .ok (.expression e))
    (hlinked : e.linked s.definitions.functions = .ok linked) :
    Executes s line schedule (.ok (linked.text ++ " = ".toList ++
      Decimal.text (linked.program.eval s.definitions.values)), s)
  | unlinked {e : Expression} {error : Error} (hcommand : isCommand line = false)
    (hparse : parse Statement (Text.trim line) = .ok (.expression e))
    (hlinked : e.linked s.definitions.functions = .error error) :
    Executes s line schedule (.error (relocate (indentation line) (Text.trim line) error), s)
  | equation {eq : Equation} (hcommand : isCommand line = false)
    (hparse : parse Statement (Text.trim line) = .ok (.equation eq)) :
    Executes s line schedule (.ok eq.form.text, s)

theorem command_eq_none_iff {s : Session} {line : List Char} {schedule : Schedule} :
    s.command line schedule = none ↔ isCommand line = false := by
  rw [← s.isSome_command line schedule, ← Option.isNone_iff_eq_none, Option.isSome_eq_false_iff]

theorem executes (s : Session) (line : List Char) (schedule : Schedule) :
    s.Executes line schedule (s.execute line schedule) := by
  unfold execute
  split
  · next answer hcommand => exact .command hcommand
  next hcommand =>
  replace hcommand := command_eq_none_iff.1 hcommand
  dsimp only
  unfold statement
  cases hparse : parse Statement (Text.trim line) with
  | error error => exact .unreadable hcommand hparse
  | ok st =>
    cases st with
    | «variable» v => exact .variable hcommand hparse
    | equation eq => exact .equation hcommand hparse
    | function f =>
      cases hcheck : s.checkRecursion f with
      | ok _ =>
        simp only [hcheck, bind, Except.bind]
        exact .function hcommand hparse hcheck
      | error error =>
        simp only [hcheck, bind, Except.bind]
        exact .recursive hcommand hparse hcheck
    | expression e =>
      cases hlinked : e.linked s.definitions.functions with
      | ok linked =>
        simp only [hlinked, bind, Except.bind]
        exact .value hcommand hparse hlinked
      | error error =>
        simp only [hlinked, bind, Except.bind]
        exact .unlinked hcommand hparse hlinked

variable {s t : Session} {line : List Char} {schedule : Schedule}

theorem Executes.eq_of_error {error : Error} (h : s.Executes line schedule (.error error, t)) :
    t = s := by
  cases h <;> rfl

theorem Executes.viewport_eq {answer : Except Error (List Char)}
    (h : s.Executes line schedule (answer, t)) : t.viewport = s.viewport := by
  cases h <;> rfl

/-- An error leaves the session as it was. -/
theorem execute_of_error {error : Error} (h : (s.execute line schedule).1 = .error error) :
    (s.execute line schedule).2 = s := by
  have hexecutes := s.executes line schedule
  rw [← Prod.eta (s.execute line schedule), h] at hexecutes
  exact hexecutes.eq_of_error

/-- Whatever lines are executed, curves are sampled in the viewport of the start. -/
theorem viewport_executeAll (s : Session) (lines : List (List Char)) (schedules : Nat → Schedule) :
    (s.executeAll lines schedules).2.viewport = s.viewport := by
  induction lines generalizing s schedules with
  | nil => rfl
  | cons line lines ih =>
    exact (ih (s.execute line (schedules 0)).2 _).trans (s.executes line (schedules 0)).viewport_eq

end Session

end ImplicitCurves

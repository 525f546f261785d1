import ImplicitCurves.Proofs.Notation.ParseErrors
import ImplicitCurves.Session

/-!
# Errors of texts and commands

Where the errors of a session come from.  A text fails where it is read, where calls are linked, where
a curve uses letters that it must not use, or where numbers do not fit; a command fails if it is used
wrongly or if the text that it reads fails.  What holds for each of these cases holds for all errors.
-/

namespace ImplicitCurves

/-- What can be wrong with a text, if its calls are linked with the functions of a table. -/
inductive TextError (table : FunctionTable) (text : List Char) : Error → Prop
  | tokens {e : Error} (h : tokenize text = .error e) : TextError table text e
  | expression {e : Error} (h : ParseError Expression text e) : TextError table text e
  | equation {e : Error} (h : ParseError Equation text e) : TextError table text e
  | statement {e : Error} (h : ParseError Statement text e) : TextError table text e
  | linkedExpression {expression : Expression} {e : Error} (h : expression.linked table = .error e) :
    TextError table text e
  | linkedEquation {eq : Equation} {e : Error} (h : eq.linked table = .error e) :
    TextError table text e
  | mentionsY {tokens : List Token} (h : tokenize text = .ok tokens) :
    TextError table text ⟨.curveMentionsY, letterSpans 'y' (fun _ => true) tokens⟩
  | undefinedFunction {tokens : List Token} (h : tokenize text = .ok tokens) (key : FunctionKey) :
    TextError table text ⟨.undefinedFunction key, letterSpans key.name (· = some .openParen) tokens⟩
  | unsupportedVariable {tokens : List Token} (h : tokenize text = .ok tokens) (name : Char) :
    TextError table text ⟨.unsupportedVariable name, letterSpans name (fun _ => true) tokens⟩
  | unbound (names : List Char) : TextError table text ⟨.rootPrecondition names, []⟩
  | numbers (fault : SamplingFault Float) : TextError table text (.ofFault fault)

section Texts

variable {table : FunctionTable} {text : List Char}

theorem Equation.failsOnly_findRoots (eq : Equation) (env : Environment Float) (low high : Float)
    (o : RootOptions Float) : FailsOnly (TextError table text) (eq.findRoots env low high o) := by
  unfold Equation.findRoots
  dsimp only
  split
  · exact .mapError_of_forall _ .numbers
  · exact .error (.unbound _)

theorem Curve.failsOnly_readEquation {tokens : List Token} (htokens : tokenize text = .ok tokens) :
    FailsOnly (TextError table text) (readEquation text tokens) := by
  unfold readEquation
  split
  · exact failsOnly_parse.imp fun _ => .equation
  · refine (failsOnly_parse.imp fun _ => .expression).bind fun e _ => ?_
    split
    · exact .error (.mentionsY htokens)
    · exact .ok _

theorem Curve.failsOnly_ofText (d : Definitions) :
    FailsOnly (TextError d.functions text) (ofText text d) := by
  unfold ofText
  refine FailsOnly.bind (fun _ => .tokens) fun tokens htokens => ?_
  refine (failsOnly_readEquation htokens).bind fun eq _ => ?_
  refine FailsOnly.bind (fun _ => .linkedEquation) fun linked _ => ?_
  split
  · exact .error (.undefinedFunction htokens _)
  · dsimp only
    split
    · exact .error (.unsupportedVariable htokens _)
    · exact .ok _

/-- Whatever the schedule is, sampling fails only because numbers do not fit. -/
theorem Curve.failsOnly_sample (c : Curve) (v : Viewport Float) (o : SampleOptions Float)
    (schedule : Schedule) :
    FailsOnly (fun e => ∃ fault, e = .ofFault fault) (c.sample v o schedule) := by
  have hsweep : ∀ axis needed,
      FailsOnly (fun e => ∃ fault, e = .ofFault fault) (c.sweep axis needed v o schedule) := by
    intro axis needed
    unfold sweep
    split
    · exact .mapError_of_forall _ fun fault => ⟨fault, rfl⟩
    · exact .ok _
  exact (hsweep _ _).bind fun _ _ => (hsweep _ _).bind fun _ _ => .ok _

end Texts

namespace Session

variable (s : Session) (text : List Char)

theorem failsOnly_roots (range : Option (Float × Float)) :
    FailsOnly (TextError s.definitions.functions text) (s.roots text range) := by
  unfold roots
  refine (failsOnly_parse.imp fun _ => .equation).bind fun eq _ => ?_
  refine FailsOnly.bind (fun _ => .linkedEquation) fun linked _ => ?_
  refine (linked.failsOnly_findRoots _ _ _ _).bind fun found _ => ?_
  split <;> exact .ok _

theorem failsOnly_sample (schedule : Schedule) :
    FailsOnly (TextError s.definitions.functions text) (s.sample text schedule) := by
  refine (Curve.failsOnly_ofText _).bind fun c _ => FailsOnly.bind ?_ fun _ _ => .ok _
  refine (c.failsOnly_sample _ _ _).imp ?_
  rintro _ ⟨fault, rfl⟩
  exact .numbers fault

theorem failsOnly_assemble : FailsOnly (TextError s.definitions.functions text) (s.assemble text) := by
  unfold assemble
  refine (failsOnly_parse.imp fun _ => .statement).bind fun statement _ => ?_
  split
  · exact FailsOnly.bind (fun _ => .linkedExpression) fun _ _ => .ok _
  · exact FailsOnly.bind (fun _ => .linkedEquation) fun _ _ => .ok _
  all_goals exact .ok _

/-- A definition is linked with a table of its own, which has the definition in it. -/
theorem failsOnly_statement :
    FailsOnly (fun e => ∃ table, TextError table text e) (s.statement text) := by
  unfold statement
  refine (failsOnly_parse.imp fun _ he => ⟨.empty, .statement he⟩).bind fun statement _ => ?_
  split
  · exact .ok _
  · refine FailsOnly.bind ?_ fun _ _ => .ok _
    exact FailsOnly.bind (fun _ he => ⟨_, .linkedExpression he⟩) fun _ _ => .ok ()
  · exact FailsOnly.bind (fun _ he => ⟨_, .linkedExpression he⟩) fun _ _ => .ok _
  · exact .ok _

/-- The text that a command reads: its arguments, or what stands in front of the range of a search. -/
def readText : Command → List Char → List Char
  | .roots, arguments => (splitRange arguments).1
  | _, arguments => arguments

/-- What can be wrong with a command: how it is used, or the text that it reads. -/
inductive CommandError (s : Session) (line : List Char) : Error → Prop
  | usage {command : Command} {offset : Nat} {arguments : List Char}
    (h : stripCommand command line = some (offset, arguments)) :
    CommandError s line (wrongUsage command line)
  | text {command : Command} {offset : Nat} {arguments : List Char} {e : Error}
    (h : stripCommand command line = some (offset, arguments))
    (he : TextError s.definitions.functions (readText command arguments) e) :
    CommandError s line (relocate offset (readText command arguments) e)

variable {s : Session} {line : List Char} {schedule : Schedule}

theorem failsOnly_command {answer : Except Error (List Char)}
    (h : s.command line schedule = some answer) :
    FailsOnly (CommandError s line) answer := by
  unfold command at h
  split at h
  · next hstrip =>
    split at h
    · obtain rfl := Option.some.inj h
      exact .error (.usage hstrip)
    · obtain rfl := Option.some.inj h
      exact (s.failsOnly_roots _ _).mapError fun e he => .text hstrip he
  split at h
  · next hstrip =>
    split at h
    · obtain rfl := Option.some.inj h
      exact .error (.usage hstrip)
    · obtain rfl := Option.some.inj h
      exact (s.failsOnly_sample _ _).mapError fun e he => .text hstrip he
  split at h
  · obtain rfl := Option.some.inj h
    exact .ok _
  split at h
  · next hstrip =>
    split at h
    · obtain rfl := Option.some.inj h
      exact .error (.usage hstrip)
    · split at h
      · next e he =>
        obtain rfl := Option.some.inj h
        exact .error (.text hstrip (s.failsOnly_assemble _ e he))
      · obtain rfl := Option.some.inj h
        exact .error (.usage hstrip)
      · obtain rfl := Option.some.inj h
        exact .ok _
  · cases h

/-- A line is no command only if it starts with the word of none. -/
theorem stripCommand_eq_none (h : s.command line schedule = none) (command : Command) :
    stripCommand command line = none := by
  unfold Session.command at h
  split at h
  · split at h <;> cases h
  next hroots =>
  split at h
  · split at h <;> cases h
  next hsample =>
  split at h
  · cases h
  next hdefinitions =>
  split at h
  · split at h
    · cases h
    · split at h <;> cases h
  next hlisting =>
  cases command with
  | roots => exact hroots
  | sample => exact hsample
  | definitions => exact hdefinitions
  | listing => exact hlisting

/-- A line fails as a command or, if it is none, as a statement. -/
theorem failsOnly_execute : FailsOnly
    (fun e => CommandError s line e ∨ (∀ command, stripCommand command line = none) ∧
      ∃ table e', TextError table (Text.trim line) e' ∧
        e = relocate (indentation line) (Text.trim line) e')
    (s.execute line schedule).1 := by
  unfold execute
  split
  · next hcommand => exact (failsOnly_command hcommand).imp fun _ => .inl
  · next hnone =>
    dsimp only
    split
    · exact .ok _
    · next e he =>
      obtain ⟨table, htext⟩ := s.failsOnly_statement _ e he
      exact .error (.inr ⟨stripCommand_eq_none hnone, table, e, htext, rfl⟩)

theorem relocate_cause (offset : Nat) (text : List Char) (error : Error) :
    (relocate offset text error).cause = error.cause := by
  unfold relocate
  split <;> rfl

end Session

end ImplicitCurves

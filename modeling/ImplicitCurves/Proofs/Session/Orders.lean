import ImplicitCurves.Proofs.Curve.Preparation
import ImplicitCurves.Proofs.Directories
import ImplicitCurves.Session

/-!
# Sessions and the order of their directories

What a session says and does depends on what is found in its directories only, not on the order that
their entries are in.  Linking, replacing variables, running a program and preparing a curve look
entries up; a listing sorts them.  Main statement: `Session.Same.execute`.
-/

namespace ImplicitCurves

/-! ### Functions and values -/

namespace Directory.Same

section Functions

variable {table table' : FunctionTable}

theorem resolve_eq (h : table.Same table') (pass depth : Nat) (stack : List FunctionKey) :
    table.resolve pass depth stack = table'.resolve pass depth stack := by
  induction depth generalizing stack with
  | zero =>
    funext key s
    unfold FunctionTable.resolve
    rw [h.find?_eq]
  | succ depth ih =>
    funext key s
    unfold FunctionTable.resolve
    simp only [h.find?_eq, ih]

theorem linkTogether_eq (h : table.Same table') (pass : Nat) (es : List Expression) :
    linkTogether table pass es = linkTogether table' pass es := by
  rw [linkTogether, linkTogether, h.size_eq, h.resolve_eq]

theorem linkAll_eq (h : table.Same table') (es : List Expression) :
    linkAll table es = linkAll table' es := by
  rw [linkAll, linkAll, h.linkTogether_eq, h.linkTogether_eq]

theorem linkedExpression_eq (h : table.Same table') (e : Expression) :
    e.linked table = e.linked table' := by
  rw [Expression.linked, Expression.linked, Expression.link, Expression.link, h.linkAll_eq]

theorem linkedEquation_eq (h : table.Same table') (eq : Equation) :
    eq.linked table = eq.linked table' := by
  rw [Equation.linked, Equation.linked, Equation.link, Equation.link, h.linkAll_eq]

end Functions

section Values

variable {α : Type} {env env' : Environment α}

theorem value?_eq (h : env.Same env') (name : Char) : env.value? name = env'.value? name := by
  rw [Environment.value?, Environment.value?, h.find?_eq]

theorem bind_eq [Scalar α] (h : env.Same env') (p : Program) : p.bind env = p.bind env' := by
  simp only [Program.bind, h.value?_eq]

theorem eval_eq [Scalar α] (h : env.Same env') (p : Program) : p.eval env = p.eval env' := by
  rw [Program.eval_eq, Program.eval_eq, h.bind_eq]

theorem unbound_eq (h : env.Same env') (eq : Equation) : eq.unbound env = eq.unbound env' := by
  simp only [Equation.unbound, h.contains_eq]

theorem findRoots_eq {env env' : Environment Float} (h : env.Same env') (eq : Equation)
    (low high : Float) (o : RootOptions Float) :
    eq.findRoots env low high o = eq.findRoots env' low high o := by
  simp only [Equation.findRoots, h.unbound_eq, h.bind_eq]

variable [OrderedScalar α] {p : Program} {axis : Axis}

theorem rootsAt_eq (h : env.Same env') (o : RootOptions α) (coordinate : α) (range : α × α) :
    Sweep.rootsAt ⟨p, env, axis, o⟩ coordinate range =
      Sweep.rootsAt ⟨p, env', axis, o⟩ coordinate range := by
  simp only [Sweep.rootsAt, h.bind_eq]

theorem refinements_eq (h : env.Same env') (o : SampleOptions α) (low : α) (cross : α × α) (i : Nat)
    (coarse : List (Sample α)) :
    Sweep.refinements ⟨p, env, axis, o.rootOptions⟩ o low cross i coarse =
      Sweep.refinements ⟨p, env', axis, o.rootOptions⟩ o low cross i coarse := by
  induction coarse generalizing i with
  | nil => rfl
  | cons first rest ih =>
    cases rest with
    | nil => rfl
    | cons next rest =>
      simp only [Sweep.refinements, Sweep.refinedSamples, Sweep.refinedRoots, h.rootsAt_eq, ih]

theorem sample_eq (h : env.Same env') (p : Program) (axis : Axis) (v : Viewport α)
    (o : SampleOptions α) (schedule : Schedule) :
    sample p env axis v o schedule = sample p env' axis v o schedule := by
  simp only [sample, sweepSamples, h.rootsAt_eq, h.refinements_eq]

end Values

end Directory.Same

theorem Expression.substitute_congr {bindings bindings' : Bindings}
    (h : ∀ name, bindings.lookup name = bindings'.lookup name) (e : Expression) :
    e.substitute bindings = e.substitute bindings' := by
  simp only [substitute, h]

/-! ### Definitions and curves -/

/-- The same variables and functions are defined, in whatever order they are kept. -/
structure Definitions.Same (d d' : Definitions) : Prop where
  values : d.values.Same d'.values
  functions : d.functions.Same d'.functions

namespace Definitions.Same

variable {d d' d'' : Definitions}

theorem refl (d : Definitions) : d.Same d :=
  ⟨.refl _, .refl _⟩

theorem symm (h : d.Same d') : d'.Same d :=
  ⟨h.values.symm, h.functions.symm⟩

theorem trans (h : d.Same d') (h' : d'.Same d'') : d.Same d'' :=
  ⟨h.values.trans h'.values, h.functions.trans h'.functions⟩

theorem defineVariable (h : d.Same d') (v : VariableDefinition) :
    (d.defineVariable v).Same (d'.defineVariable v) :=
  ⟨h.values.insert _, h.functions⟩

theorem defineFunction (h : d.Same d') (f : FunctionDefinition) :
    (d.defineFunction f).Same (d'.defineFunction f) :=
  ⟨h.values, h.functions.insert f⟩

theorem substitute_eq (h : d.Same d') (eq : Equation) :
    eq.substitute d.bindings = eq.substitute d'.bindings := by
  have hlookup : ∀ name, d.bindings.lookup name = d'.bindings.lookup name := by
    refine lookup_eq_of_perm (h.values.map _) ?_
    exact List.pairwise_map.2 d.values.distinct
  have hside : ∀ e : Expression, e.substitute d.bindings = e.substitute d'.bindings :=
    Expression.substitute_congr hlookup
  simp only [Equation.substitute, hside]

/-- What is listed is sorted first. -/
theorem texts_eq (h : d.Same d') : d.texts = d'.texts := by
  rw [texts, texts, h.values.sorted_eq, h.functions.sorted_eq]

theorem isSupported_eq (h : d.Same d') (name : Char) :
    Curve.isSupported d name = Curve.isSupported d' name := by
  rw [Curve.isSupported, Curve.isSupported, h.values.contains_eq]

/-- A curve keeps the values that it is prepared with, and is the same otherwise. -/
theorem ofText_eq (h : d.Same d') (source : List Char) : Curve.ofText source d' =
    (Curve.ofText source d).map fun c => { c with environment := d'.values } := by
  unfold Curve.ofText
  simp only [h.substitute_eq, h.functions.linkedEquation_eq, h.functions.contains_eq,
    h.isSupported_eq]
  cases tokenize source with
  | error _ => rfl
  | ok tokens =>
    dsimp only [bind, Except.bind]
    cases Curve.readEquation source tokens with
    | error _ => rfl
    | ok eq =>
      dsimp only
      cases (eq.substitute d'.bindings).linked d'.functions with
      | error _ => rfl
      | ok linked =>
        dsimp only
        split
        · rfl
        · split <;> rfl

end Definitions.Same

theorem Curve.sample_congr {c : Curve} {env : Environment Float} (h : c.environment.Same env)
    (v : Viewport Float) (o : SampleOptions Float) (schedule : Schedule) :
    c.sample v o schedule = { c with environment := env }.sample v o schedule := by
  simp only [sample, sweep, h.sample_eq]

/-! ### Sessions -/

/-- The same is defined, in whatever order it is kept, and curves are sampled in the same viewport. -/
structure Session.Same (s t : Session) : Prop where
  definitions : s.definitions.Same t.definitions
  viewport : s.viewport = t.viewport

namespace Session.Same

variable {s t u : Session}

theorem refl (s : Session) : s.Same s :=
  ⟨.refl _, rfl⟩

theorem symm (h : s.Same t) : t.Same s :=
  ⟨h.definitions.symm, h.viewport.symm⟩

theorem trans (h : s.Same t) (h' : t.Same u) : s.Same u :=
  ⟨h.definitions.trans h'.definitions, h.viewport.trans h'.viewport⟩

theorem roots_eq (h : s.Same t) (text : List Char) (range : Option (Float × Float)) :
    s.roots text range = t.roots text range := by
  simp only [roots, h.definitions.substitute_eq, h.definitions.functions.linkedEquation_eq,
    h.definitions.values.findRoots_eq, h.viewport]

theorem sample_eq (h : s.Same t) (text : List Char) (schedule : Schedule) :
    s.sample text schedule = t.sample text schedule := by
  unfold sample
  rw [h.definitions.ofText_eq, h.viewport]
  cases hcurve : Curve.ofText text s.definitions with
  | error _ => rfl
  | ok c =>
    have henvironment : c.environment.Same t.definitions.values := by
      obtain ⟨tokens, linked, -, -, -, rfl⟩ := Curve.ofText_eq_ok_iff.1 hcurve
      exact h.definitions.values
    dsimp only [bind, Except.bind, Except.map]
    rw [Curve.sample_congr henvironment]

theorem listDefinitions_eq (h : s.Same t) : s.listDefinitions = t.listDefinitions := by
  rw [listDefinitions, listDefinitions, h.definitions.texts_eq]

theorem assemble_eq (h : s.Same t) (text : List Char) : s.assemble text = t.assemble text := by
  simp only [assemble, h.definitions.functions.linkedExpression_eq,
    h.definitions.functions.linkedEquation_eq]

theorem checkRecursion_eq (h : s.Same t) (f : FunctionDefinition) :
    s.checkRecursion f = t.checkRecursion f := by
  simp only [checkRecursion, (h.definitions.functions.insert f).linkedExpression_eq]

theorem command_eq (h : s.Same t) (line : List Char) (schedule : Schedule) :
    s.command line schedule = t.command line schedule := by
  simp only [command, h.roots_eq, h.sample_eq, h.listDefinitions_eq, h.assemble_eq]

/-- Sessions that know the same give the same answer to a line under the same schedule, and know the
same after it. -/
theorem execute (h : s.Same t) (line : List Char) (schedule : Schedule) :
    (s.execute line schedule).1 = (t.execute line schedule).1 ∧
      (s.execute line schedule).2.Same (t.execute line schedule).2 := by
  unfold Session.execute
  rw [h.command_eq]
  split
  · exact ⟨rfl, h⟩
  dsimp only
  unfold statement
  cases parse Statement (Text.trim line) with
  | error _ => exact ⟨rfl, h⟩
  | ok st =>
    cases st with
    | «variable» v => exact ⟨rfl, h.definitions.defineVariable v, h.viewport⟩
    | equation _ => exact ⟨rfl, h⟩
    | function f =>
      simp only [h.checkRecursion_eq, bind, Except.bind]
      cases t.checkRecursion f with
      | error _ => exact ⟨rfl, h⟩
      | ok _ => exact ⟨rfl, h.definitions.defineFunction f, h.viewport⟩
    | expression e =>
      simp only [h.definitions.functions.linkedExpression_eq, h.definitions.values.eval_eq, bind,
        Except.bind]
      cases e.linked t.definitions.functions with
      | error _ => exact ⟨rfl, h⟩
      | ok _ => exact ⟨rfl, h⟩

end Session.Same

end ImplicitCurves

import ImplicitCurves.Proofs.Program.CallGraph
import ImplicitCurves.Proofs.Program.Simulation

/-!
# Correctness of the compiler

The program of an expression in which every linked call fits its definition ends with the meaning of
the expression.  The program of an equation ends with the difference of the meanings of its sides.
-/

namespace ImplicitCurves

variable {α : Type} [Scalar α]

/-- A finished program has the chunks of all linked definitions. -/
theorem Assembly.implements_ofCode {a : Assembly} (h : initial.Grows a) (code : List Instruction) :
    (Program.ofCode code a).Implements a.functions := by
  intro id index hmem
  obtain ⟨hpos, b, code', b', hcompile, hsymbols, hfunctions, hchunk⟩ := h.holds hmem
  refine ⟨b, code', b', hcompile, ⟨hsymbols, hfunctions⟩, ?_⟩
  rw [getElem?_ofCode hpos, hchunk]

/-- The main chunk takes no arguments. -/
theorem Assembly.chunk_zero_ofCode {a : Assembly} (h : initial.Grows a) (code : List Instruction) :
    (Program.ofCode code a).chunks[0]? = some ⟨0, code.toArray⟩ := by
  have hmain : 0 < a.chunks.size := h.size
  simp [Program.ofCode, fill, hmain]

omit [Scalar α] in
/-- A run starts outside of all functions. -/
theorem Assembly.active_ofCode {a : Assembly} (h : initial.Grows a) (code : List Instruction) :
    (Program.ofCode code a).Active [] ([] : List α) 0 0 #[] where
  arity := by simp [Program.arity, chunk_zero_ofCode h]
  length := rfl
  base_le := Nat.le_refl _
  arguments index value hindex := by simp at hindex

/-- A program gives the value that its main code leaves on the stack. -/
theorem Assembly.run?_ofCode {a : Assembly} {code : List Instruction} {bound : Nat}
    (h : initial.Grows a) (hcalls : CallsBelow a.functions bound code) {slots : Array α} {value : α}
    (hcode : (Program.ofCode code a).Executes slots 0 0 code #[] #[value]) :
    (Program.ofCode code a).run? slots = some value := by
  have hmain := Program.hasCode_of_getElem? (chunk_zero_ofCode h code)
  refine Program.runFrom_eq_some (acyclic_ofCode h hcalls) (List.pairwise_singleton _ _)
    (hcode 0 [] hmain) ?_
  have hend : (Program.ofCode code a).instruction? 0 (0 + code.length) = none := by
    simp [Program.instruction?, chunk_zero_ofCode h]
  simp only [machineStep, hend, popValue]
  rfl

theorem Program.eval_eq_of_run? {p : Program} {env : Environment α} {value : α}
    (h : p.run? (p.bind env) = some value) : p.eval env = value := by
  rw [Program.eval_eq, Program.run, h, Option.getD_some]

/-- The program of any expression comes to an end with the meaning of the expression, in which calls
that do not fit their definitions are undefined. -/
theorem Expression.run?_eq_fitted_meaning (e : Expression) (env : Environment α) :
    e.program.run? (e.program.bind env) = some (e.fitted.meaning (Scope.outermost env)) := by
  have hgrows : Assembly.initial.Grows (e.compile [] .initial).2 := e.grows_compile [] _
  have hcalls := e.callsBelow_compile [] .initial
  have hactive : e.program.Active [] ([] : List α) 0 0 #[] := Assembly.active_ofCode hgrows _
  have hcode : e.program.Executes (e.program.bind env) 0 0 (e.compile [] .initial).1 #[]
      #[e.fitted.meaning (Scope.outermost env)] :=
    e.executes_compile (Assembly.implements_ofCode hgrows _)
      ⟨List.prefix_rfl, List.prefix_rfl⟩ hactive
  exact Assembly.run?_ofCode hgrows hcalls hcode

/-- The program of an expression whose calls fit comes to an end with the meaning of the
expression. -/
theorem Expression.run?_eq_meaning (e : Expression) (h : e.callsFit = true) (env : Environment α) :
    e.program.run? (e.program.bind env) = some (e.meaning (Scope.outermost env)) := by
  rw [e.run?_eq_fitted_meaning env, e.fitted_eq h]

/-- The compiler is correct: the program of an expression in which all linked calls have as many
arguments as their definitions have parameters comes to an end in every environment, and its value is
the meaning of the expression.  No law of the operations on scalars is used. -/
theorem Expression.run?_program (e : Expression) (h : e.callsFit = true) (env : Environment α) :
    e.program.run? (e.program.bind env) = some (e.meaning (Scope.outermost env)) ∧
      e.program.eval env = e.meaning (Scope.outermost env) := by
  have hrun := e.run?_eq_meaning h env
  exact ⟨hrun, Program.eval_eq_of_run? hrun⟩

/-- With `f(x, y) = xx - ay`, where `a` is three, `f(2, 1)` is one, whatever `x` is outside of
`f`. -/
theorem Expression.run?_program_linkedCall :
    let body : Expression :=
      ⟨[⟨true, [.variable 'x' none, .variable 'x' none]⟩,
        ⟨false, [.variable 'a' none, .variable 'y' none]⟩]⟩
    let call : Expression := .ofFactor (.call 'f' [.ofNumber 2, .ofNumber 1]
      (.linked 0 ⟨'f', ['x', 'y'], body, ['a']⟩))
    let env : Environment Float := (Directory.empty.insert ('a', 3)).insert ('x', 9)
    call.callsFit = true ∧ call.program.run? (call.program.bind env) = some 1 := by
  intro body call env
  have hcalls : call.callsFit = true := by decide
  have hmeaning : call.meaning (Scope.outermost env) = 1 := by decide +kernel
  exact ⟨hcalls, hmeaning ▸ (Expression.run?_program call hcalls env).1⟩

/-- The program of an equation ends with the difference of the meanings of its sides, in which calls
that do not fit their definitions are undefined. -/
theorem Equation.run?_eq_fitted_difference (eq : Equation) (env : Environment α) :
    eq.program.run? (eq.program.bind env) = some (eq.lhs.fitted.meaning (Scope.outermost env) -
      eq.rhs.fitted.meaning (Scope.outermost env)) := by
  obtain ⟨a, ha⟩ : ∃ a, (eq.lhs.compile [] .initial).2 = a := ⟨_, rfl⟩
  obtain ⟨b, hb⟩ : ∃ b, (eq.rhs.compile [] a).2 = b := ⟨_, rfl⟩
  have hgrows : Assembly.initial.Grows a := ha ▸ eq.lhs.grows_compile [] _
  have hgrows' : a.Grows b := hb ▸ eq.rhs.grows_compile [] a
  have hprogram : eq.program = .ofCode
      ((eq.lhs.compile [] .initial).1 ++ (eq.rhs.compile [] a).1 ++ [.sub]) b := by
    subst ha hb
    rfl
  have hfits : b.Fits eq.program b.functions := by
    rw [hprogram]
    exact ⟨List.prefix_rfl, List.prefix_rfl⟩
  have himplements : eq.program.Implements b.functions := by
    rw [hprogram]
    exact Assembly.implements_ofCode (hgrows.trans hgrows') _
  have hactive : eq.program.Active [] ([] : List α) 0 0 #[] := by
    rw [hprogram]
    exact Assembly.active_ofCode (hgrows.trans hgrows') _
  have hcode : eq.program.Executes (eq.program.bind env) 0 0 (eq.lhs.compile [] .initial).1 #[]
      #[eq.lhs.fitted.meaning (Scope.outermost env)] :=
    eq.lhs.executes_compile himplements (ha ▸ hfits.of_grows hgrows') hactive
  have hdifference := hactive.executes_operands (i := .sub) rfl hcode
    fun _ => eq.rhs.executes_compile himplements (by rw [hb]; exact hfits)
  have hcalls := (eq.lhs.callsBelow_compile [] .initial).append_grows (ha ▸ hgrows')
    (hb ▸ eq.rhs.callsBelow_compile [] a) (Nat.le_add_right _ (sizeOf eq.rhs)) (Nat.le_add_left _ _)
  rw [hprogram] at hdifference ⊢
  exact Assembly.run?_ofCode (hgrows.trans hgrows') (hcalls.operation rfl) hdifference

/-- The program of an equation whose calls fit ends with the difference of the meanings of its
sides. -/
theorem Equation.run?_eq_difference (eq : Equation) (hlhs : eq.lhs.callsFit = true)
    (hrhs : eq.rhs.callsFit = true) (env : Environment α) :
    eq.program.run? (eq.program.bind env) =
      some (eq.lhs.meaning (Scope.outermost env) - eq.rhs.meaning (Scope.outermost env)) := by
  rw [eq.run?_eq_fitted_difference env, eq.lhs.fitted_eq hlhs, eq.rhs.fitted_eq hrhs]

end ImplicitCurves

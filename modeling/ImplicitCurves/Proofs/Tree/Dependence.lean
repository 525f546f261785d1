import ImplicitCurves.Proofs.Tree.Interpretation
import ImplicitCurves.Tree.Equation
import Mathlib.Data.List.Basic

/-!
# What values depend on

The value of an expression depends only on the variables that are free in it and on those that its
linked definitions read: main statements `Expression.compute_congr` and `Equation.compute_congr`.
Calls have to fit their definitions, because a parameter without an argument is looked up in the
environment.
-/

namespace ImplicitCurves

variable {α : Type}

/-- Two environments give the same values to some names. -/
def Environment.AgreeOn (names : List Char) (env env' : Environment α) : Prop :=
  ∀ name ∈ names, env.value? name = env'.value? name

/-- Two scopes look the same to some factors and to the linked definitions in them, which read the
given variables. -/
structure Scope.Alike (factors : List Factor) (globals : List Char) (s t : Scope α) : Prop where
  free : ∀ f ∈ factors, ∀ name, f.freeName? = some name → s.value? name = t.value? name
  globals : s.environment.AgreeOn globals t.environment

namespace Scope.Alike

variable {factors factors' : List Factor} {globals globals' : List Char} {s t : Scope α}

theorem mono (h : Alike factors globals s t) (hfactors : factors' ⊆ factors)
    (hglobals : globals' ⊆ globals) : Alike factors' globals' s t where
  free f hf := h.free f (hfactors hf)
  globals name hname := h.globals name (hglobals hname)

theorem left (h : Alike (factors ++ factors') (globals ++ globals') s t) :
    Alike factors globals s t :=
  h.mono (List.subset_append_left _ _) (List.subset_append_left _ _)

theorem right (h : Alike (factors ++ factors') (globals ++ globals') s t) :
    Alike factors' globals' s t :=
  h.mono (List.subset_append_right _ _) (List.subset_append_right _ _)

theorem tail {f : Factor} (h : Alike (f :: factors) globals s t) : Alike factors globals s t :=
  h.mono (List.subset_cons_self _ _) (List.Subset.refl _)

/-- Inside a function that has an argument for each parameter, only the other variables are looked up
in the environment. -/
theorem enter {d : FunctionDefinition} (h : s.environment.AgreeOn d.reads t.environment)
    {arguments : List α} (hlength : d.parameters.length = arguments.length) :
    Alike d.body.factors d.body.linkedGlobals (s.enter (d.parameters.zip arguments))
      (t.enter (d.parameters.zip arguments)) := by
  obtain ⟨dname, parameters, body, dglobals⟩ := d
  refine ⟨fun f hf name hname => ?_, fun name hname => h name (List.mem_append_right _ hname)⟩
  simp only [Scope.value?, Scope.enter]
  cases hlookup : (parameters.zip arguments).lookup name with
  | some x => rfl
  | none =>
    -- The name is not a parameter, so the function reads it.
    have hparameter : name ∉ parameters := by
      intro hmem
      have hkeys : (parameters.zip arguments).map Prod.fst = parameters :=
        List.map_fst_zip (Nat.le_of_eq hlength)
      rw [← hkeys] at hmem
      obtain ⟨pair, hpair, rfl⟩ := List.mem_map.1 hmem
      simpa using List.lookup_eq_none_iff.1 hlookup pair hpair
    have hfree : name ∈ body.freeVariables :=
      mem_distinct.2 (List.mem_filterMap.2 ⟨f, hf, hname⟩)
    exact h name (List.mem_append_left _ (List.mem_filter.2 ⟨hfree, by simpa using hparameter⟩))

end Scope.Alike

variable [Scalar α] (total : List (Bool × List α) → α)

theorem length_interpretExpressions (scope : Scope α) (es : List Expression) :
    (interpretExpressions total scope es).length = es.length := by
  induction es with
  | nil => rfl
  | cons e es ih => simp [interpretExpressions, ih]

mutual

/-- Scopes that look the same to an expression give it the same interpretation. -/
theorem Expression.interpret_congr : ∀ (e : Expression) (s t : Scope α), e.callsFit = true →
    s.Alike e.factors e.linkedGlobals t → e.interpret total s = e.interpret total t
  | ⟨items⟩, s, t, hfits, h => congrArg total (interpretItems_congr items s t hfits h)

theorem interpretItems_congr : ∀ (is : List Item) (s t : Scope α), itemsFit is = true →
    s.Alike (factorsOfItems is) (linkedGlobalsOfItems is) t →
      interpretItems total s is = interpretItems total t is
  | [], _, _, _, _ => rfl
  | ⟨positive, factors⟩ :: is, s, t, hfits, h => by
    obtain ⟨hitem, hrest⟩ := Bool.and_eq_true_iff.1 hfits
    exact congrArg₂ (fun fs is => (positive, fs) :: is)
      (interpretFactors_congr factors s t hitem h.left) (interpretItems_congr is s t hrest h.right)

theorem interpretFactors_congr : ∀ (fs : List Factor) (s t : Scope α), factorsFit fs = true →
    s.Alike (factorsOfFactors fs) (linkedGlobalsOfFactors fs) t →
      interpretFactors total s fs = interpretFactors total t fs
  | [], _, _, _, _ => rfl
  | f :: fs, s, t, hfits, h => by
    obtain ⟨hfactor, hrest⟩ := Bool.and_eq_true_iff.1 hfits
    exact congrArg₂ List.cons (f.interpret_congr s t hfactor h.left)
      (interpretFactors_congr fs s t hrest h.right)

theorem Factor.interpret_congr : ∀ (f : Factor) (s t : Scope α), f.callsFit = true →
    s.Alike f.withInner f.linkedGlobals t → f.interpret total s = f.interpret total t
  | .number _, _, _, _, _ | .constant _, _, _, _, _ | .variable _ (some _), _, _, _, _
  | .call _ _ .unlinked, _, _, _, _ => rfl
  | .variable name none, _, _, _, h =>
    congrArg (·.getD Scalar.undefined) (h.free _ List.mem_cons_self name rfl)
  | .fraction a b, s, t, hfits, h => by
    obtain ⟨ha, hb⟩ := Bool.and_eq_true_iff.1 hfits
    exact congrArg₂ (· / ·) (a.interpret_congr s t ha h.tail.left)
      (b.interpret_congr s t hb h.tail.right)
  | .power a b, s, t, hfits, h => by
    obtain ⟨ha, hb⟩ := Bool.and_eq_true_iff.1 hfits
    exact congrArg₂ Scalar.power (a.interpret_congr s t ha h.tail.left)
      (b.interpret_congr s t hb h.tail.right)
  | .bracket a, s, t, hfits, h => a.interpret_congr s t hfits h.tail
  | .unary f a, s, t, hfits, h => congrArg (Scalar.apply f) (a.interpret_congr s t hfits h.tail)
  | .logarithm a b, s, t, hfits, h => by
    obtain ⟨ha, hb⟩ := Bool.and_eq_true_iff.1 hfits
    exact congrArg₂ Scalar.logarithm (a.interpret_congr s t ha h.tail.left)
      (b.interpret_congr s t hb h.tail.right)
  | .call _ arguments (.linked _ ⟨dname, parameters, body, dglobals⟩), s, t, hfits, h => by
    obtain ⟨hfirst, hbody⟩ := Bool.and_eq_true_iff.1 hfits
    obtain ⟨harguments, hlength⟩ := Bool.and_eq_true_iff.1 hfirst
    have hvalues := interpretExpressions_congr arguments s t harguments
      (h.tail.mono (List.Subset.refl _) (List.subset_append_right _ _))
    have hreads : s.environment.AgreeOn
        (FunctionDefinition.reads ⟨dname, parameters, body, dglobals⟩) t.environment :=
      fun name hname => h.globals name (List.mem_append_left _ hname)
    simp only [Factor.interpret, Link.interpret, FunctionDefinition.interpret, hvalues]
    exact body.interpret_congr _ _ hbody (Scope.Alike.enter hreads
      ((eq_of_beq hlength).trans (length_interpretExpressions total t arguments).symm))

theorem interpretExpressions_congr : ∀ (es : List Expression) (s t : Scope α),
    argumentsFit es = true → s.Alike (factorsOfExpressions es) (linkedGlobalsOfExpressions es) t →
      interpretExpressions total s es = interpretExpressions total t es
  | [], _, _, _, _ => rfl
  | e :: es, s, t, hfits, h => by
    obtain ⟨hfirst, hrest⟩ := Bool.and_eq_true_iff.1 hfits
    exact congrArg₂ List.cons (e.interpret_congr s t hfirst h.left)
      (interpretExpressions_congr es s t hrest h.right)

end

/-- Environments that agree on the free variables of an expression, those of linked definitions
included, give it the same value. -/
theorem Expression.compute_congr {e : Expression} (hfits : e.callsFit = true)
    {env env' : Environment α} (h : env.AgreeOn e.freeVariablesLinked env') :
    e.compute env = e.compute env' := by
  have halike : (Scope.outermost env).Alike e.factors e.linkedGlobals (Scope.outermost env') := by
    refine ⟨fun f hf name hname => ?_, fun name hname => h name (mem_addAllNew_iff.2 (.inr hname))⟩
    exact h name (mem_addAllNew_iff.2
      (.inl (mem_distinct.2 (List.mem_filterMap.2 ⟨f, hf, hname⟩))))
  rw [Expression.compute, Expression.compute, e.value_eq_interpret, e.value_eq_interpret]
  exact e.interpret_congr valueTotal _ _ hfits halike

/-- Environments that agree on the free variables of an equation, those of linked definitions
included, give its sides the same difference. -/
theorem Equation.compute_congr {eq : Equation} (hlhs : eq.lhs.callsFit = true)
    (hrhs : eq.rhs.callsFit = true) {env env' : Environment α}
    (h : env.AgreeOn eq.freeVariablesLinked env') : eq.compute env = eq.compute env' := by
  have hleft := Expression.compute_congr hlhs fun name hname =>
    h name (mem_addAllNew_iff.2 (.inl hname))
  have hright := Expression.compute_congr hrhs fun name hname =>
    h name (mem_addAllNew_iff.2 (.inr hname))
  rw [Equation.compute, Equation.compute, hleft, hright]

end ImplicitCurves

import ImplicitCurves.Proofs.Tree.Inlining

/-!
# Giving values to variables

A variable gets a value from an environment, by putting something else in its place, or by binding a
value to it in place: main statement `Expression.substitute_agrees`.  The bodies of linked definitions
are not changed, so what they look up in the environment has to stay as it is.
-/

namespace ImplicitCurves

variable {α : Type}

/-! ### Environments -/

section Environments

variable [Scalar α]

/-- The value of what takes the place of a variable. -/
def Substitute.valueIn (env : Environment α) : Substitute → α
  | value x => Scalar.ofFloat x
  | expression e => e.compute env

/-- The environment in which each variable that has a binding has the value that its first binding has
in the environment. -/
def Environment.overriddenBy (env : Environment α) (bindings : Bindings) : Environment α :=
  bindings.foldr (fun b overridden => overridden.set b.1 (b.2.valueIn env)) env

theorem Environment.value?_overriddenBy (env : Environment α) (bindings : Bindings) (name : Char) :
    (env.overriddenBy bindings).value? name =
      ((bindings.lookup name).map (·.valueIn env)).or (env.value? name) := by
  induction bindings with
  | nil => rfl
  | cons b bindings ih =>
    have hset : env.overriddenBy (b :: bindings) =
        (env.overriddenBy bindings).set b.1 (b.2.valueIn env) := rfl
    rw [hset, value?_set, List.lookup_cons]
    by_cases hname : name = b.1
    · simp [hname]
    · have hne : (name == b.1) = false := beq_eq_false_iff_ne.2 hname
      rw [hne, if_neg hname, ih]

end Environments

/-! ### What linked definitions look up -/

/-- A definition that is called with some number of arguments looks up a variable in the
environment. -/
inductive FunctionDefinition.LooksUp : FunctionDefinition → (count : Nat) → Char → Prop
  /-- The variable is free in the body, and not a parameter that has an argument. -/
  | free {d : FunctionDefinition} {count : Nat} {name : Char} :
    .variable name none ∈ d.body.factors → name ∉ d.parameters.take count → LooksUp d count name
  /-- A definition that is called in the body looks it up. -/
  | call {d d' : FunctionDefinition} {count pass : Nat} {name f : Char} {arguments : List Expression} :
    .call f arguments (.linked pass d') ∈ d.body.factors → LooksUp d' arguments.length name →
      LooksUp d count name

/-- A definition that is linked to a call among the factors looks up a variable in the environment. -/
def LooksUpBehind (factors : List Factor) (name : Char) : Prop :=
  ∃ f arguments pass d, .call f arguments (.linked pass d) ∈ factors ∧ d.LooksUp arguments.length name

theorem LooksUpBehind.mono {factors factors' : List Factor} {name : Char}
    (h : LooksUpBehind factors name) (hsubset : factors ⊆ factors') : LooksUpBehind factors' name := by
  obtain ⟨f, arguments, pass, d, hmem, hlooks⟩ := h
  exact ⟨f, arguments, pass, d, hsubset hmem, hlooks⟩

/-- A name that is no argument of a call is not among the parameters with an argument. -/
theorem not_mem_take_of_lookup {names : List Char} {values : List α} {name : Char}
    (h : (names.zip values).lookup name = none) : name ∉ names.take values.length := by
  induction names generalizing values with
  | nil => simp
  | cons n names ih =>
    cases values with
    | nil => simp
    | cons v values =>
      rw [List.zip_cons_cons, List.lookup_cons] at h
      by_cases hname : name = n
      · simp [hname] at h
      · have hne : (name == n) = false := beq_eq_false_iff_ne.2 hname
        rw [hne] at h
        simpa [hname] using ih h

/-! ### Changed trees in other scopes -/

section Scopes

variable [Scalar α] (total : List (Bool × List α) → α)

/-- What is put in the place of variables has in one scope the values that the variables have in
another, and the definitions that are linked find the same values in both. -/
structure Scope.Matches (put : Char → Option Float → Factor) (factors : List Factor) (s t : Scope α) :
    Prop where
  values : ∀ name bound, .variable name bound ∈ factors →
    (put name bound).interpret total s = variableValue t name bound
  lookups : ∀ name, LooksUpBehind factors name →
    s.environment.value? name = t.environment.value? name

variable {total} {put : Char → Option Float → Factor} {factors factors' : List Factor} {s t : Scope α}

namespace Scope.Matches

theorem mono (h : s.Matches total put factors t) (hsubset : factors' ⊆ factors) :
    s.Matches total put factors' t where
  values name bound hmem := h.values name bound (hsubset hmem)
  lookups name hlooks := h.lookups name (hlooks.mono hsubset)

theorem left (h : s.Matches total put (factors ++ factors') t) : s.Matches total put factors t :=
  h.mono (List.subset_append_left _ _)

theorem right (h : s.Matches total put (factors ++ factors') t) : s.Matches total put factors' t :=
  h.mono (List.subset_append_right _ _)

theorem tail {f : Factor} (h : s.Matches total put (f :: factors) t) : s.Matches total put factors t :=
  h.mono (List.subset_cons_self _ _)

/-- Inside a definition the variables stay as they are: a parameter with an argument has the value of
the argument, and all others are looked up. -/
theorem enter (d : FunctionDefinition) (arguments : List α)
    (h : ∀ name, d.LooksUp arguments.length name →
      s.environment.value? name = t.environment.value? name) :
    (s.enter (d.parameters.zip arguments)).Matches total .variable d.body.factors
      (t.enter (d.parameters.zip arguments)) where
  values name bound hmem := by
    cases bound with
    | some x => rfl
    | none =>
      apply congrArg (Option.getD · Scalar.undefined)
      simp only [Scope.value?, Scope.enter]
      cases hlookup : (d.parameters.zip arguments).lookup name with
      | some x => rfl
      | none => exact h name (.free hmem (not_mem_take_of_lookup hlookup))
  lookups name hlooks := by
    obtain ⟨f, inner, pass, d', hmem, hinner⟩ := hlooks
    exact h name (.call hmem hinner)

end Scope.Matches

mutual

/-- A changed tree has in one scope the interpretation that the tree has in the other. -/
theorem Expression.interpret_onVariables : ∀ (e : Expression) (put : Char → Option Float → Factor)
    (s t : Scope α), s.Matches total put e.factors t →
      (e.mapFactors (.onVariables put)).interpret total s = e.interpret total t
  | ⟨items⟩, put, s, t, h => congrArg total (interpretItems_onVariables items put s t h)

theorem interpretItems_onVariables : ∀ (is : List Item) (put : Char → Option Float → Factor)
    (s t : Scope α), s.Matches total put (factorsOfItems is) t →
      interpretItems total s (mapItems (.onVariables put) is) = interpretItems total t is
  | [], _, _, _, _ => rfl
  | ⟨positive, factors⟩ :: is, put, s, t, h =>
    congrArg₂ (fun fs is => (positive, fs) :: is)
      (interpretFactors_onVariables factors put s t h.left) (interpretItems_onVariables is put s t h.right)

theorem interpretFactors_onVariables : ∀ (fs : List Factor) (put : Char → Option Float → Factor)
    (s t : Scope α), s.Matches total put (factorsOfFactors fs) t →
      interpretFactors total s (mapFactorList (.onVariables put) fs) = interpretFactors total t fs
  | [], _, _, _, _ => rfl
  | f :: fs, put, s, t, h =>
    congrArg₂ List.cons (f.interpret_onVariables put s t h.left)
      (interpretFactors_onVariables fs put s t h.right)

theorem Factor.interpret_onVariables : ∀ (f : Factor) (put : Char → Option Float → Factor)
    (s t : Scope α), s.Matches total put f.withInner t →
      (f.mapInner (.onVariables put)).interpret total s = f.interpret total t
  | .number _, _, _, _, _ | .constant _, _, _, _, _ => rfl
  | .variable name bound, put, s, t, h => h.values name bound List.mem_cons_self
  | .fraction a b, put, s, t, h =>
    congrArg₂ (· / ·) (a.interpret_onVariables put s t h.tail.left)
      (b.interpret_onVariables put s t h.tail.right)
  | .power a b, put, s, t, h =>
    congrArg₂ Scalar.power (a.interpret_onVariables put s t h.tail.left)
      (b.interpret_onVariables put s t h.tail.right)
  | .bracket a, put, s, t, h => a.interpret_onVariables put s t h.tail
  | .unary f a, put, s, t, h => congrArg (Scalar.apply f) (a.interpret_onVariables put s t h.tail)
  | .logarithm a b, put, s, t, h =>
    congrArg₂ Scalar.logarithm (a.interpret_onVariables put s t h.tail.left)
      (b.interpret_onVariables put s t h.tail.right)
  | .call name arguments .unlinked, put, s, t, h => rfl
  | .call name arguments (.linked pass ⟨dname, parameters, body, dglobals⟩), put, s, t, h => by
    have hvalues := interpretExpressions_onVariables arguments put s t h.tail
    have hlength : (interpretExpressions total t arguments).length = arguments.length := by
      rw [interpretExpressions_eq_map, List.length_map]
    have hbody := body.interpret_onVariables .variable _ _ (Scope.Matches.enter
      ⟨dname, parameters, body, dglobals⟩ (interpretExpressions total t arguments)
      fun n hn => h.lookups n ⟨name, arguments, pass, _, List.mem_cons_self, hlength ▸ hn⟩)
    rw [body.mapFactors_eq_self fun f _ => by cases f <;> rfl] at hbody
    simp only [Factor.mapInner, Factor.onVariables, Factor.interpret, Link.interpret,
      FunctionDefinition.interpret, hvalues]
    exact hbody

theorem interpretExpressions_onVariables : ∀ (es : List Expression)
    (put : Char → Option Float → Factor) (s t : Scope α),
    s.Matches total put (factorsOfExpressions es) t →
      interpretExpressions total s (mapExpressions (.onVariables put) es) =
        interpretExpressions total t es
  | [], _, _, _, _ => rfl
  | e :: es, put, s, t, h =>
    congrArg₂ List.cons (e.interpret_onVariables put s t h.left)
      (interpretExpressions_onVariables es put s t h.right)

end

end Scopes

/-! ### Occurrences of variables -/

/-- The name of a variable, and the value that is bound to it in place. -/
def Factor.variable? : Factor → Option (Char × Option Float)
  | .variable name bound => some (name, bound)
  | _ => none

/-- The variables of an expression, each as often as it occurs. -/
def Expression.occurrences (e : Expression) : List (Char × Option Float) :=
  e.factors.filterMap Factor.variable?

theorem mem_occurrences {e : Expression} {name : Char} {bound : Option Float}
    (h : .variable name bound ∈ e.factors) : (name, bound) ∈ e.occurrences :=
  List.mem_filterMap.2 ⟨_, h, rfl⟩

/-- The variables of a changed tree are those of what has been put in. -/
theorem Expression.occurrences_onVariables (put : Char → Option Float → Factor) (e : Expression) :
    (e.mapFactors (.onVariables put)).occurrences =
      e.occurrences.flatMap fun o => (put o.1 o.2).withInner.filterMap Factor.variable? := by
  rw [occurrences, occurrences, e.factors_mapFactors (keepsInner_onVariables put),
    List.filterMap_flatMap, List.filterMap_eq_flatMap_toList, List.flatMap_assoc]
  congr 1
  funext f
  cases f <;> simp [Factor.mapChildren, Factor.behind, Factor.variable?]

/-- A variable that is replaced occurs no more; the variables of what is put in its place do. -/
theorem Expression.occurrences_substitute (bindings : Bindings) (e : Expression) :
    (e.substitute bindings).occurrences = e.occurrences.flatMap fun o =>
      match bindings.lookup o.1 with
      | none => [o]
      | some (.value _) => []
      | some (.expression inserted) => inserted.occurrences := by
  rw [substitute_eq, Factor.replaced_eq, occurrences_onVariables]
  congr 1
  funext o
  rw [Factor.replaced]
  cases bindings.lookup o.1 with
  | none => rfl
  | some s => cases s <;> rfl

section Filtering

variable {β : Type} [DecidableEq β] (p : β → Bool)

theorem filter_addNew (xs : List β) (x : β) :
    (addNew xs x).filter p = if p x then addNew (xs.filter p) x else xs.filter p := by
  unfold addNew
  by_cases hx : p x = true <;> by_cases hmem : x ∈ xs <;> simp [hx, hmem]

theorem filter_addAllNew (xs ys : List β) :
    (addAllNew xs ys).filter p = addAllNew (xs.filter p) (ys.filter p) := by
  induction ys generalizing xs with
  | nil => rfl
  | cons y ys ih =>
    have hstep : addAllNew xs (y :: ys) = addAllNew (addNew xs y) ys := rfl
    rw [hstep, ih, filter_addNew]
    by_cases hy : p y = true
    · rw [if_pos hy, List.filter_cons_of_pos hy]
      rfl
    · rw [if_neg hy, List.filter_cons_of_neg hy]

theorem filter_distinct (xs : List β) : (distinct xs).filter p = distinct (xs.filter p) :=
  filter_addAllNew p [] xs

end Filtering

theorem lookup_map_snd {β γ : Type} (g : β → γ) (xs : List (Char × β)) (name : Char) :
    (xs.map fun x => (x.1, g x.2)).lookup name = (xs.lookup name).map g := by
  induction xs with
  | nil => rfl
  | cons x xs ih =>
    rw [List.map_cons, List.lookup_cons, List.lookup_cons, ih]
    cases name == x.1 <;> rfl

/-- The name of a variable that has no value bound in place. -/
def freeName : Char × Option Float → Option Char
  | (name, none) => some name
  | (_, some _) => none

theorem Expression.allVariables_eq (e : Expression) :
    e.allVariables = distinct (e.occurrences.map Prod.fst) := by
  rw [allVariables, occurrences, List.map_filterMap]
  congr 2
  funext f
  cases f <;> rfl

theorem Expression.freeVariables_eq (e : Expression) :
    e.freeVariables = distinct (e.occurrences.filterMap freeName) := by
  rw [freeVariables, occurrences, List.filterMap_filterMap]
  congr 2
  funext f
  cases f with
  | «variable» name bound => cases bound <;> rfl
  | _ => rfl

/-! ### Values bound in place -/

/-- The variable with the value bound to it in place that it is given. -/
def Factor.bound (values : List (Char × Option Float)) (name : Char) (bound : Option Float) : Factor :=
  .variable name ((values.lookup name).getD bound)

theorem Expression.hiddenSubstitute_eq (values : List (Char × Option Float)) (e : Expression) :
    e.hiddenSubstitute values = e.mapFactors (.onVariables (Factor.bound values)) := by
  rfl

theorem Expression.occurrences_hiddenSubstitute (values : List (Char × Option Float))
    (e : Expression) : (e.hiddenSubstitute values).occurrences =
      e.occurrences.map fun o => (o.1, (values.lookup o.1).getD o.2) := by
  rw [hiddenSubstitute_eq, occurrences_onVariables]
  exact List.flatMap_pure_eq_map _ _

theorem Expression.allVariables_hiddenSubstitute (values : List (Char × Option Float))
    (e : Expression) : (e.hiddenSubstitute values).allVariables = e.allVariables := by
  rw [allVariables_eq, allVariables_eq, occurrences_hiddenSubstitute, List.map_map]
  rfl

/-- Variables that get a value are not free any more. -/
theorem Expression.freeVariables_hiddenSubstitute (values : List (Char × Float)) (e : Expression) :
    (e.hiddenSubstitute (values.map fun v => (v.1, some v.2))).freeVariables =
      e.freeVariables.filter fun name => (values.lookup name).isNone := by
  rw [freeVariables_eq, freeVariables_eq, occurrences_hiddenSubstitute, filter_distinct,
    List.filterMap_map, List.filter_filterMap]
  congr 2
  funext o
  obtain ⟨name, bound⟩ := o
  simp only [Function.comp_apply, lookup_map_snd]
  cases hlookup : values.lookup name <;> cases bound <;> simp [freeName, Option.filter, hlookup]

/-- Values that are bound in place can be cleared, if there were none before. -/
theorem Expression.hiddenSubstitute_clear {values : List (Char × Float)} {e : Expression}
    (h : ∀ name x, (name, some x) ∈ e.occurrences → values.lookup name = none) :
    (e.hiddenSubstitute (values.map fun v => (v.1, some v.2))).hiddenSubstitute
      (values.map fun v => (v.1, none)) = e := by
  rw [hiddenSubstitute_eq, hiddenSubstitute_eq, mapFactors_onVariables]
  refine e.mapFactors_eq_self fun f hf => ?_
  cases f with
  | «variable» name bound =>
    have hclear := lookup_map_snd (fun _ => (none : Option Float)) values name
    have hgiven := lookup_map_snd some values name
    simp only [Factor.onVariables, Factor.bound, Factor.mapInner, hclear, hgiven]
    cases bound with
    | none => cases values.lookup name <;> rfl
    | some x =>
      rw [h name x (mem_occurrences hf)]
      rfl
  | _ => rfl

/-! ### Three ways to give a value -/

variable [Scalar α]

theorem variableValue_overriddenBy (env : Environment α) {bindings : Bindings} {name : Char}
    {bound : Option Float} (h : bound = none ∨ bindings.lookup name = none) :
    variableValue (.outermost (env.overriddenBy bindings)) name bound =
      match bindings.lookup name with
      | some s => s.valueIn env
      | none => variableValue (.outermost env) name bound := by
  have hvalue : (Scope.outermost (env.overriddenBy bindings)).value? name =
      ((bindings.lookup name).map (·.valueIn env)).or (env.value? name) :=
    env.value?_overriddenBy bindings name
  cases hlookup : bindings.lookup name with
  | some s =>
    obtain rfl : bound = none := h.resolve_right (by simp [hlookup])
    rw [variableValue, hvalue, hlookup]
    rfl
  | none =>
    cases bound with
    | some x => rfl
    | none =>
      rw [variableValue, hvalue, hlookup]
      rfl

/-- A changed tree has the value of the tree in an environment with other values, if what is put in
has them. -/
theorem Expression.compute_onVariables {e : Expression} {bindings : Bindings}
    (env : Environment α) {put : Char → Option Float → Factor}
    (hlinks : ∀ name, LooksUpBehind e.factors name → bindings.lookup name = none)
    (hput : ∀ name bound, (name, bound) ∈ e.occurrences → (put name bound).value (.outermost env) =
      variableValue (.outermost (env.overriddenBy bindings)) name bound) :
    (e.mapFactors (.onVariables put)).compute env = e.compute (env.overriddenBy bindings) := by
  rw [compute, compute, value_eq_interpret, value_eq_interpret]
  apply e.interpret_onVariables
  constructor
  · intro name bound hmem
    rw [← Factor.value_eq_interpret]
    exact hput name bound (mem_occurrences hmem)
  · intro name hlooks
    have hvalue := env.value?_overriddenBy bindings name
    rw [hlinks name hlooks] at hvalue
    exact hvalue.symm

/-- Replacing variables, binding values to them in place and overriding the environment agree, if the
variables have no value bound in place before and no linked definition looks them up: the variables
that have a binding are replaced at once, and what is put in is not changed again. -/
theorem Expression.substitute_agrees {e : Expression} {bindings : Bindings} (env : Environment α)
    (hplain : ∀ name x, (name, some x) ∈ e.occurrences → bindings.lookup name = none)
    (hlinks : ∀ name, LooksUpBehind e.factors name → bindings.lookup name = none) :
    (e.substitute bindings).compute env = e.compute (env.overriddenBy bindings) ∧
      (e.substitute bindings).occurrences = (e.occurrences.flatMap fun o =>
        match bindings.lookup o.1 with
        | none => [o]
        | some (.value _) => []
        | some (.expression inserted) => inserted.occurrences) ∧
      ∀ values : List (Char × Float), bindings = values.map (fun v => (v.1, .value v.2)) →
        ∀ hidden, hidden = e.hiddenSubstitute (values.map fun v => (v.1, some v.2)) →
          hidden.compute env = e.compute (env.overriddenBy bindings) ∧
            hidden.allVariables = e.allVariables ∧
            hidden.freeVariables =
              e.freeVariables.filter (fun name => (bindings.lookup name).isNone) ∧
            hidden.hiddenSubstitute (values.map fun v => (v.1, none)) = e := by
  have hoccurs : ∀ name bound, (name, bound) ∈ e.occurrences →
      bound = none ∨ bindings.lookup name = none := by
    intro name bound hmem
    cases bound with
    | none => exact .inl rfl
    | some x => exact .inr (hplain name x hmem)
  refine ⟨?_, ?_, ?_⟩
  · rw [substitute_eq, Factor.replaced_eq]
    refine compute_onVariables env hlinks fun name bound hmem => ?_
    rw [variableValue_overriddenBy env (hoccurs name bound hmem), Factor.replaced]
    cases bindings.lookup name with
    | none => rfl
    | some s => cases s <;> rfl
  · exact occurrences_substitute bindings e
  · rintro values rfl hidden rfl
    have hlookup := lookup_map_snd Substitute.value values
    refine ⟨?_, allVariables_hiddenSubstitute _ e, ?_, ?_⟩
    · rw [hiddenSubstitute_eq]
      refine compute_onVariables env hlinks fun name bound hmem => ?_
      rw [variableValue_overriddenBy env (hoccurs name bound hmem), Factor.bound, lookup_map_snd,
        hlookup]
      cases values.lookup name <;> rfl
    · rw [freeVariables_hiddenSubstitute]
      simp [hlookup]
    · refine hiddenSubstitute_clear fun name x hmem => ?_
      have hnone := hplain name x hmem
      rw [hlookup] at hnone
      exact Option.map_eq_none_iff.1 hnone

/-- Two variables are exchanged, and a value is given to one of them, around a call of a definition
that looks up a third one. -/
theorem Expression.substitute_agrees_around_call :
    let x : Factor := .variable 'x' none
    let y : Factor := .variable 'y' none
    let f : FunctionDefinition :=
      ⟨'f', ['t'], ⟨[⟨true, [.variable 't' none]⟩, ⟨true, [.variable 'w' none]⟩]⟩, ['w']⟩
    let e : Expression := ⟨[⟨true, [x]⟩, ⟨false, [.call 'f' [.ofFactor y] (.linked 0 f)]⟩]⟩
    let exchange : Bindings := [('x', .expression (.ofFactor y)), ('y', .expression (.ofFactor x))]
    let env : Environment Float :=
      ((Directory.empty.insert ('x', 2)).insert ('y', 3)).insert ('w', 10)
    (e.substitute exchange).compute env = -9 ∧
      (e.substitute exchange).occurrences = [('y', none), ('x', none)] ∧
      (e.substitute [('x', .value 5)]).compute env = -8 ∧
      (e.hiddenSubstitute [('x', some 5)]).compute env = -8 ∧
      (e.hiddenSubstitute [('x', some 5)]).freeVariables = ['y'] ∧
      (e.hiddenSubstitute [('x', some 5)]).hiddenSubstitute [('x', none)] = e := by
  intro x y f e exchange env
  have hplain : ∀ name value, (name, some value) ∉ e.occurrences := by
    intro name value hmem
    simp [e, x, y, occurrences, factors, factorsOfItems, Item.allFactors, factorsOfFactors,
      Factor.withInner, factorsOfExpressions, ofFactor, Factor.variable?] at hmem
  have hlooks : ∀ name, LooksUpBehind e.factors name → name = 'w' := by
    rintro name ⟨g, arguments, pass, d, hmem, hlooks⟩
    simp [e, x, y, factors, factorsOfItems, Item.allFactors, factorsOfFactors, Factor.withInner,
      factorsOfExpressions, ofFactor] at hmem
    obtain ⟨rfl, rfl, rfl, rfl⟩ := hmem
    cases hlooks with
    | free hfree hparameter =>
      simp [f, factors, factorsOfItems, Item.allFactors, factorsOfFactors, Factor.withInner]
        at hfree hparameter
      exact hfree.resolve_left hparameter
    | call hcall =>
      simp [f, factors, factorsOfItems, Item.allFactors, factorsOfFactors, Factor.withInner] at hcall
  have hexchange := @Expression.substitute_agrees Float _ e exchange env
    (fun name value hmem => absurd hmem (hplain name value))
    (fun name hname => by rw [hlooks name hname]; rfl)
  have hvalue := @Expression.substitute_agrees Float _ e [('x', .value 5)] env
    (fun name value hmem => absurd hmem (hplain name value))
    (fun name hname => by rw [hlooks name hname]; rfl)
  obtain ⟨hhidden, -, hfree, hclear⟩ := hvalue.2.2 [('x', 5)] rfl _ rfl
  have hnine : e.compute (env.overriddenBy exchange) = -9 := by decide +kernel
  have height : e.compute (env.overriddenBy [('x', .value 5)]) = -8 := by decide +kernel
  exact ⟨hexchange.1.trans hnine, hexchange.2.1, hvalue.1.trans height, hhidden.trans height, hfree,
    hclear⟩

end ImplicitCurves

import ImplicitCurves.Proofs.Tree.Interpretation
import ImplicitCurves.Proofs.Tree.Linking
import ImplicitCurves.Proofs.Tree.Replacement

/-!
# Inlined trees

Inlining that succeeds gives a tree that has the interpretation of the linked tree.  The body of a
definition is linked once and evaluated with its parameters as arguments; inlining puts expressions
in the place of the parameters instead, and evaluates everything outside of all functions.  What
carries the proof through the bodies is that each parameter stands for the same value on both sides,
and that what was put in has no calls left to inline.
-/

namespace ImplicitCurves

/-- The factor with an expression or a number in place of a variable that has a binding. -/
def Factor.replaced (bindings : Bindings) : Factor → Factor
  | .variable name bound =>
    match bindings.lookup name with
    | some s => s.toFactor
    | none => .variable name bound
  | f => f

theorem Factor.replaced_eq (bindings : Bindings) : Factor.replaced bindings =
    .onVariables fun name bound => (Factor.variable name bound).replaced bindings := by
  funext f
  cases f <;> rfl

theorem Expression.substitute_eq (bindings : Bindings) (e : Expression) :
    e.substitute bindings = e.mapFactors (Factor.replaced bindings) := by
  rfl

/-- The factor is not a call that linking or inlining could change. -/
def Factor.Settled (table : FunctionTable) : Factor → Prop
  | .call name arguments link => link = .unlinked ∧ table.find? ⟨name, arguments.length⟩ = none
  | _ => True

theorem Expression.substitute_nil (e : Expression) : e.substitute [] = e := by
  refine e.mapFactors_eq_self fun f _ => ?_
  cases f <;> rfl

/-- Only calls of definitions in the table are expanded. -/
theorem FunctionTable.expand_of_find? {table : FunctionTable} {key : FunctionKey}
    (h : table.find? key = none) (depth : Nat) (stack : List FunctionKey)
    (arguments : List Expression) : table.expand depth stack key arguments = none := by
  unfold expand
  rw [h]

variable {table : FunctionTable} {expand : Expander}

mutual

/-- Inlining changes nothing in a tree without calls of definitions in the table. -/
theorem Expression.inlineWith_of_settled
    (hexpand : ∀ key arguments, table.find? key = none → expand key arguments = none) :
    ∀ (e : Expression) (s : Option Error), (∀ f ∈ e.factors, f.Settled table) →
      e.inlineWith expand s = (e, s)
  | ⟨items⟩, s, h => by
    rw [Expression.inlineWith, inlineItems_of_settled hexpand items s h]

theorem inlineItems_of_settled
    (hexpand : ∀ key arguments, table.find? key = none → expand key arguments = none) :
    ∀ (is : List Item) (s : Option Error), (∀ f ∈ factorsOfItems is, f.Settled table) →
      inlineItems expand is s = (is, s)
  | [], _, _ => rfl
  | ⟨positive, factors⟩ :: is, s, h => by
    obtain ⟨hitem, hrest⟩ := List.forall_mem_append.1 h
    rw [inlineItems, Item.inlineWith, inlineFactors_of_settled hexpand factors s hitem]
    simp only [inlineItems_of_settled hexpand is s hrest]

theorem inlineFactors_of_settled
    (hexpand : ∀ key arguments, table.find? key = none → expand key arguments = none) :
    ∀ (fs : List Factor) (s : Option Error), (∀ f ∈ factorsOfFactors fs, f.Settled table) →
      inlineFactors expand fs s = (fs, s)
  | [], _, _ => rfl
  | f :: fs, s, h => by
    obtain ⟨hfactor, hrest⟩ := List.forall_mem_append.1 h
    rw [inlineFactors, f.inlineWith_of_settled hexpand s hfactor]
    simp only [inlineFactors_of_settled hexpand fs s hrest]

theorem Factor.inlineWith_of_settled
    (hexpand : ∀ key arguments, table.find? key = none → expand key arguments = none) :
    ∀ (f : Factor) (s : Option Error), (∀ g ∈ f.withInner, g.Settled table) →
      f.inlineWith expand s = (f, s)
  | .number _, _, _ | .constant _, _, _ | .variable _ _, _, _ => rfl
  | .fraction a b, s, h | .power a b, s, h | .logarithm a b, s, h => by
    obtain ⟨ha, hb⟩ := List.forall_mem_append.1 (List.forall_mem_cons.1 h).2
    rw [Factor.inlineWith, a.inlineWith_of_settled hexpand s ha]
    simp only [b.inlineWith_of_settled hexpand s hb]
  | .bracket a, s, h | .unary _ a, s, h => by
    rw [Factor.inlineWith, a.inlineWith_of_settled hexpand s (List.forall_mem_cons.1 h).2]
  | .call name arguments link, s, h => by
    obtain ⟨⟨-, hkey⟩, harguments⟩ := List.forall_mem_cons.1 h
    rw [Factor.inlineWith, inlineExpressions_of_settled hexpand arguments s harguments]
    cases s with
    | none => simp only [hexpand _ arguments hkey]
    | some error => rfl

theorem inlineExpressions_of_settled
    (hexpand : ∀ key arguments, table.find? key = none → expand key arguments = none) :
    ∀ (es : List Expression) (s : Option Error),
      (∀ f ∈ factorsOfExpressions es, f.Settled table) → inlineExpressions expand es s = (es, s)
  | [], _, _ => rfl
  | e :: es, s, h => by
    obtain ⟨hfirst, hrest⟩ := List.forall_mem_append.1 h
    rw [inlineExpressions, e.inlineWith_of_settled hexpand s hfirst]
    simp only [inlineExpressions_of_settled hexpand es s hrest]

end

theorem length_inlineExpressions (expand : Expander) (es : List Expression) (s : Option Error) :
    (inlineExpressions expand es s).1.length = es.length := by
  induction es generalizing s with
  | nil => rfl
  | cons e es ih => simp [inlineExpressions, ih]

theorem mem_factorsOfExpressions {e : Expression} {es : List Expression} (h : e ∈ es) :
    ∀ f ∈ e.factors, f ∈ factorsOfExpressions es := by
  induction es with
  | nil => exact absurd h List.not_mem_nil
  | cons e' es ih =>
    intro f hf
    rcases List.mem_cons.1 h with rfl | h
    · exact List.mem_append_left _ hf
    · exact List.mem_append_right _ (ih h f hf)

/-- A call is expanded to the body of its definition, inlined with the arguments in place of the
parameters. -/
theorem FunctionTable.expand_of_covers {depth : Nat} {stack : List FunctionKey}
    (h : table.Covers depth stack) {key : FunctionKey} {d : FunctionDefinition}
    (hkey : table.find? key = some d) (arguments : List Expression) :
    (∃ error, table.expand depth stack key arguments = some (.error error)) ∨
      ∃ depth', table.Covers depth' (stack ++ [key]) ∧ ∃ body,
        (d.body.substitute (bindArguments d.parameters arguments)).inlineWith
          (table.expand depth' (stack ++ [key])) none = (body, none) ∧
        table.expand depth stack key arguments = some (.ok body) := by
  by_cases hstack : stack.contains key = true
  · refine .inl ⟨recursionError stack key, ?_⟩
    unfold expand
    simp only [hkey, if_pos hstack]
  · obtain ⟨depth', rfl, hcovers⟩ := h.push hkey (by simpa using hstack)
    rcases hbody : (d.body.substitute (bindArguments d.parameters arguments)).inlineWith
      (table.expand depth' (stack ++ [key])) none with ⟨body, failure⟩
    cases failure with
    | none =>
      refine .inr ⟨depth', hcovers, body, hbody, ?_⟩
      rw [expand]
      simp only [hkey, if_neg hstack, hbody]
    | some error =>
      refine .inl ⟨error, ?_⟩
      rw [expand]
      simp only [hkey, if_neg hstack, hbody]

/-- If there is no failure after a stage of inlining, then there was none before it and what it
leads to is right. -/
def InlinesTo {τ : Type} (s : Option Error) (r : τ × Option Error) (right : τ → Prop) : Prop :=
  r.2 = none → s = none ∧ right r.1

theorem InlinesTo.map {τ υ : Type} {s : Option Error} {r : τ × Option Error} {p : τ → Prop}
    {q : υ → Prop} (h : InlinesTo s r p) {g : τ → υ} (hg : ∀ x, p x → q (g x)) :
    InlinesTo s (g r.1, r.2) q := by
  intro hnone
  obtain ⟨hs, hr⟩ := h hnone
  exact ⟨hs, hg r.1 hr⟩

/-- A stage after a stage. -/
theorem InlinesTo.pair {τ υ φ : Type} {s : Option Error} {r : τ × Option Error}
    {r' : υ × Option Error} {p : τ → Prop} {q : υ → Prop} {t : φ → Prop} (h : InlinesTo s r p)
    (h' : InlinesTo r.2 r' q) {g : τ → υ → φ} (hg : ∀ x y, p x → q y → t (g x y)) :
    InlinesTo s (g r.1 r'.1, r'.2) t := by
  intro hnone
  obtain ⟨hr, hq⟩ := h' hnone
  obtain ⟨hs, hp⟩ := h hr
  exact ⟨hs, hg r.1 r'.1 hp hq⟩

section Calls

variable {expand : Expander} {name : Char} {arguments inlined : List Expression} {link : Link}
  {s : Option Error}

theorem Factor.inlineWith_call_failed {error : Error}
    (h : inlineExpressions expand arguments s = (inlined, some error)) :
    (Factor.call name arguments link).inlineWith expand s =
      (.call name inlined link, some error) := by
  simp only [Factor.inlineWith, h]

theorem Factor.inlineWith_call_stays (h : inlineExpressions expand arguments s = (inlined, none))
    (hexpand : expand ⟨name, inlined.length⟩ inlined = none) :
    (Factor.call name arguments link).inlineWith expand s = (.call name inlined link, none) := by
  simp only [Factor.inlineWith, h, hexpand]

theorem Factor.inlineWith_call_error {error : Error}
    (h : inlineExpressions expand arguments s = (inlined, none))
    (hexpand : expand ⟨name, inlined.length⟩ inlined = some (.error error)) :
    (Factor.call name arguments link).inlineWith expand s =
      (.call name inlined link, some error) := by
  simp only [Factor.inlineWith, h, hexpand]

theorem Factor.inlineWith_call_expanded {body : Expression}
    (h : inlineExpressions expand arguments s = (inlined, none))
    (hexpand : expand ⟨name, inlined.length⟩ inlined = some (.ok body)) :
    (Factor.call name arguments link).inlineWith expand s = (.bracket body, none) := by
  simp only [Factor.inlineWith, h, hexpand]

end Calls

section Agreement

variable {α : Type} [Scalar α]

/-- What takes the place of a variable has, outside of all functions, the value that the variable has
with the given arguments, and there is nothing to inline in it. -/
structure Bindings.Represent (bindings : Bindings) (table : FunctionTable)
    (total : List (Bool × List α) → α) (env : Environment α) (locals : List (Char × α)) : Prop where
  value : ∀ name, variableValue ⟨env, locals⟩ name none =
    ((Factor.variable name none).replaced bindings).interpret total (Scope.outermost env)
  settled : ∀ name, ∀ f ∈ ((Factor.variable name none).replaced bindings).withInner, f.Settled table

theorem interpretExpressions_eq_map (total : List (Bool × List α) → α) (scope : Scope α)
    (es : List Expression) :
    interpretExpressions total scope es = es.map (Expression.interpret total scope) := by
  induction es with
  | nil => rfl
  | cons e es ih => rw [interpretExpressions, ih, List.map_cons]

theorem lookup_zip_map {β γ : Type} (g : β → γ) (names : List Char) (xs : List β) (name : Char) :
    (names.zip (xs.map g)).lookup name = ((names.zip xs).lookup name).map g := by
  induction names generalizing xs with
  | nil => rfl
  | cons n names ih =>
    cases xs with
    | nil => rfl
    | cons x xs =>
      simp only [List.map_cons, List.zip_cons_cons, List.lookup_cons]
      split
      · rfl
      · exact ih xs

theorem pairwise_zip {β : Type} {names : List Char} (h : names.Nodup) (xs : List β) :
    (names.zip xs).Pairwise fun a b => a.1 ≠ b.1 := by
  induction names generalizing xs with
  | nil => exact .nil
  | cons n names ih =>
    obtain ⟨hn, hnames⟩ := List.nodup_cons.1 h
    cases xs with
    | nil => exact .nil
    | cons x xs =>
      refine List.pairwise_cons.2 ⟨?_, ih hnames xs⟩
      rintro ⟨n', x'⟩ hmem rfl
      exact hn (List.of_mem_zip hmem).1

/-- Different parameters stand for the arguments at their places. -/
theorem lookup_bindArguments {parameters : List Char} (h : parameters.Nodup)
    (arguments : List Expression) (name : Char) : (bindArguments parameters arguments).lookup name =
      ((parameters.zip arguments).lookup name).map .expression := by
  rw [bindArguments, ← lookup_zip_map]
  exact (lookup_eq_of_perm (List.reverse_perm _).symm (pairwise_zip h _) name).symm

/-- Outside of all functions the variables have their own values. -/
theorem Bindings.represent_nil (table : FunctionTable) (total : List (Bool × List α) → α)
    (env : Environment α) : Bindings.Represent [] table total env [] where
  value _ := rfl
  settled name f hf := by
    obtain rfl := List.mem_singleton.1 hf
    trivial

/-- In a body, the arguments stand for the parameters. -/
theorem Bindings.represent_bindArguments {total : List (Bool × List α) → α} {env : Environment α}
    {arguments : List Expression} (h : ∀ f ∈ factorsOfExpressions arguments, f.Settled table)
    {parameters : List Char} (hnodup : parameters.Nodup) :
    (bindArguments parameters arguments).Represent table total env
      (parameters.zip (interpretExpressions total (Scope.outermost env) arguments)) := by
  have hlookup := lookup_bindArguments hnodup arguments
  refine ⟨fun name => ?_, fun name => ?_⟩
  · rw [interpretExpressions_eq_map]
    simp only [variableValue, Scope.value?, Factor.replaced, hlookup, lookup_zip_map]
    cases hname : (parameters.zip arguments).lookup name with
    | none => rfl
    | some argument => rfl
  · simp only [Factor.replaced, hlookup]
    cases hname : (parameters.zip arguments).lookup name with
    | none => simp [Factor.withInner, Factor.Settled]
    | some argument =>
      have hmem := (List.of_mem_zip (mem_of_lookup_eq_some hname)).2
      have hargument := mem_factorsOfExpressions hmem
      simp only [Option.map_some, Substitute.toFactor, Factor.withInner, List.forall_mem_cons]
      exact ⟨trivial, fun f hf => h f (hargument f hf)⟩

end Agreement

end ImplicitCurves

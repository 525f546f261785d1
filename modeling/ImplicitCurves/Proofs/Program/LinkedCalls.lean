import ImplicitCurves.Program.Compiler
import ImplicitCurves.Proofs.Program.Meaning

/-!
# Calls that are compiled

The calls of functions in the code of a tree: linked calls, also in arguments of linked calls, but not
in arguments of calls that are not linked, which have no code.  From the tree the calls in its code
lead on through the bodies of the definitions (`Called`).
-/

namespace ImplicitCurves

/-- The number of parameters of the definition of a link. -/
def LinkId.arity (id : LinkId) : Nat :=
  id.definition.parameters.length

mutual

/-- The calls in the code of an expression, each with what it is linked to. -/
def Expression.linkedCalls : Expression → List (FunctionKey × LinkId)
  | ⟨items⟩ => linkedCallsOfItems items

/-- The calls in the code of items. -/
def linkedCallsOfItems : List Item → List (FunctionKey × LinkId)
  | [] => []
  | i :: is => i.linkedCalls ++ linkedCallsOfItems is

/-- The calls in the code of an item. -/
def Item.linkedCalls : Item → List (FunctionKey × LinkId)
  | ⟨_, factors⟩ => linkedCallsOfFactors factors

/-- The calls in the code of factors. -/
def linkedCallsOfFactors : List Factor → List (FunctionKey × LinkId)
  | [] => []
  | f :: fs => f.linkedCalls ++ linkedCallsOfFactors fs

/-- The calls in the code of a factor. -/
def Factor.linkedCalls : Factor → List (FunctionKey × LinkId)
  | .number _ | .constant _ | .variable _ _ | .call _ _ .unlinked => []
  | .fraction a b | .power a b | .logarithm a b => a.linkedCalls ++ b.linkedCalls
  | .bracket a | .unary _ a => a.linkedCalls
  | .call name arguments (.linked pass definition) =>
    linkedCallsOfArguments arguments ++ [(⟨name, arguments.length⟩, ⟨pass, definition⟩)]

/-- The calls in the code of arguments. -/
def linkedCallsOfArguments : List Expression → List (FunctionKey × LinkId)
  | [] => []
  | e :: es => e.linkedCalls ++ linkedCallsOfArguments es

end

/-- A function is called from the code of expressions, or from that of a definition that is. -/
inductive Called (es : List Expression) : FunctionKey → LinkId → Prop where
  | direct {e : Expression} {key : FunctionKey} {id : LinkId} (he : e ∈ es)
      (hcall : (key, id) ∈ e.linkedCalls) : Called es key id
  | inside {key key' : FunctionKey} {id id' : LinkId} (hcalled : Called es key id)
      (hcall : (key', id') ∈ id.definition.body.linkedCalls) : Called es key' id'

/-- What holds of calls and is passed on to the calls in the bodies of definitions holds of all that
is called. -/
theorem Called.of_closed {es : List Expression} {P : FunctionKey → LinkId → Prop}
    (hdirect : ∀ e ∈ es, ∀ key id, (key, id) ∈ e.linkedCalls → P key id)
    (hclosed : ∀ key id, P key id → ∀ key' id', (key', id') ∈ id.definition.body.linkedCalls →
      P key' id')
    {key : FunctionKey} {id : LinkId} (h : Called es key id) : P key id := by
  induction h with
  | direct he hcall => exact hdirect _ he _ _ hcall
  | inside _ hcall ih => exact hclosed _ _ ih _ _ hcall

/-- A call has as many arguments as its definition has parameters, and so have the calls in the body
of the definition. -/
def CallFits (key : FunctionKey) (id : LinkId) : Prop :=
  id.arity = key.arity ∧ id.definition.bodyFits = true

theorem forall_mem_append_calls {P : FunctionKey → LinkId → Prop}
    {xs ys : List (FunctionKey × LinkId)} (hx : ∀ key id, (key, id) ∈ xs → P key id)
    (hy : ∀ key id, (key, id) ∈ ys → P key id) :
    ∀ key id, (key, id) ∈ xs ++ ys → P key id := by
  intro key id hmem
  rcases List.mem_append.1 hmem with hmem | hmem
  · exact hx key id hmem
  · exact hy key id hmem

mutual

/-- If all calls fit, then each call in the code does. -/
theorem Expression.callFits : ∀ e : Expression, e.callsFit = true →
    ∀ key id, (key, id) ∈ e.linkedCalls → CallFits key id
  | ⟨items⟩, h => callFits_items items h

theorem callFits_items : ∀ is : List Item, itemsFit is = true →
    ∀ key id, (key, id) ∈ linkedCallsOfItems is → CallFits key id
  | [], _ => fun _ _ hmem => absurd hmem List.not_mem_nil
  | ⟨_, factors⟩ :: is, h => by
    obtain ⟨hitem, hrest⟩ := Bool.and_eq_true_iff.1 h
    exact forall_mem_append_calls (callFits_factors factors hitem) (callFits_items is hrest)

theorem callFits_factors : ∀ fs : List Factor, factorsFit fs = true →
    ∀ key id, (key, id) ∈ linkedCallsOfFactors fs → CallFits key id
  | [], _ => fun _ _ hmem => absurd hmem List.not_mem_nil
  | f :: fs, h => by
    obtain ⟨hfactor, hrest⟩ := Bool.and_eq_true_iff.1 h
    exact forall_mem_append_calls (f.callFits hfactor) (callFits_factors fs hrest)

theorem Factor.callFits : ∀ f : Factor, f.callsFit = true →
    ∀ key id, (key, id) ∈ f.linkedCalls → CallFits key id
  | .number _, _ | .constant _, _ | .variable _ _, _ | .call _ _ .unlinked, _ =>
    fun _ _ hmem => absurd hmem List.not_mem_nil
  | .fraction a b, h | .power a b, h | .logarithm a b, h => by
    obtain ⟨ha, hb⟩ := Bool.and_eq_true_iff.1 h
    exact forall_mem_append_calls (a.callFits ha) (b.callFits hb)
  | .bracket a, h | .unary _ a, h => a.callFits h
  | .call name arguments (.linked pass d), h => by
    obtain ⟨hfirst, hbody⟩ := Bool.and_eq_true_iff.1 h
    obtain ⟨harguments, hlength⟩ := Bool.and_eq_true_iff.1 hfirst
    refine forall_mem_append_calls (callFits_arguments arguments harguments) fun key id hmem => ?_
    obtain ⟨rfl, rfl⟩ := Prod.mk.inj (List.mem_singleton.1 hmem)
    exact ⟨eq_of_beq hlength, hbody⟩

theorem callFits_arguments : ∀ es : List Expression, argumentsFit es = true →
    ∀ key id, (key, id) ∈ linkedCallsOfArguments es → CallFits key id
  | [], _ => fun _ _ hmem => absurd hmem List.not_mem_nil
  | e :: es, h => by
    obtain ⟨hfirst, hrest⟩ := Bool.and_eq_true_iff.1 h
    exact forall_mem_append_calls (e.callFits hfirst) (callFits_arguments es hrest)

end

/-- The calls in the body of a definition fit if the definition does. -/
theorem CallFits.body {key : FunctionKey} {id : LinkId} (h : CallFits key id) :
    ∀ key' id', (key', id') ∈ id.definition.body.linkedCalls → CallFits key' id' := by
  obtain ⟨pass, ⟨name, parameters, body, globals⟩⟩ := id
  exact body.callFits h.2

end ImplicitCurves

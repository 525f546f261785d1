import ImplicitCurves.Proofs.Curve.Preparation
import ImplicitCurves.Proofs.Tree.Forming

/-!
# Functions that curves call

Of the functions that a curve calls, only those that stand in its own equation are looked up when it is
prepared; those in the bodies of definitions are not.  So a curve may be accepted though a function
that it comes to call is not defined.  Main statement: `Curve.linkComplete_iff_provides`.
-/

namespace ImplicitCurves

/-- A table in which every call in a body is defined provides for each of its keys. -/
theorem FunctionTable.provides_of_closed {table : FunctionTable}
    (h : ∀ key f, table.find? key = some f →
      ∀ key' ∈ f.body.functions, table.contains key' = true)
    {key : FunctionKey} (hkey : table.contains key = true) : table.Provides key := by
  intro last hpath
  induction hpath with
  | refl => exact hkey
  | tail _ hcall _ =>
    obtain ⟨f, hf, hmem⟩ := hcall
    exact h _ f hf _ hmem

namespace Curve

variable {source : List Char} {d : Definitions} {tokens : List Token} {linked : Equation}

/-- The first call in a linked equation without a definition is what the curve is refused for. -/
theorem undefinedFunction_iff (h : Links source d tokens linked) (key : FunctionKey) :
    (∃ spans, ofText source d = .error ⟨.undefinedFunction key, spans⟩) ↔
      linked.functions.find? (fun key => !d.functions.contains key) = some key := by
  rw [ofText_of_links h]
  constructor
  · rintro ⟨spans, hrefused⟩
    split at hrefused
    · next hfound =>
      obtain ⟨hcause, -⟩ := Error.mk.inj (Except.error.inj hrefused)
      rw [hfound, Cause.undefinedFunction.inj hcause]
    · split at hrefused
      · cases (Error.mk.inj (Except.error.inj hrefused)).1
      · cases hrefused
  · intro hfound
    rw [hfound]
    exact ⟨_, rfl⟩

/-- A curve is refused for the first call in its equation, with the defined variables replaced and the
calls linked, that has no definition.  So all calls in the equation of a curve that is accepted are
defined; but the equation is completely linked just if every call that is reached from it through
the bodies of definitions is defined as well, which nothing checks.  It is so if all calls in the
bodies of the definitions are defined. -/
theorem linkComplete_iff_provides (source : List Char) (d : Definitions) :
    (∀ tokens linked, Links source d tokens linked → ∀ key,
      (∃ spans, ofText source d = .error ⟨.undefinedFunction key, spans⟩) ↔
        linked.functions.find? (fun key => !d.functions.contains key) = some key) ∧
    ∀ c, ofText source d = .ok c →
      (∀ key ∈ c.equation.functions, d.functions.contains key = true) ∧
      (c.equation.linkComplete = true ↔ ∀ key ∈ c.equation.functions, d.functions.Provides key) ∧
      ((∀ key f, d.functions.find? key = some f →
        ∀ key' ∈ f.body.functions, d.functions.contains key' = true) →
          c.equation.linkComplete = true) := by
  refine ⟨fun tokens linked => undefinedFunction_iff, fun c hc => ?_⟩
  obtain ⟨tokens, linked, ⟨-, eq, -, hlinked⟩, hdefined, -, rfl⟩ := ofText_eq_ok_iff.1 hc
  have hcomplete : linked.form.linkComplete = true ↔
      ∀ key ∈ linked.form.functions, d.functions.Provides key := by
    rw [linked.linkComplete_form, linked.functions_form]
    exact Equation.linkComplete_iff_of_callsStand (Equation.callsStand_of_linked hlinked)
  have hsurface : ∀ key ∈ linked.form.functions, d.functions.contains key = true := by
    rwa [linked.functions_form]
  exact ⟨hsurface, hcomplete, fun hclosed => hcomplete.2 fun key hkey =>
    FunctionTable.provides_of_closed hclosed (hsurface key hkey)⟩

/-- With `f(t) = g(t)` and no `g`, the curve `y = f(x)` is accepted.  Its only call is defined, but it
is not completely linked, and its value at the point `(1, 2)` is undefined. -/
theorem linkComplete_iff_provides_undefinedInBody :
    let f : FunctionDefinition :=
      .make 'f' ['t'] (.ofFactor (.call 'g' [.ofFactor (.variable 't' none)] .unlinked))
    let d : Definitions := Definitions.empty.defineFunction f
    ∃ c, ofText "y=f(x)".toList d = .ok c ∧ c.equation.functions = [⟨'f', 1⟩] ∧
      c.equation.linkComplete = false ∧ ¬ d.functions.Provides ⟨'f', 1⟩ ∧
      (c.program.eval ((c.environment.set 'x' 1).set 'y' 2)).isNaN = true := by
  intro f d
  have hcompute : (ofText "y=f(x)".toList d).map (fun c => (c.equation.functions,
      c.equation.linkComplete, (c.program.eval ((c.environment.set 'x' 1).set 'y' 2)).isNaN)) =
        .ok ([⟨'f', 1⟩], false, true) := by
    decide +kernel
  cases h : ofText "y=f(x)".toList d with
  | error e => rw [h] at hcompute; cases hcompute
  | ok c =>
    rw [h] at hcompute
    obtain ⟨hfunctions, hvalues⟩ := Prod.mk.inj (Except.ok.inj hcompute)
    obtain ⟨hlinks, hnan⟩ := Prod.mk.inj hvalues
    obtain ⟨-, hiff, -⟩ := (linkComplete_iff_provides "y=f(x)".toList d).2 c h
    refine ⟨c, rfl, hfunctions, hlinks, fun hprovides => ?_, hnan⟩
    rw [hfunctions] at hiff
    exact Bool.false_ne_true (hlinks.symm.trans (hiff.2 (by simpa using hprovides)))

end Curve

end ImplicitCurves

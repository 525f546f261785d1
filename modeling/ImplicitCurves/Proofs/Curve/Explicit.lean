import ImplicitCurves.Proofs.Curve.Preparation
import ImplicitCurves.Proofs.Notation.ParseErrors
import ImplicitCurves.Proofs.Tree.Assignment
import ImplicitCurves.Proofs.Tree.Dependence
import ImplicitCurves.Proofs.Tree.Globals

/-!
# Explicit curves

A text without an equals sign gives the value of `y`, and is refused if `y` is one of its letters.  The
bodies of the functions that it calls are not looked at, so its value may depend on `y` nevertheless:
main statement `Curve.explicit_readsY_iff`.
-/

namespace ImplicitCurves

/-! ### Linking one side -/

/-- Linking an expression of one factor that is no call leaves it as it is. -/
theorem linkAll_cons_leaf (table : FunctionTable) {f : Factor} (rhs : Expression)
    (hlink : ∀ pass resolve s, f.linkWith pass resolve s = (f, s)) (hpass : f.lastPass = 0) :
    linkAll table [.ofFactor f, rhs] =
      (.ofFactor f :: (linkAll table [rhs]).1, (linkAll table [rhs]).2) := by
  have htogether : ∀ pass, linkTogether table pass [.ofFactor f, rhs] =
      (.ofFactor f :: (linkTogether table pass [rhs]).1, (linkTogether table pass [rhs]).2) := by
    intro pass
    simp only [linkTogether, linkExpressions, Expression.ofFactor, Expression.linkWith, linkItems,
      Item.linkWith, linkFactors, hlink]
  have hlast : lastPassOfExpressions [.ofFactor f, rhs] = lastPassOfExpressions [rhs] := by
    simp [lastPassOfExpressions, Expression.ofFactor, Expression.lastPass, lastPassOfItems,
      Item.lastPass, lastPassOfFactors, hpass]
  unfold linkAll
  rw [htogether, htogether, hlast]
  cases linkTogether table 0 [rhs] with
  | mk linked failure => cases failure <;> rfl

/-- An equation whose left-hand side is a factor that is no call is linked on its right-hand side. -/
theorem Equation.linked_between_leaf (table : FunctionTable) {f : Factor} (rhs : Expression)
    (hlink : ∀ pass resolve s, f.linkWith pass resolve s = (f, s)) (hpass : f.lastPass = 0) :
    (Equation.between (.ofFactor f) rhs).linked table =
      (rhs.linked table).map (Equation.between (.ofFactor f)) := by
  have hsides : (Equation.between (.ofFactor f) rhs).link table =
      (.between (.ofFactor f) (rhs.link table).1, (rhs.link table).2) := by
    have hall := linkAll_cons_leaf table rhs hlink hpass
    rw [rhs.linkAll_singleton table] at hall
    simp only [Equation.link, Equation.between, hall]
  unfold Equation.linked Expression.linked
  rw [hsides]
  cases rhs.link table with
  | mk linked failure => cases failure <;> rfl

namespace Curve

variable {source : List Char} {tokens : List Token} {d : Definitions} {c : Curve}

/-! ### The two sides -/

theorem lookup_bindings (d : Definitions) (name : Char) :
    d.bindings.lookup name = (d.values.entries.lookup name).map .value :=
  lookup_map_snd Substitute.value d.values.entries name

/-- The left-hand side of an explicit curve is `y`, or the value that is defined for it. -/
theorem exists_leaf (d : Definitions) : ∃ f : Factor,
    (Expression.ofFactor (.variable 'y' none)).substitute d.bindings = .ofFactor f ∧
      (∀ pass resolve s, f.linkWith pass resolve s = (f, s)) ∧ f.lastPass = 0 := by
  have hreplaced : (Expression.ofFactor (.variable 'y' none)).substitute d.bindings =
      .ofFactor ((d.bindings.lookup 'y').elim (.variable 'y' none) Substitute.toFactor) := by
    simp only [Expression.substitute, Expression.ofFactor, Expression.mapFactors, mapItems,
      Item.mapFactors, mapFactorList, Factor.mapInner]
    cases d.bindings.lookup 'y' <;> rfl
  rw [hreplaced, lookup_bindings]
  cases d.values.entries.lookup 'y' <;> exact ⟨_, rfl, fun _ _ _ => rfl, rfl⟩

/-- What is free once the defined variables are replaced was a letter before. -/
theorem mem_allVariables_of_substitute {e : Expression} {name : Char}
    (h : name ∈ (e.substitute d.bindings).freeVariables) : name ∈ e.allVariables := by
  rw [Expression.freeVariables_eq, mem_distinct, Expression.occurrences_substitute] at h
  obtain ⟨⟨name', bound⟩, hoccurs, hfree⟩ := List.mem_filterMap.1 h
  obtain ⟨occurrence, hmem, hkept⟩ := List.mem_flatMap.1 hoccurs
  rw [lookup_bindings] at hkept
  cases hvalue : d.values.entries.lookup occurrence.1 with
  | some value =>
    rw [hvalue] at hkept
    cases hkept
  | none =>
    rw [hvalue] at hkept
    obtain rfl := List.mem_singleton.1 hkept
    cases bound with
    | some value => cases hfree
    | none =>
      obtain rfl := Option.some.inj hfree
      rw [Expression.allVariables_eq, mem_distinct]
      exact List.mem_map.2 ⟨_, hmem, rfl⟩

/-! ### Reading the text -/

theorem readEquation_explicit (hassign : Statement.hasAssign tokens = false) :
    readEquation source tokens = (parse Expression source).bind fun e =>
      if e.allVariables.contains 'y' then
        .error ⟨.curveMentionsY, letterSpans 'y' (fun _ => true) tokens⟩
      else .ok (.between (.ofFactor (.variable 'y' none)) e) := by
  rw [readEquation, hassign]
  rfl

theorem readEquation_explicit_eq_ok_iff (hassign : Statement.hasAssign tokens = false)
    {eq : Equation} : readEquation source tokens = .ok eq ↔ ∃ e, parse Expression source = .ok e ∧
      'y' ∉ e.allVariables ∧ eq = .between (.ofFactor (.variable 'y' none)) e := by
  rw [readEquation_explicit hassign]
  constructor
  · intro h
    obtain ⟨e, hparse, h⟩ := bind_eq_ok.1 h
    split at h
    · cases h
    · next hy => exact ⟨e, hparse, by simpa using hy, (Except.ok.inj h).symm⟩
  · rintro ⟨e, hparse, hy, rfl⟩
    exact bind_eq_ok.2 ⟨e, hparse, if_neg (by simpa using hy)⟩

/-- Neither linking nor what is checked after it refuses a curve for `y`. -/
theorem not_curveMentionsY_of_read {eq : Equation} (htokens : tokenize source = .ok tokens)
    (hread : readEquation source tokens = .ok eq) (spans : List Span) :
    ofText source d ≠ .error ⟨.curveMentionsY, spans⟩ := by
  intro h
  cases hlinked : (eq.substitute d.bindings).linked d.functions with
  | ok linked =>
    rw [ofText_of_links ⟨htokens, eq, hread, hlinked⟩] at h
    split at h
    · cases (Error.mk.inj (Except.error.inj h)).1
    · split at h
      · cases (Error.mk.inj (Except.error.inj h)).1
      · cases h
  | error e =>
    have hfailed : ofText source d = .error e := by
      unfold ofText
      simp only [htokens, hread, hlinked, bind, Except.bind]
    obtain ⟨first, rest, hcause, -⟩ := Equation.namesCycle_of_linked hlinked
    obtain rfl := Except.error.inj (hfailed.symm.trans h)
    cases hcause

/-- A text without an equals sign is refused for `y` just if this is one of its letters. -/
theorem curveMentionsY_iff (htokens : tokenize source = .ok tokens)
    (hassign : Statement.hasAssign tokens = false) :
    (∃ spans, ofText source d = .error ⟨.curveMentionsY, spans⟩) ↔
      ∃ e, parse Expression source = .ok e ∧ 'y' ∈ e.allVariables := by
  have hfails : ∀ {error}, readEquation source tokens = .error error →
      ofText source d = .error error := by
    intro error hread
    unfold ofText
    simp only [htokens, hread, bind, Except.bind]
  constructor
  · rintro ⟨spans, hrefused⟩
    cases hread : readEquation source tokens with
    | ok eq => exact absurd hrefused (not_curveMentionsY_of_read htokens hread spans)
    | error error =>
      obtain rfl := Except.error.inj ((hfails hread).symm.trans hrefused)
      rw [readEquation_explicit hassign] at hread
      cases hparse : parse Expression source with
      | error error =>
        rw [hparse] at hread
        obtain rfl := Except.error.inj hread
        cases (failsOnly_parse _ hparse).isReading Expression.isReading_explain
      | ok e =>
        refine ⟨e, rfl, ?_⟩
        by_contra hy
        rw [hparse] at hread
        cases hread.symm.trans (if_neg (by simpa using hy))
  · rintro ⟨e, hparse, hy⟩
    have hread : readEquation source tokens =
        .error ⟨.curveMentionsY, letterSpans 'y' (fun _ => true) tokens⟩ := by
      rw [readEquation_explicit hassign, hparse]
      exact if_pos (by simpa using hy)
    exact ⟨_, hfails hread⟩

/-! ### The value -/

/-- What the value of a curve depends on beside the letters of its text is what the functions that it
calls read. -/
theorem mem_freeVariablesLinked_of_linked {table : FunctionTable} {e value : Expression} {name : Char}
    (hlinked : e.linked table = .ok value) (hname : name ∉ e.freeVariables) :
    name ∈ value.freeVariablesLinked ↔ ∃ key ∈ value.functions, table.Reads name key := by
  obtain ⟨hunlink, hcalls⟩ := Expression.callsStand_of_linked hlinked
  rw [Expression.freeVariablesLinked, mem_addAllNew_iff, Expression.freeVariables_congr hunlink,
    or_iff_right hname, value.linkedGlobals_eq, hcalls.mem_ownGlobals_iff]
  simp only [Expression.mem_functions]

theorem compute_set_of_not_mem {table : FunctionTable} {e value : Expression} {name : Char}
    (hlinked : e.linked table = .ok value) (hname : name ∉ value.freeVariablesLinked)
    {α : Type} [Scalar α] (env : Environment α) (x x' : α) :
    value.compute (env.set name x) = value.compute (env.set name x') := by
  have hfits : value.Fits := by
    have hlink := Expression.linked_eq_ok_iff.1 hlinked
    have hfitting := Expression.fits_link table (e := e) (.inr (congrArg Prod.snd hlink))
    rwa [hlink] at hfitting
  refine Expression.compute_congr (value.callsFit_of_fits hfits) fun other hother => ?_
  have hne : other ≠ name := fun heq => hname (heq ▸ hother)
  rw [Environment.value?_set, Environment.value?_set, if_neg hne, if_neg hne]

/-- A text without an equals sign is refused for `y` just if this is one of its letters.  If it is
accepted, then its curve is where `y` is the value of the expression that is read, with the defined
variables replaced and the calls linked.  This value reads `y` just if a function that it calls does,
itself or through the functions that its body calls.  If none of them does, then the value is the
same for all `y`. -/
theorem explicit_readsY_iff (htokens : tokenize source = .ok tokens)
    (hassign : Statement.hasAssign tokens = false) :
    ((∃ spans, ofText source d = .error ⟨.curveMentionsY, spans⟩) ↔
      ∃ e, parse Expression source = .ok e ∧ 'y' ∈ e.allVariables) ∧
    ∀ c, ofText source d = .ok c → ∃ e value, parse Expression source = .ok e ∧
      (e.substitute d.bindings).linked d.functions = .ok value ∧
      c.equation = (Equation.between
        ((Expression.ofFactor (.variable 'y' none)).substitute d.bindings) value).form ∧
      'y' ∉ value.freeVariables ∧
      ('y' ∈ value.freeVariablesLinked ↔ ∃ key ∈ value.functions, d.functions.Reads 'y' key) ∧
      ((∀ key ∈ value.functions, ¬ d.functions.Reads 'y' key) →
        ∀ {α : Type} [Scalar α] (env : Environment α) (x y y' : α),
          value.compute ((env.set 'x' x).set 'y' y) =
            value.compute ((env.set 'x' x).set 'y' y')) := by
  refine ⟨curveMentionsY_iff htokens hassign, fun c hc => ?_⟩
  obtain ⟨tokens', linked, ⟨htokens', eq, hread, hlinked⟩, -, -, rfl⟩ := ofText_eq_ok_iff.1 hc
  obtain rfl := Except.ok.inj (htokens.symm.trans htokens')
  obtain ⟨e, hparse, hy, rfl⟩ := (readEquation_explicit_eq_ok_iff hassign).1 hread
  obtain ⟨f, hleft, hlink, hpass⟩ := exists_leaf d
  have hsides : ((Equation.between (.ofFactor (.variable 'y' none)) e).substitute d.bindings).linked
      d.functions = ((e.substitute d.bindings).linked d.functions).map
        (Equation.between (.ofFactor f)) := by
    rw [← Equation.linked_between_leaf d.functions _ hlink hpass, ← hleft]
    rfl
  rw [hsides] at hlinked
  cases hvalue : (e.substitute d.bindings).linked d.functions with
  | error error =>
    rw [hvalue] at hlinked
    cases hlinked
  | ok value =>
    rw [hvalue] at hlinked
    obtain rfl := Except.ok.inj hlinked
    have hfree : 'y' ∉ (e.substitute d.bindings).freeVariables :=
      fun hmem => hy (mem_allVariables_of_substitute hmem)
    have hreads := mem_freeVariablesLinked_of_linked hvalue hfree
    refine ⟨e, value, hparse, hvalue, ?_, ?_, hreads, fun hnone α _ env x y y' => ?_⟩
    · rw [hleft]
      rfl
    · rwa [Expression.freeVariables_congr (Expression.callsStand_of_linked hvalue).1]
    · have hunread : 'y' ∉ value.freeVariablesLinked := by
        intro hmem
        obtain ⟨key, hkey, hread⟩ := hreads.1 hmem
        exact hnone key hkey hread
      exact compute_set_of_not_mem hvalue hunread (env.set 'x' x) y y'

/-- With `f(t) = t + y`, the text `f(x)` is accepted though its value at `x = 0` is that of `y`, which `f`
reads.  The text `f(x) + y` is refused. -/
theorem explicit_readsY_iff_readInBody :
    let f : FunctionDefinition :=
      .make 'f' ['t'] ⟨[⟨true, [.variable 't' none]⟩, ⟨true, [.variable 'y' none]⟩]⟩
    let d : Definitions := Definitions.empty.defineFunction f
    (∃ c value, ofText "f(x)".toList d = .ok c ∧ value.functions = [⟨'f', 1⟩] ∧
      d.functions.Reads 'y' ⟨'f', 1⟩ ∧
      (∃ e, parse Expression "f(x)".toList = .ok e ∧
        (e.substitute d.bindings).linked d.functions = .ok value) ∧
      value.compute ((d.values.set 'x' 0).set 'y' 1) = 1 ∧
      value.compute ((d.values.set 'x' 0).set 'y' 2) = 2) ∧
    ∃ spans, ofText "f(x)+y".toList d = .error ⟨.curveMentionsY, spans⟩ := by
  intro f d
  have haccepted : (ofText "f(x)".toList d).map (fun _ => ()) = .ok () := by decide +kernel
  have hassign : (tokenize "f(x)".toList).map Statement.hasAssign = .ok false := by decide +kernel
  have hvalues : ((parse Expression "f(x)".toList).bind fun e =>
      (e.substitute d.bindings).linked d.functions).map (fun value => (value.functions,
        value.compute ((d.values.set 'x' 0).set 'y' 1),
        value.compute ((d.values.set 'x' 0).set 'y' 2))) = .ok ([⟨'f', 1⟩], 1, 2) := by
    decide +kernel
  obtain ⟨c, hc, -⟩ := map_eq_ok.1 haccepted
  obtain ⟨tokens, htokens, hnone⟩ := map_eq_ok.1 hassign
  obtain ⟨e, value, hparse, hlinked, -, -, -, hsame⟩ :=
    (explicit_readsY_iff htokens hnone).2 c hc
  rw [hparse] at hvalues
  obtain ⟨value', hlinked', hcomputed⟩ := map_eq_ok.1 hvalues
  obtain rfl := Except.ok.inj (hlinked.symm.trans hlinked')
  obtain ⟨hfunctions, hcomputed⟩ := Prod.mk.inj hcomputed
  obtain ⟨hone, htwo⟩ := Prod.mk.inj hcomputed
  refine ⟨⟨c, value, hc, hfunctions, ?_, ⟨e, hparse, hlinked⟩, hone, htwo⟩, ?_⟩
  · by_contra hunread
    have heq := hsame (by simpa [hfunctions] using hunread) d.values 0 1 2
    rw [hone, htwo] at heq
    exact absurd heq (by decide)
  · have hassign' : (tokenize "f(x)+y".toList).map Statement.hasAssign = .ok false := by
      decide +kernel
    have hletters : (parse Expression "f(x)+y".toList).map
        (fun e => decide ('y' ∈ e.allVariables)) = .ok true := by
      decide +kernel
    obtain ⟨tokens', htokens', hnone'⟩ := map_eq_ok.1 hassign'
    obtain ⟨e', hparse', hmem⟩ := map_eq_ok.1 hletters
    exact (explicit_readsY_iff htokens' hnone').1.2 ⟨e', hparse', of_decide_eq_true hmem⟩

end Curve

end ImplicitCurves

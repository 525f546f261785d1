import ImplicitCurves.Proofs.Program.Meaning
import ImplicitCurves.Proofs.Tree.Linking
import ImplicitCurves.Tree.Equation

/-!
# Calls that fit their definitions

A linked call fits if it has as many arguments as its definition has parameters.  Trees without links
have no other calls, and linking makes no other ones, whether it succeeds or not: main statements
`Expression.fits_link` and `Equation.fits_link`.
-/

namespace ImplicitCurves

/-- The factor is not a linked call that does not fit its definition, or whose definition has such a
call in its body. -/
def Factor.Fits : Factor → Prop
  | .call _ arguments (.linked _ d) => d.parameters.length = arguments.length ∧ d.bodyFits = true
  | _ => True

/-- Every linked call of the tree fits, also in the arguments of calls that are not linked. -/
def Expression.Fits (e : Expression) : Prop :=
  ∀ f ∈ e.factors, f.Fits

/-- Every linked call of either side fits. -/
def Equation.Fits (eq : Equation) : Prop :=
  eq.lhs.Fits ∧ eq.rhs.Fits

/-- A tree without links has only calls that fit. -/
theorem Expression.fits_of_withoutLink {e : Expression} (h : ∀ f ∈ e.factors, f.withoutLink = f) :
    e.Fits := by
  intro f hf
  have hnone := h f hf
  cases f with
  | call name arguments link =>
    cases link with
    | unlinked => trivial
    | linked pass d => cases hnone
  | _ => trivial

mutual

theorem Expression.callsFit_of_fits : ∀ e : Expression, e.Fits → e.callsFit = true
  | ⟨items⟩, h => itemsFit_of_fits items h

theorem itemsFit_of_fits : ∀ is : List Item, (∀ f ∈ factorsOfItems is, f.Fits) → itemsFit is = true
  | [], _ => rfl
  | ⟨_, factors⟩ :: is, h => by
    obtain ⟨hitem, hrest⟩ := List.forall_mem_append.1 h
    exact Bool.and_eq_true_iff.2 ⟨factorsFit_of_fits factors hitem, itemsFit_of_fits is hrest⟩

theorem factorsFit_of_fits :
    ∀ fs : List Factor, (∀ f ∈ factorsOfFactors fs, f.Fits) → factorsFit fs = true
  | [], _ => rfl
  | f :: fs, h => by
    obtain ⟨hfactor, hrest⟩ := List.forall_mem_append.1 h
    exact Bool.and_eq_true_iff.2 ⟨f.callsFit_of_fits hfactor, factorsFit_of_fits fs hrest⟩

theorem Factor.callsFit_of_fits : ∀ f : Factor, (∀ g ∈ f.withInner, g.Fits) → f.callsFit = true
  | .number _, _ | .constant _, _ | .variable _ _, _ | .call _ _ .unlinked, _ => rfl
  | .fraction a b, h | .power a b, h | .logarithm a b, h => by
    obtain ⟨ha, hb⟩ := List.forall_mem_append.1 (List.forall_mem_cons.1 h).2
    exact Bool.and_eq_true_iff.2 ⟨a.callsFit_of_fits ha, b.callsFit_of_fits hb⟩
  | .bracket a, h | .unary _ a, h => a.callsFit_of_fits (List.forall_mem_cons.1 h).2
  | .call _ arguments (.linked _ _), h => by
    obtain ⟨⟨hlength, hbody⟩, harguments⟩ := List.forall_mem_cons.1 h
    exact Bool.and_eq_true_iff.2 ⟨Bool.and_eq_true_iff.2
      ⟨argumentsFit_of_fits arguments harguments, beq_iff_eq.2 hlength⟩, hbody⟩

theorem argumentsFit_of_fits :
    ∀ es : List Expression, (∀ f ∈ factorsOfExpressions es, f.Fits) → argumentsFit es = true
  | [], _ => rfl
  | e :: es, h => by
    obtain ⟨hfirst, hrest⟩ := List.forall_mem_append.1 h
    exact Bool.and_eq_true_iff.2 ⟨e.callsFit_of_fits hfirst, argumentsFit_of_fits es hrest⟩

end

/-- Calls with the given key fit the definition, and so do the calls in its body. -/
def FunctionDefinition.Serves (d : FunctionDefinition) (key : FunctionKey) : Prop :=
  d.parameters.length = key.arity ∧ d.bodyFits = true

/-- Each definition that a pass has done serves the calls that it is done for. -/
def LinkState.Serves (s : LinkState) : Prop :=
  ∀ key d, (key, d) ∈ s.done → d.Serves key

/-- What a stage of linking does to some factors: they still fit if they did before, and they fit in
any case if there is no failure. -/
structure LinkState.KeepsFit (s t : LinkState) (before after : List Factor) : Prop where
  serves : t.Serves
  failure : t.failure = none → s.failure = none
  fits : (∀ f ∈ before, f.Fits) ∨ t.failure = none → ∀ f ∈ after, f.Fits

namespace LinkState

variable {s t u : LinkState} {before before' after after' : List Factor}

/-- A stage after a stage. -/
theorem KeepsFit.append (h : s.KeepsFit t before after) (h' : t.KeepsFit u before' after') :
    s.KeepsFit u (before ++ before') (after ++ after') where
  serves := h'.serves
  failure hu := h.failure (h'.failure hu)
  fits hor := by
    refine List.forall_mem_append.2 ⟨h.fits ?_, h'.fits ?_⟩
    · exact hor.imp (fun hall => (List.forall_mem_append.1 hall).1) h'.failure
    · exact hor.imp_left fun hall => (List.forall_mem_append.1 hall).2

/-- A factor in front that is no call stays as it is. -/
theorem KeepsFit.cons (h : s.KeepsFit t before after) {f g : Factor} (hg : g.Fits) :
    s.KeepsFit t (f :: before) (g :: after) where
  serves := h.serves
  failure := h.failure
  fits hor := List.forall_mem_cons.2
    ⟨hg, h.fits (hor.imp_left fun hall => (List.forall_mem_cons.1 hall).2)⟩

theorem KeepsFit.nil (h : s.Serves) : s.KeepsFit s [] [] where
  serves := h
  failure := id
  fits _ _ hmem := absurd hmem List.not_mem_nil

/-- After a failure everything stays as it is. -/
theorem KeepsFit.of_failure (h : t.Serves) (hfailed : t.failure.isSome = true)
    (factors : List Factor) : s.KeepsFit t factors factors where
  serves := h
  failure hnone := by rw [hnone] at hfailed; cases hfailed
  fits hor := by
    refine hor.resolve_right fun hnone => ?_
    rw [hnone] at hfailed
    cases hfailed

end LinkState

/-- Each definition that is looked up serves the calls with its key. -/
def Resolver.Serves (resolve : Resolver) : Prop :=
  ∀ (key : FunctionKey) (s : LinkState), s.Serves → (resolve key s).2.Serves ∧
    ((resolve key s).2.failure = none → s.failure = none ∧
      ∀ d, (resolve key s).1 = some d → d.Serves key)

open LinkState

variable {resolve : Resolver}

mutual

/-- Linking makes no calls that do not fit. -/
theorem Expression.keepsFit_linkWith (hresolve : resolve.Serves) (pass : Nat) :
    ∀ (e : Expression) (s : LinkState), s.Serves →
      s.KeepsFit (e.linkWith pass resolve s).2 e.factors (e.linkWith pass resolve s).1.factors
  | ⟨items⟩, s, hs => keepsFit_linkItems hresolve pass items s hs

theorem keepsFit_linkItems (hresolve : resolve.Serves) (pass : Nat) :
    ∀ (is : List Item) (s : LinkState), s.Serves →
      s.KeepsFit (linkItems pass resolve is s).2 (factorsOfItems is)
        (factorsOfItems (linkItems pass resolve is s).1)
  | [], _, hs => .nil hs
  | ⟨_, factors⟩ :: is, s, hs => by
    have hitem := keepsFit_linkFactors hresolve pass factors s hs
    exact hitem.append (keepsFit_linkItems hresolve pass is _ hitem.serves)

theorem keepsFit_linkFactors (hresolve : resolve.Serves) (pass : Nat) :
    ∀ (fs : List Factor) (s : LinkState), s.Serves →
      s.KeepsFit (linkFactors pass resolve fs s).2 (factorsOfFactors fs)
        (factorsOfFactors (linkFactors pass resolve fs s).1)
  | [], _, hs => .nil hs
  | f :: fs, s, hs => by
    have hfactor := f.keepsFit_linkWith hresolve pass s hs
    exact hfactor.append (keepsFit_linkFactors hresolve pass fs _ hfactor.serves)

theorem Factor.keepsFit_linkWith (hresolve : resolve.Serves) (pass : Nat) :
    ∀ (f : Factor) (s : LinkState), s.Serves →
      s.KeepsFit (f.linkWith pass resolve s).2 f.withInner (f.linkWith pass resolve s).1.withInner
  | .number _, _, hs | .constant _, _, hs | .variable _ _, _, hs => (KeepsFit.nil hs).cons trivial
  | .fraction a b, s, hs | .power a b, s, hs | .logarithm a b, s, hs => by
    have ha := a.keepsFit_linkWith hresolve pass s hs
    exact (ha.append (b.keepsFit_linkWith hresolve pass _ ha.serves)).cons trivial
  | .bracket a, s, hs | .unary _ a, s, hs => (a.keepsFit_linkWith hresolve pass s hs).cons trivial
  | .call name arguments link, s, hs => by
    obtain ⟨hserves, hfound⟩ := hresolve ⟨name, arguments.length⟩ s hs
    have harguments := keepsFit_linkExpressions hresolve pass arguments _ hserves
    simp only [Factor.linkWith]
    split
    · next hfailed => exact .of_failure hs hfailed _
    · split
      · next hfailed => exact .of_failure hserves hfailed _
      · next hdone =>
        obtain ⟨hstart, hd⟩ := hfound (Option.not_isSome_iff_eq_none.1 hdone)
        refine { harguments.cons ?_ with failure := fun _ => hstart }
        cases hlink : (resolve ⟨name, arguments.length⟩ s).1 with
        | none => trivial
        | some d =>
          obtain ⟨hlength, hbody⟩ := hd d hlink
          exact ⟨hlength.trans (length_linkExpressions pass resolve arguments _).symm, hbody⟩

theorem keepsFit_linkExpressions (hresolve : resolve.Serves) (pass : Nat) :
    ∀ (es : List Expression) (s : LinkState), s.Serves →
      s.KeepsFit (linkExpressions pass resolve es s).2 (factorsOfExpressions es)
        (factorsOfExpressions (linkExpressions pass resolve es s).1)
  | [], _, hs => .nil hs
  | e :: es, s, hs => by
    have hfirst := e.keepsFit_linkWith hresolve pass s hs
    exact hfirst.append (keepsFit_linkExpressions hresolve pass es _ hfirst.serves)

end

namespace FunctionTable

/-- Looking up a definition in a table gives one that serves the key, whatever links are in the
bodies of the table. -/
theorem resolve_serves (table : FunctionTable) (pass : Nat) :
    ∀ (depth : Nat) (stack : List FunctionKey), Resolver.Serves (table.resolve pass depth stack)
  | depth, stack => by
    intro key s hs
    have hresolves := table.resolves pass depth stack key s
    generalize table.resolve pass depth stack key s = r at hresolves ⊢
    cases hresolves with
    | @done _ d hdone =>
      refine ⟨hs, fun hnone => ⟨hnone, fun d' hd' => ?_⟩⟩
      obtain rfl := Option.some.inj hd'
      exact hs key d (mem_of_lookup_eq_some hdone)
    | undefined _ _ => exact ⟨hs, fun hnone => ⟨hnone, fun d hd => by cases hd⟩⟩
    | recursive _ _ _ => exact ⟨hs, fun hnone => by cases hnone⟩
    | exhausted _ _ _ => exact ⟨hs, fun hnone => ⟨hnone, fun d hd => by cases hd⟩⟩
    | @failed depth d body t _ _ _ hbody hfailed =>
      have hkeeps :=
        d.body.keepsFit_linkWith (resolve_serves table pass depth (stack ++ [key])) pass s hs
      rw [hbody] at hkeeps
      refine ⟨hkeeps.serves, fun hnone => ?_⟩
      rw [hnone] at hfailed
      cases hfailed
    | @linked depth d body t _ hkey _ hbody hdone =>
      have hkeeps :=
        d.body.keepsFit_linkWith (resolve_serves table pass depth (stack ++ [key])) pass s hs
      rw [hbody] at hkeeps
      have hd : FunctionDefinition.Serves { d with body } key :=
        ⟨congrArg FunctionKey.arity (key_of_find? hkey),
          Expression.callsFit_of_fits _ (hkeeps.fits (.inr hdone))⟩
      refine ⟨fun key' d' hmem => ?_, fun _ => ⟨hkeeps.failure hdone, fun d' hd' => ?_⟩⟩
      · rcases List.mem_cons.1 hmem with heq | hmem
        · obtain ⟨rfl, rfl⟩ := Prod.mk.inj heq
          exact hd
        · exact hkeeps.serves key' d' hmem
      · obtain rfl := Option.some.inj hd'
        exact hd

/-- A pass over expressions leaves no calls that do not fit if there were none before, or if it
succeeds. -/
theorem fits_linkAll (table : FunctionTable) (es : List Expression)
    (h : (∀ f ∈ factorsOfExpressions es, f.Fits) ∨ (linkAll table es).2 = none) :
    ∀ f ∈ factorsOfExpressions (linkAll table es).1, f.Fits := by
  obtain ⟨pass, hlink⟩ := exists_linkAll_eq table es
  rw [hlink] at h ⊢
  have hkeeps := keepsFit_linkExpressions (table.resolve_serves pass table.size []) pass es
    ⟨[], none⟩ fun _ _ hmem => absurd hmem List.not_mem_nil
  exact hkeeps.fits h

end FunctionTable

theorem length_linkAll (table : FunctionTable) (es : List Expression) :
    (linkAll table es).1.length = es.length := by
  obtain ⟨pass, hlink⟩ := exists_linkAll_eq table es
  rw [hlink]
  exact length_linkExpressions pass _ es _

/-- Linking an expression is a pass over it alone. -/
theorem Expression.linkAll_singleton (table : FunctionTable) (e : Expression) :
    linkAll table [e] = ([(e.link table).1], (e.link table).2) := by
  obtain ⟨linked, hlinked⟩ := List.length_eq_one_iff.1 (length_linkAll table [e])
  have hpair : linkAll table [e] = ([linked], (linkAll table [e]).2) := Prod.ext hlinked rfl
  rw [Expression.link, hpair]

/-- Linking an equation is a pass over its sides. -/
theorem Equation.linkAll_sides (table : FunctionTable) (eq : Equation) :
    linkAll table [eq.lhs, eq.rhs] =
        ([(eq.link table).1.lhs, (eq.link table).1.rhs], (eq.link table).2) ∧
      (eq.link table).1.formed = eq.formed := by
  obtain ⟨lhs, rhs, hlinked⟩ := List.length_eq_two.1 (length_linkAll table [eq.lhs, eq.rhs])
  have hpair : linkAll table [eq.lhs, eq.rhs] =
      ([lhs, rhs], (linkAll table [eq.lhs, eq.rhs]).2) := Prod.ext hlinked rfl
  rw [Equation.link, hpair]
  exact ⟨rfl, rfl⟩

/-- Linking an expression makes no calls that do not fit, and if it succeeds, then it leaves none. -/
theorem Expression.fits_link (table : FunctionTable) {e : Expression}
    (h : e.Fits ∨ (e.link table).2 = none) : (e.link table).1.Fits := by
  have hall := table.fits_linkAll [e]
  rw [e.linkAll_singleton table] at hall
  simpa [Expression.Fits, factorsOfExpressions] using hall
    (by simpa [Expression.Fits, factorsOfExpressions] using h)

/-- Linking an equation makes no calls that do not fit, and if it succeeds, then it leaves none. -/
theorem Equation.fits_link (table : FunctionTable) {eq : Equation}
    (h : eq.Fits ∨ (eq.link table).2 = none) : (eq.link table).1.Fits := by
  have hall := table.fits_linkAll [eq.lhs, eq.rhs]
  rw [(eq.linkAll_sides table).1] at hall
  simpa [Equation.Fits, Expression.Fits, factorsOfExpressions, or_imp, forall_and] using hall
    (by simpa [Equation.Fits, Expression.Fits, factorsOfExpressions, or_imp, forall_and] using h)

end ImplicitCurves

import ImplicitCurves.Proofs.Failing
import ImplicitCurves.Proofs.Tree.FittingCalls

/-!
# Failures of linking

What looking up definitions keeps of the state of a pass is kept by linking all calls of a tree.  So it
is with the failure of a pass: it has no place in a text, since calls do not know where they stand.
-/

namespace ImplicitCurves

/-- Looking up definitions keeps a property of the state. -/
def Resolver.Keeps (P : LinkState → Prop) (resolve : Resolver) : Prop :=
  ∀ key s, P s → P (resolve key s).2

section Keeping

variable {P : LinkState → Prop} {resolve : Resolver}

mutual

/-- What looking up definitions keeps, linking an expression keeps. -/
theorem Expression.keeps_linkWith (hresolve : resolve.Keeps P) (pass : Nat) :
    ∀ (e : Expression) (s : LinkState), P s → P (e.linkWith pass resolve s).2
  | ⟨items⟩, s, hs => keeps_linkItems hresolve pass items s hs

theorem keeps_linkItems (hresolve : resolve.Keeps P) (pass : Nat) :
    ∀ (is : List Item) (s : LinkState), P s → P (linkItems pass resolve is s).2
  | [], _, hs => hs
  | ⟨_, factors⟩ :: is, s, hs =>
    keeps_linkItems hresolve pass is _ (keeps_linkFactors hresolve pass factors s hs)

theorem keeps_linkFactors (hresolve : resolve.Keeps P) (pass : Nat) :
    ∀ (fs : List Factor) (s : LinkState), P s → P (linkFactors pass resolve fs s).2
  | [], _, hs => hs
  | f :: fs, s, hs =>
    keeps_linkFactors hresolve pass fs _ (f.keeps_linkWith hresolve pass s hs)

theorem Factor.keeps_linkWith (hresolve : resolve.Keeps P) (pass : Nat) :
    ∀ (f : Factor) (s : LinkState), P s → P (f.linkWith pass resolve s).2
  | .number _, _, hs | .constant _, _, hs | .variable _ _, _, hs => hs
  | .fraction a b, s, hs | .power a b, s, hs | .logarithm a b, s, hs =>
    b.keeps_linkWith hresolve pass _ (a.keeps_linkWith hresolve pass s hs)
  | .bracket a, s, hs | .unary _ a, s, hs => a.keeps_linkWith hresolve pass s hs
  | .call name arguments _, s, hs => by
    have hfound := hresolve ⟨name, arguments.length⟩ s hs
    simp only [Factor.linkWith]
    split
    · exact hs
    · split
      · exact hfound
      · exact keeps_linkExpressions hresolve pass arguments _ hfound

theorem keeps_linkExpressions (hresolve : resolve.Keeps P) (pass : Nat) :
    ∀ (es : List Expression) (s : LinkState), P s → P (linkExpressions pass resolve es s).2
  | [], _, hs => hs
  | e :: es, s, hs =>
    keeps_linkExpressions hresolve pass es _ (e.keeps_linkWith hresolve pass s hs)

end

end Keeping

/-- The failure, if there is one, has no place in a text. -/
def LinkState.FailsNowhere (s : LinkState) : Prop :=
  ∀ error, s.failure = some error → error.spans = []

theorem FunctionTable.resolve_failsNowhere (table : FunctionTable) (pass : Nat) :
    ∀ (depth : Nat) (stack : List FunctionKey),
      Resolver.Keeps LinkState.FailsNowhere (table.resolve pass depth stack)
  | depth, stack => by
    intro key s hs
    have hresolves := table.resolves pass depth stack key s
    generalize table.resolve pass depth stack key s = r at hresolves ⊢
    cases hresolves with
    | done _ => exact hs
    | undefined _ _ => exact hs
    | exhausted _ _ _ => exact hs
    | recursive _ _ _ =>
      intro error herror
      obtain rfl := Option.some.inj herror
      rfl
    | @failed depth d body t _ _ _ hbody _ =>
      have hkeeps := d.body.keeps_linkWith
        (resolve_failsNowhere table pass depth (stack ++ [key])) pass s hs
      rw [hbody] at hkeeps
      exact hkeeps
    | @linked depth d body t _ _ _ hbody _ =>
      have hkeeps := d.body.keeps_linkWith
        (resolve_failsNowhere table pass depth (stack ++ [key])) pass s hs
      rw [hbody] at hkeeps
      exact hkeeps

theorem spans_linkAll {table : FunctionTable} {es : List Expression} {error : Error}
    (h : (linkAll table es).2 = some error) : error.spans = [] := by
  obtain ⟨pass, hlink⟩ := exists_linkAll_eq table es
  rw [hlink] at h
  exact keeps_linkExpressions (table.resolve_failsNowhere pass table.size []) pass es ⟨[], none⟩
    (fun _ hnone => by cases hnone) error h

/-- An expression that cannot be linked fails without a place. -/
theorem Expression.failsOnly_linked (table : FunctionTable) (e : Expression) :
    FailsOnly (fun error : Error => error.spans = []) (e.linked table) := by
  have hpass := e.linkAll_singleton table
  unfold Expression.linked
  split
  · exact .ok _
  · next hlink =>
    rw [hlink] at hpass
    exact .error (spans_linkAll (congrArg Prod.snd hpass))

/-- An equation that cannot be linked fails without a place. -/
theorem Equation.failsOnly_linked (table : FunctionTable) (eq : Equation) :
    FailsOnly (fun error : Error => error.spans = []) (eq.linked table) := by
  have hpass := (eq.linkAll_sides table).1
  unfold Equation.linked
  split
  · exact .ok _
  · next hlink =>
    rw [hlink] at hpass
    exact .error (spans_linkAll (congrArg Prod.snd hpass))

end ImplicitCurves

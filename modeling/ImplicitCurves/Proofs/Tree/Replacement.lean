import ImplicitCurves.Tree.Substitution
import ImplicitCurves.Tree.Traversal
import Mathlib.Logic.Basic

/-!
# Changes of trees

A change of the factors of a tree that keeps what is inside of them gives a tree whose factors are
known from those of the tree.  Such a change is one that only puts something else in the place of
variables; two changes of this kind, one after the other, are one.
-/

namespace ImplicitCurves

theorem length_mapExpressions (change : Factor → Factor) (es : List Expression) :
    (mapExpressions change es).length = es.length := by
  induction es with
  | nil => rfl
  | cons e es ih => simp [mapExpressions, ih]

mutual

/-- A change that leaves each factor of a tree as it is leaves the tree as it is. -/
theorem Expression.mapFactors_eq_self {change : Factor → Factor} :
    ∀ e : Expression, (∀ f ∈ e.factors, change f = f) → e.mapFactors change = e
  | ⟨items⟩, h => congrArg Expression.mk (mapItems_eq_self items h)

theorem mapItems_eq_self {change : Factor → Factor} :
    ∀ is : List Item, (∀ f ∈ factorsOfItems is, change f = f) → mapItems change is = is
  | [], _ => rfl
  | ⟨positive, factors⟩ :: is, h => by
    obtain ⟨hitem, hrest⟩ := List.forall_mem_append.1 h
    exact congrArg₂ (Item.mk positive · :: ·) (mapFactorList_eq_self factors hitem)
      (mapItems_eq_self is hrest)

theorem mapFactorList_eq_self {change : Factor → Factor} :
    ∀ fs : List Factor, (∀ f ∈ factorsOfFactors fs, change f = f) → mapFactorList change fs = fs
  | [], _ => rfl
  | f :: fs, h => by
    obtain ⟨hfactor, hrest⟩ := List.forall_mem_append.1 h
    exact congrArg₂ List.cons (f.mapInner_eq_self hfactor) (mapFactorList_eq_self fs hrest)

theorem Factor.mapInner_eq_self {change : Factor → Factor} :
    ∀ f : Factor, (∀ g ∈ f.withInner, change g = g) → f.mapInner change = f
  | .number _, h | .constant _, h | .variable _ _, h => h _ List.mem_cons_self
  | .fraction a b, h | .power a b, h | .logarithm a b, h => by
    obtain ⟨hself, hinner⟩ := List.forall_mem_cons.1 h
    obtain ⟨ha, hb⟩ := List.forall_mem_append.1 hinner
    rw [Factor.mapInner, a.mapFactors_eq_self ha, b.mapFactors_eq_self hb, hself]
  | .bracket a, h | .unary _ a, h => by
    obtain ⟨hself, ha⟩ := List.forall_mem_cons.1 h
    rw [Factor.mapInner, a.mapFactors_eq_self ha, hself]
  | .call _ arguments _, h => by
    obtain ⟨hself, harguments⟩ := List.forall_mem_cons.1 h
    rw [Factor.mapInner, mapExpressions_eq_self arguments harguments, hself]

theorem mapExpressions_eq_self {change : Factor → Factor} :
    ∀ es : List Expression, (∀ f ∈ factorsOfExpressions es, change f = f) →
      mapExpressions change es = es
  | [], _ => rfl
  | e :: es, h => by
    obtain ⟨hfirst, hrest⟩ := List.forall_mem_append.1 h
    exact congrArg₂ List.cons (e.mapFactors_eq_self hfirst) (mapExpressions_eq_self es hrest)

end

/-! ### What is inside -/

/-- The factor with the expressions right inside it changed. -/
def Factor.mapChildren (change : Factor → Factor) : Factor → Factor
  | .number x => .number x
  | .constant c => .constant c
  | .variable name bound => .variable name bound
  | .fraction a b => .fraction (a.mapFactors change) (b.mapFactors change)
  | .power a b => .power (a.mapFactors change) (b.mapFactors change)
  | .bracket a => .bracket (a.mapFactors change)
  | .unary f a => .unary f (a.mapFactors change)
  | .logarithm a b => .logarithm (a.mapFactors change) (b.mapFactors change)
  | .call name arguments link => .call name (mapExpressions change arguments) link

/-- The factors inside a factor. -/
def Factor.inner (f : Factor) : List Factor :=
  f.withInner.tail

/-- A change that only puts some factors in the place of a factor, and keeps what is inside it. -/
def KeepsInner (change : Factor → Factor) (own : Factor → List Factor) : Prop :=
  ∀ f : Factor, (change f).withInner = own f ++ f.inner

section Inside

variable {change : Factor → Factor} {own : Factor → List Factor}

mutual

/-- The factors of a changed tree are what is put in the place of the factors of the tree. -/
theorem Expression.factors_mapFactors (h : KeepsInner change own) : ∀ e : Expression,
    (e.mapFactors change).factors = e.factors.flatMap fun f => own (f.mapChildren change)
  | ⟨items⟩ => factorsOfItems_mapItems h items

theorem factorsOfItems_mapItems (h : KeepsInner change own) : ∀ is : List Item,
    factorsOfItems (mapItems change is) =
      (factorsOfItems is).flatMap fun f => own (f.mapChildren change)
  | [] => rfl
  | ⟨positive, factors⟩ :: is => by
    rw [mapItems, Item.mapFactors, factorsOfItems, factorsOfItems, List.flatMap_append,
      factorsOfItems_mapItems h is, Item.allFactors, Item.allFactors,
      factorsOfFactors_mapFactorList h factors]

theorem factorsOfFactors_mapFactorList (h : KeepsInner change own) : ∀ fs : List Factor,
    factorsOfFactors (mapFactorList change fs) =
      (factorsOfFactors fs).flatMap fun f => own (f.mapChildren change)
  | [] => rfl
  | f :: fs => by
    rw [mapFactorList, factorsOfFactors, factorsOfFactors, List.flatMap_append,
      f.withInner_mapInner h, factorsOfFactors_mapFactorList h fs]

theorem Factor.withInner_mapInner (h : KeepsInner change own) : ∀ f : Factor,
    (f.mapInner change).withInner = f.withInner.flatMap fun g => own (g.mapChildren change)
  | .number x => h (.number x)
  | .constant c => h (.constant c)
  | .variable name bound => h (.variable name bound)
  | .fraction a b | .power a b | .logarithm a b => by
    rw [Factor.mapInner, h, Factor.withInner, List.flatMap_cons, List.flatMap_append,
      ← a.factors_mapFactors h, ← b.factors_mapFactors h]
    rfl
  | .bracket a | .unary _ a => by
    rw [Factor.mapInner, h, Factor.withInner, List.flatMap_cons, ← a.factors_mapFactors h]
    rfl
  | .call name arguments link => by
    rw [Factor.mapInner, h, Factor.withInner, List.flatMap_cons,
      ← factorsOfExpressions_mapExpressions h arguments]
    rfl

theorem factorsOfExpressions_mapExpressions (h : KeepsInner change own) : ∀ es : List Expression,
    factorsOfExpressions (mapExpressions change es) =
      (factorsOfExpressions es).flatMap fun f => own (f.mapChildren change)
  | [] => rfl
  | e :: es => by
    rw [mapExpressions, factorsOfExpressions, factorsOfExpressions, List.flatMap_append,
      e.factors_mapFactors h, factorsOfExpressions_mapExpressions h es]

end

end Inside

/-! ### Variables -/

/-- The factor with something else in the place of a variable. -/
def Factor.onVariables (put : Char → Option Float → Factor) : Factor → Factor
  | .variable name bound => put name bound
  | f => f

/-- The factors in the place of a factor if something else is put in the place of variables. -/
def Factor.behind (put : Char → Option Float → Factor) : Factor → List Factor
  | .variable name bound => (put name bound).withInner
  | f => [f]

theorem keepsInner_onVariables (put : Char → Option Float → Factor) :
    KeepsInner (.onVariables put) (Factor.behind put) := by
  intro f
  cases f with
  | «variable» name bound => exact (List.append_nil _).symm
  | _ => rfl

section Composition

variable {put put' : Char → Option Float → Factor}

mutual

/-- Two changes of variables are one, in which the second is made in what the first puts in. -/
theorem Expression.mapFactors_onVariables : ∀ e : Expression,
    (e.mapFactors (.onVariables put)).mapFactors (.onVariables put') =
      e.mapFactors (.onVariables fun name bound => (put name bound).mapInner (.onVariables put'))
  | ⟨items⟩ => congrArg Expression.mk (mapItems_onVariables items)

theorem mapItems_onVariables : ∀ is : List Item,
    mapItems (.onVariables put') (mapItems (.onVariables put) is) =
      mapItems (.onVariables fun name bound => (put name bound).mapInner (.onVariables put')) is
  | [] => rfl
  | ⟨positive, factors⟩ :: is =>
    congrArg₂ (Item.mk positive · :: ·) (mapFactorList_onVariables factors)
      (mapItems_onVariables is)

theorem mapFactorList_onVariables : ∀ fs : List Factor,
    mapFactorList (.onVariables put') (mapFactorList (.onVariables put) fs) =
      mapFactorList (.onVariables fun name bound => (put name bound).mapInner (.onVariables put')) fs
  | [] => rfl
  | f :: fs => congrArg₂ List.cons f.mapInner_onVariables (mapFactorList_onVariables fs)

theorem Factor.mapInner_onVariables : ∀ f : Factor,
    (f.mapInner (.onVariables put)).mapInner (.onVariables put') =
      f.mapInner (.onVariables fun name bound => (put name bound).mapInner (.onVariables put'))
  | .number _ | .constant _ | .variable _ _ => rfl
  | .fraction a b => congrArg₂ Factor.fraction a.mapFactors_onVariables b.mapFactors_onVariables
  | .power a b => congrArg₂ Factor.power a.mapFactors_onVariables b.mapFactors_onVariables
  | .bracket a => congrArg Factor.bracket a.mapFactors_onVariables
  | .unary f a => congrArg (Factor.unary f) a.mapFactors_onVariables
  | .logarithm a b => congrArg₂ Factor.logarithm a.mapFactors_onVariables b.mapFactors_onVariables
  | .call name arguments link =>
    congrArg (Factor.call name · link) (mapExpressions_onVariables arguments)

theorem mapExpressions_onVariables : ∀ es : List Expression,
    mapExpressions (.onVariables put') (mapExpressions (.onVariables put) es) =
      mapExpressions (.onVariables fun name bound => (put name bound).mapInner (.onVariables put')) es
  | [] => rfl
  | e :: es => congrArg₂ List.cons e.mapFactors_onVariables (mapExpressions_onVariables es)

end

end Composition

end ImplicitCurves

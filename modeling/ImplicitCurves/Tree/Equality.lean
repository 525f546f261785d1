import ImplicitCurves.Tree

/-!
# Equality of trees

Whether two trees are equal, down to the definitions that their calls are linked to, can be decided.
-/

namespace ImplicitCurves

mutual

/-- Whether two expressions are equal. -/
def Expression.same : Expression → Expression → Bool
  | ⟨items⟩, ⟨items'⟩ => sameItems items items'

/-- Whether two lists of items are equal. -/
def sameItems : List Item → List Item → Bool
  | [], [] => true
  | i :: is, j :: js => i.same j && sameItems is js
  | _, _ => false

/-- Whether two items are equal. -/
def Item.same : Item → Item → Bool
  | ⟨positive, factors⟩, ⟨positive', factors'⟩ =>
    positive == positive' && sameFactors factors factors'

/-- Whether two lists of factors are equal. -/
def sameFactors : List Factor → List Factor → Bool
  | [], [] => true
  | f :: fs, g :: gs => f.same g && sameFactors fs gs
  | _, _ => false

/-- Whether two factors are equal. -/
def Factor.same : Factor → Factor → Bool
  | .number x, .number y => decide (x = y)
  | .constant c, .constant d => decide (c = d)
  | .variable name bound, .variable name' bound' => decide (name = name' ∧ bound = bound')
  | .fraction a b, .fraction c d => a.same c && b.same d
  | .power a b, .power c d => a.same c && b.same d
  | .bracket a, .bracket b => a.same b
  | .unary f a, .unary g b => decide (f = g) && a.same b
  | .logarithm a b, .logarithm c d => a.same c && b.same d
  | .call name arguments link, .call name' arguments' link' =>
    decide (name = name') && sameExpressions arguments arguments' && link.same link'
  | _, _ => false

/-- Whether two lists of expressions are equal. -/
def sameExpressions : List Expression → List Expression → Bool
  | [], [] => true
  | e :: es, e' :: es' => e.same e' && sameExpressions es es'
  | _, _ => false

/-- Whether two links are equal. -/
def Link.same : Link → Link → Bool
  | .unlinked, .unlinked => true
  | .linked pass d, .linked pass' d' => decide (pass = pass') && d.same d'
  | _, _ => false

/-- Whether two definitions are equal. -/
def FunctionDefinition.same : FunctionDefinition → FunctionDefinition → Bool
  | ⟨name, parameters, body, globals⟩, ⟨name', parameters', body', globals'⟩ =>
    decide (name = name' ∧ parameters = parameters' ∧ globals = globals') && body.same body'

end

mutual

theorem Expression.same_iff : ∀ a b : Expression, a.same b = true ↔ a = b
  | ⟨items⟩, ⟨items'⟩ => by simp [Expression.same, sameItems_iff items items']

theorem sameItems_iff : ∀ is js : List Item, sameItems is js = true ↔ is = js
  | [], js => by cases js <;> simp [sameItems]
  | i :: is, js => by
    cases js with
    | nil => simp [sameItems]
    | cons j js => simp [sameItems, i.same_iff j, sameItems_iff is js]

theorem Item.same_iff : ∀ i j : Item, i.same j = true ↔ i = j
  | ⟨positive, factors⟩, ⟨positive', factors'⟩ => by
    simp [Item.same, sameFactors_iff factors factors']

theorem sameFactors_iff : ∀ fs gs : List Factor, sameFactors fs gs = true ↔ fs = gs
  | [], gs => by cases gs <;> simp [sameFactors]
  | f :: fs, gs => by
    cases gs with
    | nil => simp [sameFactors]
    | cons g gs => simp [sameFactors, f.same_iff g, sameFactors_iff fs gs]

theorem Factor.same_iff : ∀ f g : Factor, f.same g = true ↔ f = g
  | .number x, g => by cases g <;> simp [Factor.same]
  | .constant c, g => by cases g <;> simp [Factor.same]
  | .variable name bound, g => by cases g <;> simp [Factor.same]
  | .fraction a b, g => by cases g <;> simp [Factor.same, a.same_iff, b.same_iff]
  | .power a b, g => by cases g <;> simp [Factor.same, a.same_iff, b.same_iff]
  | .bracket a, g => by cases g <;> simp [Factor.same, a.same_iff]
  | .unary f a, g => by cases g <;> simp [Factor.same, a.same_iff]
  | .logarithm a b, g => by cases g <;> simp [Factor.same, a.same_iff, b.same_iff]
  | .call name arguments link, g => by
    cases g <;> simp [Factor.same, sameExpressions_iff arguments, link.same_iff, and_assoc]

theorem sameExpressions_iff :
    ∀ es es' : List Expression, sameExpressions es es' = true ↔ es = es'
  | [], es' => by cases es' <;> simp [sameExpressions]
  | e :: es, es' => by
    cases es' with
    | nil => simp [sameExpressions]
    | cons e' es' => simp [sameExpressions, e.same_iff e', sameExpressions_iff es es']

theorem Link.same_iff : ∀ l l' : Link, l.same l' = true ↔ l = l'
  | .unlinked, l' => by cases l' <;> simp [Link.same]
  | .linked pass d, l' => by cases l' <;> simp [Link.same, d.same_iff]

theorem FunctionDefinition.same_iff : ∀ d d' : FunctionDefinition, d.same d' = true ↔ d = d'
  | ⟨name, parameters, body, globals⟩, ⟨name', parameters', body', globals'⟩ => by
    simp only [FunctionDefinition.same, Bool.and_eq_true, decide_eq_true_eq, body.same_iff body',
      FunctionDefinition.mk.injEq]
    constructor
    · rintro ⟨⟨hname, hparameters, hglobals⟩, hbody⟩
      exact ⟨hname, hparameters, hbody, hglobals⟩
    · rintro ⟨hname, hparameters, hbody, hglobals⟩
      exact ⟨⟨hname, hparameters, hglobals⟩, hbody⟩

end

instance : DecidableEq Expression := fun a b =>
  decidable_of_iff _ (a.same_iff b)

/-- Definitions that are shared are not compared piece by piece. -/
instance : DecidableEq FunctionDefinition := fun d d' =>
  withPtrEqDecEq d d' fun _ => decidable_of_iff _ (d.same_iff d')

end ImplicitCurves

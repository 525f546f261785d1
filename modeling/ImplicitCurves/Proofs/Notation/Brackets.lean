import ImplicitCurves.Proofs.Notation.Kinds
import ImplicitCurves.Tree.Substitution

/-!
# Bases in brackets

A base of a power that is not a single factor is written in parentheses, so it is read back as a
bracket.  Putting such bases in brackets changes neither the text of a tree nor the order in which its
factors stand: main statements `Expression.text_bracketed` and `Expression.orderly_bracketed`.
-/

namespace ImplicitCurves

namespace Expression

/-- Whether the expression is a single factor without a sign. -/
def isFactor : Expression → Bool
  | ⟨[⟨true, [_]⟩]⟩ => true
  | _ => false

theorem isFactor_iff {e : Expression} : e.isFactor = true ↔ ∃ f, e = .ofFactor f := by
  constructor
  · intro h
    unfold isFactor at h
    split at h
    · exact ⟨_, rfl⟩
    · exact absurd h Bool.false_ne_true
  · rintro ⟨f, rfl⟩
    rfl

/-- The expression as the base of a power that reads it back. -/
def asBase (e : Expression) : Expression :=
  if e.isFactor then e else .ofFactor (.bracket e)

theorem asBase_of_isFactor {e : Expression} (h : e.isFactor = true) : e.asBase = e :=
  if_pos h

theorem asBase_of_not_isFactor {e : Expression} (h : e.isFactor = false) :
    e.asBase = .ofFactor (.bracket e) :=
  if_neg (by rw [h]; exact Bool.false_ne_true)

/-- The factors of each item stand in an order in which they can be read. -/
def Orderly : Expression → Prop :=
  Everywhere fun e => ∀ i ∈ e.items, i.Ordered

/-- Induction on the expressions inside an expression. -/
theorem everywhere_of_forall {p : Expression → Prop} (h : ∀ e, p e) (e : Expression) :
    e.Everywhere p := by
  obtain ⟨items⟩ := e
  refine .intro (h _) fun i hi f hf c hc => ?_
  have hitem := List.sizeOf_lt_of_mem hi
  have hfactor := List.sizeOf_lt_of_mem hf
  have hchild : sizeOf c < sizeOf f := by
    cases f with
    | fraction a b | power a b | logarithm a b =>
      rcases List.mem_pair.1 hc with rfl | rfl
      · simp only [Factor.fraction.sizeOf_spec, Factor.power.sizeOf_spec, Factor.logarithm.sizeOf_spec]
        omega
      · simp only [Factor.fraction.sizeOf_spec, Factor.power.sizeOf_spec, Factor.logarithm.sizeOf_spec]
        omega
    | bracket a =>
      obtain rfl := List.mem_singleton.1 hc
      simp
    | unary f a =>
      obtain rfl := List.mem_singleton.1 hc
      rw [Factor.unary.sizeOf_spec]
      omega
    | call name arguments link =>
      have hargument : sizeOf c < sizeOf arguments := List.sizeOf_lt_of_mem hc
      rw [Factor.call.sizeOf_spec]
      omega
    | _ => cases hc
  have hfactors : sizeOf i.factors < sizeOf i := by
    obtain ⟨positive, factors⟩ := i
    simp
  have hdecreases : sizeOf c < sizeOf (Expression.mk items) := by
    rw [Expression.mk.sizeOf_spec]
    omega
  exact everywhere_of_forall h c
termination_by sizeOf e
decreasing_by exact hdecreases

end Expression

/-- The factor with its base put in brackets if it is a power that needs them. -/
def Factor.withBracketedBase : Factor → Factor
  | .power base exponent => .power base.asBase exponent
  | f => f

/-- The factor with all bases inside it put in brackets that need them. -/
def Factor.bracketed (f : Factor) : Factor :=
  f.mapInner withBracketedBase

/-- The item with all bases put in brackets that need them. -/
def Item.bracketed (i : Item) : Item :=
  ⟨i.positive, i.factors.map Factor.bracketed⟩

/-- The expression with all bases put in brackets that need them. -/
def Expression.bracketed (e : Expression) : Expression :=
  e.mapFactors Factor.withBracketedBase

theorem mapFactorList_eq_map (change : Factor → Factor) (fs : List Factor) :
    mapFactorList change fs = fs.map (Factor.mapInner change) := by
  induction fs with
  | nil => rfl
  | cons f fs ih => rw [mapFactorList, ih, List.map_cons]

theorem mapItems_eq_map (change : Factor → Factor) (is : List Item) :
    mapItems change is = is.map fun i => ⟨i.positive, i.factors.map (Factor.mapInner change)⟩ := by
  induction is with
  | nil => rfl
  | cons i is ih =>
    obtain ⟨positive, factors⟩ := i
    rw [mapItems, ih, List.map_cons, Item.mapFactors, mapFactorList_eq_map]

theorem mapExpressions_eq_map (change : Factor → Factor) (es : List Expression) :
    mapExpressions change es = es.map (Expression.mapFactors change) := by
  induction es with
  | nil => rfl
  | cons e es ih => rw [mapExpressions, ih, List.map_cons]

theorem Expression.items_bracketed (e : Expression) : e.bracketed.items = e.items.map Item.bracketed := by
  obtain ⟨items⟩ := e
  exact mapItems_eq_map Factor.withBracketedBase items

namespace Factor

variable {f g : Factor}

theorem isPower_bracketed (f : Factor) : f.bracketed.isPower = f.isPower := by
  cases f <;> rfl

theorem isPlain_bracketed (f : Factor) : f.bracketed.isPlain = f.isPlain := by
  cases f <;> rfl

theorem isFunction_bracketed (f : Factor) : f.bracketed.isFunction = f.isFunction := by
  cases f <;> rfl

theorem isClosed_bracketed (f : Factor) : f.bracketed.isClosed = f.isClosed := by
  cases f <;> rfl

theorem separator_bracketed (f g : Factor) : separator f.bracketed g.bracketed = separator f g := by
  cases f with
  | constant c => cases c <;> cases g <;> rfl
  | _ =>
    cases g with
    | constant c => cases c <;> rfl
    | _ => rfl

end Factor

namespace Expression

theorem bracketed_ofFactor (f : Factor) : (ofFactor f).bracketed = ofFactor f.bracketed :=
  rfl

theorem isFactor_bracketed (e : Expression) : e.bracketed.isFactor = e.isFactor := by
  have hback : e.bracketed.isFactor = true → e.isFactor = true := by
    intro h
    obtain ⟨g, hg⟩ := isFactor_iff.1 h
    have hitems := e.items_bracketed
    obtain ⟨items⟩ := e
    rw [hg] at hitems
    obtain ⟨i, rfl, hi⟩ := List.map_eq_singleton_iff.1 hitems.symm
    obtain ⟨positive, factors⟩ := i
    obtain ⟨hpositive, hfactors⟩ := Item.mk.inj hi
    obtain ⟨f, hf, -⟩ := List.map_eq_singleton_iff.1 hfactors
    obtain rfl : positive = true := hpositive
    obtain rfl : factors = [f] := hf
    rfl
  cases h : e.isFactor with
  | true =>
    obtain ⟨f, rfl⟩ := isFactor_iff.1 h
    rfl
  | false =>
    rw [← Bool.not_eq_true]
    intro hbracketed
    exact Bool.false_ne_true (h.symm.trans (hback hbracketed))

end Expression

namespace Factor

/-- Whether the factor has the property, or is a power of a factor that has. -/
def atBase (p : Factor → Bool) : Factor → Bool
  | .power ⟨[⟨true, [f]⟩]⟩ _ => p f
  | f => p f

theorem isOpen_eq_atBase (f : Factor) : f.isOpen = f.atBase isFunction :=
  rfl

/-- Brackets around bases change nothing about the factors in front of carets. -/
theorem atBase_bracketed {p : Factor → Bool} (hp : ∀ f : Factor, p f.bracketed = p f)
    (hpower : ∀ base exponent, p (power base exponent) = false) (hbracket : ∀ e, p (bracket e) = false)
    (f : Factor) : f.bracketed.atBase p = f.atBase p := by
  cases f with
  | power base exponent =>
    have hbracketed : (power base exponent).bracketed =
        power base.bracketed.asBase exponent.bracketed := rfl
    rw [hbracketed]
    cases h : base.isFactor with
    | true =>
      obtain ⟨g, rfl⟩ := Expression.isFactor_iff.1 h
      exact hp g
    | false =>
      have hother : (power base exponent).atBase p = false := by
        unfold atBase
        split
        · next heq =>
          obtain ⟨rfl, -⟩ := Factor.power.inj heq
          exact absurd h.symm Bool.false_ne_true
        · exact hpower base exponent
      rw [Expression.asBase_of_not_isFactor ((Expression.isFactor_bracketed base).trans h), hother]
      exact hbracket base.bracketed
  | _ => exact hp _

/-- A function stays in front of what it could take. -/
theorem isOpen_bracketed (f : Factor) : f.bracketed.isOpen = f.isOpen := by
  rw [isOpen_eq_atBase, isOpen_eq_atBase]
  exact atBase_bracketed isFunction_bracketed (fun _ _ => rfl) (fun _ => rfl) f

theorem mayPrecede_bracketed (f g : Factor) :
    f.bracketed.mayPrecede g.bracketed = f.mayPrecede g := by
  rw [mayPrecede, isPower_bracketed, isPower_bracketed, isOpen_bracketed, isClosed_bracketed]
  rfl

/-- The expressions inside the factor with brackets are those inside the factor, with brackets. -/
theorem forall_children_bracketed {p : Expression → Prop} (hp : ∀ e, p e.asBase ↔ p e) (f : Factor) :
    (∀ e ∈ f.bracketed.children, p e) ↔ ∀ e ∈ f.children, p e.bracketed := by
  cases f with
  | number x | constant c | «variable» name bound =>
    have hnone : (∀ e ∈ ([] : List Expression), p e) ↔ ∀ e ∈ ([] : List Expression), p e.bracketed := by
      simp
    exact hnone
  | power a b =>
    have hpair : (∀ e ∈ [a.bracketed.asBase, b.bracketed], p e) ↔ ∀ e ∈ [a, b], p e.bracketed := by
      simp [hp]
    exact hpair
  | fraction a b | logarithm a b =>
    have hpair : (∀ e ∈ [a.bracketed, b.bracketed], p e) ↔ ∀ e ∈ [a, b], p e.bracketed := by simp
    exact hpair
  | bracket a | unary f a =>
    have hone : (∀ e ∈ [a.bracketed], p e) ↔ ∀ e ∈ [a], p e.bracketed := by simp
    exact hone
  | call name arguments link =>
    have hall : (∀ e ∈ mapExpressions withBracketedBase arguments, p e) ↔
        ∀ e ∈ arguments, p e.bracketed := by
      rw [mapExpressions_eq_map, List.forall_mem_map]
      rfl
    exact hall

end Factor

namespace Expression

/-- Putting a base in brackets changes nothing deeper inside of it. -/
theorem everywhere_asBase {p : Expression → Prop} (hp : ∀ e, p (.ofFactor (.bracket e))) {e : Expression} :
    e.asBase.Everywhere p ↔ e.Everywhere p := by
  cases h : e.isFactor with
  | true => rw [asBase_of_isFactor h]
  | false =>
    rw [asBase_of_not_isFactor h]
    constructor
    · intro hbase
      exact hbase.inside (List.mem_singleton.2 rfl) (List.mem_singleton.2 rfl) e (List.mem_singleton.2 rfl)
    · intro he
      refine .intro (hp e) fun i hi f hf c hc => ?_
      obtain rfl := List.mem_singleton.1 hi
      obtain rfl := List.mem_singleton.1 hf
      obtain rfl := List.mem_singleton.1 hc
      exact he

/-- What holds everywhere with the bases in brackets, in terms of the expressions without. -/
theorem everywhere_bracketed {p : Expression → Prop} (hp : ∀ e, p (.ofFactor (.bracket e)))
    {e : Expression} : e.bracketed.Everywhere p ↔ e.Everywhere fun e => p e.bracketed := by
  have hall := everywhere_of_forall (fun _ => trivial) e
  induction hall with
  | @intro items _ _ ih =>
    have hitems := (Expression.mk items).items_bracketed
    rcases hbracketed : (Expression.mk items).bracketed with ⟨items'⟩
    rw [hbracketed] at hitems
    obtain rfl : items' = items.map Item.bracketed := hitems
    rw [everywhere_iff, everywhere_iff, hbracketed]
    refine and_congr_right fun _ => ?_
    rw [List.forall_mem_map]
    refine forall₂_congr fun i hi => ?_
    rw [Item.bracketed, List.forall_mem_map]
    refine forall₂_congr fun f hf => ?_
    rw [Factor.forall_children_bracketed fun e => everywhere_asBase hp]
    exact forall₂_congr fun c hc => ih i hi f hf c hc

end Expression

theorem Item.ordered_bracketed {i : Item} : i.bracketed.Ordered ↔ i.Ordered := by
  rw [Ordered, bracketed, List.pairwise_map]
  simp only [Factor.mayPrecede_bracketed]
  rfl

theorem Item.Spaced.bracketed {i : Item} (h : i.Spaced) : i.bracketed.Spaced := by
  rw [Spaced, Item.bracketed, List.isChain_map]
  simp only [Factor.isPlain_bracketed, Factor.isPower_bracketed]
  exact h

/-- The factor is as the readers make it.  The base of a power is any expression, only not a single
power. -/
def Factor.Produced : Factor → Prop
  | .number x => Decimal.ReadsBack x
  | .variable name bound => (name.isAlpha = true ∧ name ≠ 'e') ∧ bound = none
  | .power base _ => ∀ f : Factor, base = .ofFactor f → f.isPower = false
  | .call name arguments link => (name.isAlpha = true ∧ name ≠ 'e') ∧ link = .unlinked ∧ arguments ≠ []
  | _ => True

/-- With brackets around its base a power can be written. -/
theorem Factor.Produced.wellFormed_bracketed {f : Factor} (h : f.Produced) : f.bracketed.WellFormed := by
  cases f with
  | power base exponent =>
    show ∃ g : Factor, base.bracketed.asBase = .ofFactor g ∧ g.isPower = false
    cases hbase : base.isFactor with
    | true =>
      obtain ⟨g, rfl⟩ := Expression.isFactor_iff.1 hbase
      exact ⟨g.bracketed, rfl, (isPower_bracketed g).trans (h g rfl)⟩
    | false =>
      exact ⟨.bracket base.bracketed,
        Expression.asBase_of_not_isFactor ((Expression.isFactor_bracketed base).trans hbase), rfl⟩
  | call name arguments link =>
    obtain ⟨hname, hlink, hne⟩ := h
    refine ⟨hname, hlink, ?_⟩
    rw [mapExpressions_eq_map]
    exact fun hnil => hne (List.map_eq_nil_iff.1 hnil)
  | _ => exact h

namespace Expression

/-- The items of the expression are as the readers make them. -/
structure ProducedHere (e : Expression) : Prop where
  ne_nil : e.items ≠ []
  factors_ne_nil : ∀ i ∈ e.items, i.factors ≠ []
  spaced : ∀ i ∈ e.items, i.Spaced
  factors : ∀ i ∈ e.items, ∀ f ∈ i.factors, f.Produced

/-- The expression is as the readers make it. -/
def Produced : Expression → Prop :=
  Everywhere ProducedHere

/-- What was read can be written again once there are brackets around the bases. -/
theorem Produced.writable_bracketed {e : Expression} (h : e.Produced) : e.bracketed.Writable := by
  refine (everywhere_bracketed ?_).2 (h.imp fun e here => ⟨⟨?_, ?_⟩, ?_⟩)
  · intro e
    refine ⟨⟨List.cons_ne_nil _ _, fun i hi => ?_⟩, fun i hi => ?_⟩
    · obtain rfl := List.mem_singleton.1 hi
      refine ⟨List.cons_ne_nil _ _, fun f hf => ?_⟩
      obtain rfl := List.mem_singleton.1 hf
      trivial
    · obtain rfl := List.mem_singleton.1 hi
      exact List.isChain_singleton _
  · rw [items_bracketed]
    exact fun hnil => here.ne_nil (List.map_eq_nil_iff.1 hnil)
  · rw [items_bracketed, List.forall_mem_map]
    refine fun i hi => ⟨fun hnil => here.factors_ne_nil i hi (List.map_eq_nil_iff.1 hnil), ?_⟩
    rw [Item.bracketed, List.forall_mem_map]
    exact fun f hf => (here.factors i hi f hf).wellFormed_bracketed
  · rw [items_bracketed, List.forall_mem_map]
    exact fun i hi => (here.spaced i hi).bracketed

/-- The order of the factors stays the same. -/
theorem orderly_bracketed {e : Expression} : e.bracketed.Orderly ↔ e.Orderly := by
  have hsingle : ∀ e : Expression, ∀ i ∈ (ofFactor (.bracket e)).items, i.Ordered := by
    intro e i hi
    obtain rfl := List.mem_singleton.1 hi
    exact List.pairwise_singleton _ _
  have hhere : ∀ e : Expression, (∀ i ∈ e.bracketed.items, i.Ordered) ↔ ∀ i ∈ e.items, i.Ordered := by
    intro e
    rw [items_bracketed, List.forall_mem_map]
    simp only [Item.ordered_bracketed]
  rw [Orderly, everywhere_bracketed hsingle]
  simp only [hhere]

end Expression

section Text

theorem textOfArguments_bracketed {es : List Expression} (h : ∀ e ∈ es, e.bracketed.text = e.text)
    (first : Bool) : textOfArguments first (es.map Expression.bracketed) = textOfArguments first es := by
  induction es generalizing first with
  | nil => rfl
  | cons e es ih =>
    obtain ⟨he, hes⟩ := List.forall_mem_cons.1 h
    rw [List.map_cons, textOfArguments, textOfArguments, he, ih hes]

/-- A base is written in parentheses unless it is a single factor. -/
theorem Expression.baseText_eq (e : Expression) :
    e.baseText = if e.isFactor then e.text else parenthesized e.text := by
  cases h : e.isFactor with
  | true =>
    obtain ⟨f, rfl⟩ := isFactor_iff.1 h
    simp [ofFactor, baseText, text, textOfItems, Item.factorsText, textOfFactors, signText]
  | false =>
    unfold baseText
    split
    · exact absurd h.symm Bool.false_ne_true
    · rw [if_neg Bool.false_ne_true, text]

theorem Expression.baseText_asBase (e : Expression) : e.asBase.baseText = e.baseText := by
  cases h : e.isFactor with
  | true => rw [asBase_of_isFactor h]
  | false =>
    rw [asBase_of_not_isFactor h, baseText_eq e, h, if_neg Bool.false_ne_true]
    rfl

theorem Factor.text_bracketed {f : Factor} (h : ∀ e ∈ f.children, e.bracketed.text = e.text) :
    f.bracketed.text = f.text := by
  cases f with
  | number x | constant c | «variable» name bound => rfl
  | power base exponent =>
    have hbase := h base List.mem_cons_self
    have hexponent := h exponent (List.mem_cons_of_mem _ List.mem_cons_self)
    show base.bracketed.asBase.baseText ++ '^' :: braced exponent.bracketed.text = _
    rw [Expression.baseText_asBase, Expression.baseText_eq, Expression.isFactor_bracketed, hbase,
      ← Expression.baseText_eq, hexponent]
    rfl
  | fraction a b =>
    have ha := h a List.mem_cons_self
    have hb := h b (List.mem_cons_of_mem _ List.mem_cons_self)
    show "\\frac".toList ++ braced a.bracketed.text ++ braced b.bracketed.text = _
    rw [ha, hb]
    rfl
  | logarithm a b =>
    have ha := h a List.mem_cons_self
    have hb := h b (List.mem_cons_of_mem _ List.mem_cons_self)
    show "\\log_".toList ++ braced a.bracketed.text ++ parenthesized b.bracketed.text = _
    rw [ha, hb]
    rfl
  | bracket a => exact congrArg parenthesized (h a List.mem_cons_self)
  | unary f a => exact congrArg (f.command ++ parenthesized ·) (h a List.mem_cons_self)
  | call name arguments link =>
    show name :: parenthesized (textOfArguments true (mapExpressions withBracketedBase arguments)) = _
    rw [mapExpressions_eq_map]
    exact congrArg (name :: parenthesized ·) (textOfArguments_bracketed h true)

theorem textOfFactors_bracketed {fs : List Factor} (h : ∀ f ∈ fs, f.bracketed.text = f.text)
    (previous : Option Factor) : textOfFactors (previous.map Factor.bracketed) (fs.map Factor.bracketed) =
      textOfFactors previous fs := by
  induction fs generalizing previous with
  | nil => rfl
  | cons f fs ih =>
    obtain ⟨hf, hfs⟩ := List.forall_mem_cons.1 h
    have hrest := ih hfs (some f)
    rw [Option.map_some] at hrest
    cases previous with
    | none => rw [List.map_cons, Option.map_none, textOfFactors, textOfFactors, hf, hrest]
    | some p =>
      rw [List.map_cons, Option.map_some, textOfFactors, textOfFactors, hf, hrest, Factor.separator_bracketed]

theorem textOfItems_bracketed {is : List Item} (h : ∀ i ∈ is, ∀ f ∈ i.factors, f.bracketed.text = f.text)
    (first : Bool) : textOfItems first (is.map Item.bracketed) = textOfItems first is := by
  induction is generalizing first with
  | nil => rfl
  | cons i is ih =>
    obtain ⟨hi, his⟩ := List.forall_mem_cons.1 h
    obtain ⟨positive, factors⟩ := i
    have hfactors := textOfFactors_bracketed hi none
    rw [Option.map_none] at hfactors
    rw [List.map_cons, textOfItems, textOfItems, ih his, Item.bracketed, Item.factorsText, hfactors]
    rfl

/-- The brackets are written anyway. -/
theorem Expression.text_bracketed (e : Expression) : e.bracketed.text = e.text := by
  have hall := everywhere_of_forall (fun _ => trivial) e
  induction hall with
  | @intro items _ _ ih =>
    have hitems := (Expression.mk items).items_bracketed
    rcases hbracketed : (Expression.mk items).bracketed with ⟨items'⟩
    rw [hbracketed] at hitems
    obtain rfl : items' = items.map Item.bracketed := hitems
    rw [text, text, List.isEmpty_map,
      textOfItems_bracketed fun i hi f hf => Factor.text_bracketed (ih i hi f hf)]

end Text

end ImplicitCurves

import ImplicitCurves.Parser.Source
import ImplicitCurves.Proofs.Failing
import ImplicitCurves.Proofs.Notation.Reading
import ImplicitCurves.Proofs.Tree.Inlining
import Mathlib.Tactic.MkIffOfInductiveProp

/-!
# Round trips

A canonical tree is read from its own text, provided that its numbers are: main statement
`Expression.read_text_canonical`.
-/

namespace ImplicitCurves

theorem pairwise_of_dropLast {α : Type} {p : α → Prop} {xs : List α} (h : ∀ x ∈ xs.dropLast, p x) :
    xs.Pairwise fun x _ => p x := by
  induction xs with
  | nil => exact .nil
  | cons x xs ih =>
    cases xs with
    | nil => exact List.pairwise_singleton _ _
    | cons y ys =>
      rw [List.dropLast_cons_of_ne_nil (List.cons_ne_nil y ys)] at h
      obtain ⟨hx, hxs⟩ := List.forall_mem_cons.1 h
      exact .cons (fun _ _ => hx) (ih hxs)

/-- What the grammar asks of a single factor.  A number is finite and has no sign, and a base of a
power is a single factor, which is no power. -/
def Factor.Canonical : Factor → Prop
  | .number x => x.isFinite = true ∧ Decimal.isNegative x = false
  | .variable name bound => (name.isAlpha = true ∧ name ≠ 'e') ∧ bound = none
  | .power base _ => ∃ f : Factor, base = .ofFactor f ∧ f.isPower = false
  | .call name arguments link => (name.isAlpha = true ∧ name ≠ 'e') ∧ link = .unlinked ∧ arguments ≠ []
  | _ => True

/-- Powers stand in front of all other factors, and only the last factor can be a function, a
logarithm, or a power of one. -/
@[mk_iff]
structure Item.Canonical (i : Item) : Prop where
  ne_nil : i.factors ≠ []
  factors : ∀ f ∈ i.factors, f.Canonical
  powers : i.factors.Pairwise fun f g => g.isPower = true → f.isPower = true
  last : ∀ f ∈ i.factors.dropLast, f.isOpen = false

/-- The expression and all expressions inside it have items, and these are canonical. -/
def Expression.Canonical : Expression → Prop :=
  Everywhere fun e => e.items ≠ [] ∧ ∀ i ∈ e.items, i.Canonical

/-- A number that is written without a sign reads back if all numbers do. -/
theorem Factor.Canonical.wellFormed {f : Factor} (h : f.Canonical)
    (hnumber : ∀ x, f = .number x → x.isFinite = true → Decimal.isNegative x = false →
      Decimal.ReadsBack x) : f.WellFormed := by
  cases f with
  | number x => exact hnumber x rfl h.1 h.2
  | _ => exact h

theorem Item.Canonical.ordered {i : Item} (h : i.Canonical) : i.Ordered := by
  have hopen := pairwise_of_dropLast h.last
  refine (h.powers.and hopen).imp fun {f g} hfg => ?_
  obtain ⟨hpower, hopen⟩ := hfg
  rw [Factor.mayPrecede, hopen, Bool.not_false, Bool.true_or, Bool.and_true]
  cases hg : g.isPower with
  | false => rfl
  | true => exact hpower hg

section Inside

variable {g : Factor}

theorem Factor.mem_withInner_self (f : Factor) : f ∈ f.withInner := by
  cases f <;> exact List.mem_cons_self

theorem Factor.mem_withInner_of_mem_children {f : Factor} {e : Expression} (he : e ∈ f.children)
    (hg : g ∈ e.factors) : g ∈ f.withInner := by
  have hpair : ∀ {a b : Expression}, e ∈ [a, b] → g ∈ a.factors ++ b.factors := by
    intro a b he
    rcases List.mem_pair.1 he with rfl | rfl
    · exact List.mem_append_left _ hg
    · exact List.mem_append_right _ hg
  cases f with
  | number x => cases he
  | constant c => cases he
  | «variable» name bound => cases he
  | fraction a b => exact List.mem_cons_of_mem _ (hpair he)
  | power a b => exact List.mem_cons_of_mem _ (hpair he)
  | bracket a =>
    obtain rfl := List.mem_singleton.1 he
    exact List.mem_cons_of_mem _ hg
  | unary f a =>
    obtain rfl := List.mem_singleton.1 he
    exact List.mem_cons_of_mem _ hg
  | logarithm a b => exact List.mem_cons_of_mem _ (hpair he)
  | call name arguments link => exact List.mem_cons_of_mem _ (mem_factorsOfExpressions he g hg)

theorem mem_factorsOfFactors {f : Factor} {fs : List Factor} (hf : f ∈ fs) (hg : g ∈ f.withInner) :
    g ∈ factorsOfFactors fs := by
  induction fs with
  | nil => cases hf
  | cons f' fs ih =>
    rcases List.mem_cons.1 hf with rfl | hf
    · exact List.mem_append_left _ hg
    · exact List.mem_append_right _ (ih hf)

theorem mem_factorsOfItems {i : Item} {items : List Item} (hi : i ∈ items) (hg : g ∈ i.allFactors) :
    g ∈ factorsOfItems items := by
  induction items with
  | nil => cases hi
  | cons i' items ih =>
    rcases List.mem_cons.1 hi with rfl | hi
    · exact List.mem_append_left _ hg
    · exact List.mem_append_right _ (ih hi)

theorem Expression.mem_factors {e : Expression} {i : Item} (hi : i ∈ e.items) {f : Factor}
    (hf : f ∈ i.factors) (hg : g ∈ f.withInner) : g ∈ e.factors := by
  obtain ⟨items⟩ := e
  obtain ⟨positive, factors⟩ := i
  exact mem_factorsOfItems hi (mem_factorsOfFactors hf hg)

end Inside

section Parsing

variable {node : Type} [Readable node] {source : List Char} {value : node}

theorem readTokens_eq_ok {tokens : List Token} :
    readTokens node source tokens = .ok value ↔ tokens ≠ [] ∧ Readable.read tokens = some value := by
  rw [readTokens]
  cases tokens with
  | nil => exact ⟨fun h => (by cases h), fun h => absurd rfl h.1⟩
  | cons t ts =>
    rw [if_neg (by simp)]
    cases hread : (Readable.read (t :: ts) : Option node) with
    | none => exact ⟨fun h => (by cases h), fun h => (by cases h.2)⟩
    | some value' =>
      constructor
      · rintro h
        cases h
        exact ⟨List.cons_ne_nil _ _, rfl⟩
      · rintro ⟨-, h⟩
        cases h
        rfl

/-- A text is parsed as a node if its groups are closed and its tokens are read as the node. -/
theorem parse_eq_ok : parse node source = .ok value ↔ ∃ tokens, tokenize source = .ok tokens ∧
    checkBalanced tokens = .ok () ∧ tokens ≠ [] ∧ Readable.read tokens = some value := by
  rw [parse, bind_eq_ok]
  constructor
  · rintro ⟨tokens, hbalanced, hread⟩
    obtain ⟨tokens', htokens, h⟩ := bind_eq_ok.1 hbalanced
    obtain ⟨u, hclosed, h⟩ := bind_eq_ok.1 h
    cases h
    exact ⟨tokens, htokens, hclosed, readTokens_eq_ok.1 hread⟩
  · rintro ⟨tokens, htokens, hclosed, hread⟩
    refine ⟨tokens, bind_eq_ok.2 ⟨tokens, htokens, ?_⟩, readTokens_eq_ok.2 hread⟩
    exact bind_eq_ok.2 ⟨(), hclosed, rfl⟩

end Parsing

namespace Expression

/-- A canonical tree whose numbers read back is legible. -/
theorem Canonical.legible {e : Expression} (h : e.Canonical)
    (hnumbers : ∀ x, .number x ∈ e.factors → x.isFinite = true → Decimal.isNegative x = false →
      Decimal.ReadsBack x) : e.Legible := by
  induction h with
  | @intro items here inside ih =>
    refine .intro ⟨⟨here.1, fun i hi => ⟨(here.2 i hi).ne_nil, fun f hf => ?_⟩⟩,
      fun i hi => (here.2 i hi).ordered⟩ fun i hi f hf e he => ?_
    · refine ((here.2 i hi).factors f hf).wellFormed fun x hx => hnumbers x ?_
      rw [← hx]
      exact mem_factors (e := ⟨items⟩) hi hf f.mem_withInner_self
    · refine ih i hi f hf e he fun x hx => hnumbers x ?_
      exact mem_factors (e := ⟨items⟩) hi hf (Factor.mem_withInner_of_mem_children he hx)

/-- A text is parsed as the expression that its tokens are read as.  Tokens whose groups are not
closed cannot be read. -/
theorem parse_of_read {source : List Char} {tokens : List Token} {e : Expression}
    (htokens : tokenize source = .ok tokens) (hread : read tokens = some e) :
    parse Expression source = .ok e := by
  refine parse_eq_ok.2 ⟨tokens, htokens, (complete_of_read hread).checkBalanced_eq, ?_, hread⟩
  rintro rfl
  cases hread

/-- The text of a canonical tree is cut into tokens that are read as the tree, and parsed as the
tree, if the numbers in it are read as they are written. -/
theorem read_text_canonical {e : Expression} (h : e.Canonical)
    (hnumbers : ∀ x, .number x ∈ e.factors → x.isFinite = true → Decimal.isNegative x = false →
      Decimal.ReadsBack x) :
    (∃ tokens, tokenize e.text = .ok tokens ∧ read tokens = some e) ∧
      parse Expression e.text = .ok e := by
  obtain ⟨tokens, htokens, -, hread⟩ := read_text (h.legible hnumbers)
  exact ⟨⟨tokens, htokens, hread⟩, parse_of_read htokens hread⟩

/-- The round trip of `-x^{2}y\cdot 0.5\sin((\pi))+f(x,2)`. -/
theorem read_text_canonical_powerAndCall :
    let e : Expression :=
      ⟨[⟨false, [.power (.ofFactor (.variable 'x' none)) (.ofNumber 2), .variable 'y' none,
          .number 0.5, .unary .sin (.ofFactor (.bracket (.ofFactor (.constant .pi))))]⟩,
        ⟨true, [.call 'f' [.ofFactor (.variable 'x' none), .ofNumber 2] .unlinked]⟩]⟩
    e.Canonical ∧ e.text = "-x^\x7b2\x7dy\\cdot 0.5\\sin((\\pi))+f(x,2)".toList ∧
      (∃ tokens, tokenize e.text = .ok tokens ∧ read tokens = some e) ∧
      parse Expression e.text = .ok e := by
  intro e
  have hcanonical : e.Canonical := by
    simp [e, Canonical, everywhere_iff, Item.canonical_iff, ofFactor, ofNumber, Factor.children,
      Factor.Canonical, Factor.isPower, Factor.isOpen, Factor.isFunction]
    decide +kernel
  have hnumbers : ∀ x, .number x ∈ e.factors → x.isFinite = true → Decimal.isNegative x = false →
      Decimal.ReadsBack x := by
    intro x hx _ _
    have hx : x = 2 ∨ x = 0.5 := by
      simpa [e, factors, factorsOfItems, factorsOfFactors, Item.allFactors, Factor.withInner,
        factorsOfExpressions, ofFactor, ofNumber, or_comm, or_assoc, or_left_comm] using hx
    rcases hx with rfl | rfl <;> decide +kernel
  exact ⟨hcanonical, by decide +kernel, read_text_canonical hcanonical hnumbers⟩

end Expression

end ImplicitCurves

import ImplicitCurves.Proofs.Notation.Brackets
import ImplicitCurves.Proofs.Notation.Inline
import Mathlib.Algebra.GroupWithZero.Nat

/-!
# Counting parentheses

Writing a tree that was read does not take parentheses away: each opening parenthesis that was read is
one of a group, of arguments, or around the argument of a function, and all of these are written.  More
are written around arguments and bases that had none.  Main statement:
`Expression.covers_of_read`.
-/

namespace ImplicitCurves

/-- How many opening parentheses there are. -/
def parens (ks : List TokenKind) : Nat :=
  ks.count .openParen

section Count

variable {k : TokenKind} {ks ks' : List TokenKind}

@[simp] theorem parens_nil : parens [] = 0 :=
  rfl

@[simp] theorem parens_append : parens (ks ++ ks') = parens ks + parens ks' :=
  List.count_append

theorem parens_cons_of_ne (hk : k ≠ .openParen) : parens (k :: ks) = parens ks :=
  List.count_cons_of_ne hk

@[simp] theorem parens_cons_open : parens (.openParen :: ks) = parens ks + 1 :=
  List.count_cons_self

@[simp] theorem parens_parenKinds : parens (parenKinds ks) = parens ks + 1 := by
  simp [parenKinds, parens_cons_of_ne]

@[simp] theorem parens_braceKinds : parens (braceKinds ks) = parens ks := by
  simp [braceKinds, parens_cons_of_ne]

theorem parens_separatorKinds (previous : Option Factor) (f : Factor) :
    parens (separatorKinds previous f) = 0 := by
  unfold separatorKinds
  split
  · exact parens_cons_of_ne (by simp)
  · rfl

theorem parens_signKinds (first positive : Bool) : parens (signKinds first positive) = 0 := by
  cases first <;> cases positive <;> rfl

end Count

/-- The opening parentheses of factors. -/
def parensOfFactors (fs : List Factor) : Nat :=
  (fs.map fun f => parens f.bracketed.kinds).sum

theorem parensOfFactors_cons (f : Factor) (fs : List Factor) :
    parensOfFactors (f :: fs) = parens f.bracketed.kinds + parensOfFactors fs :=
  rfl

theorem parens_kindsOfFactors (previous : Option Factor) (fs : List Factor) :
    parens (kindsOfFactors previous (fs.map Factor.bracketed)) = parensOfFactors fs := by
  induction fs generalizing previous with
  | nil => rfl
  | cons f fs ih =>
    rw [List.map_cons, kindsOfFactors, parens_append, parens_append, parens_separatorKinds, ih,
      parensOfFactors_cons, Nat.zero_add]

theorem parens_kindsOfItems (first : Bool) (is : List Item) :
    parens (kindsOfItems first (is.map Item.bracketed)) =
      (is.map fun i => parensOfFactors i.factors).sum := by
  induction is generalizing first with
  | nil => rfl
  | cons i is ih =>
    obtain ⟨positive, factors⟩ := i
    rw [List.map_cons, kindsOfItems, parens_append, parens_append, parens_signKinds, ih,
      Item.bracketed, Item.factorKinds, parens_kindsOfFactors, List.map_cons, List.sum_cons,
      Nat.zero_add]

theorem parens_kindsOfArguments (first : Bool) (es : List Expression) :
    parens (kindsOfArguments first es) = (es.map fun e => parens e.kinds).sum := by
  induction es generalizing first with
  | nil => rfl
  | cons e es ih =>
    have hcomma : parens (if first then [] else [TokenKind.comma]) = 0 := by
      cases first <;> rfl
    rw [kindsOfArguments, parens_append, parens_append, hcomma, ih, List.map_cons, List.sum_cons,
      Nat.zero_add]

namespace Expression

theorem parens_bracketed (e : Expression) :
    parens e.bracketed.kinds = (e.items.map fun i => parensOfFactors i.factors).sum := by
  have hitems := e.items_bracketed
  rcases hbracketed : e.bracketed with ⟨items⟩
  rw [hbracketed] at hitems
  obtain rfl : items = e.items.map Item.bracketed := hitems
  exact parens_kindsOfItems true e.items

theorem parens_asBase (e : Expression) :
    parens e.asBase.kinds = parens e.kinds + if e.isFactor then 0 else 1 := by
  cases h : e.isFactor with
  | true => rw [asBase_of_isFactor h, if_pos rfl]; rfl
  | false =>
    rw [asBase_of_not_isFactor h, kinds_ofFactor, Factor.kinds, parens_parenKinds,
      if_neg Bool.false_ne_true]

/-- There are at least as many opening parentheses in the tree as among the tokens. -/
def Covers (e : Expression) (ts : List Token) : Prop :=
  parens (ts.map (·.kind)) ≤ parens e.bracketed.kinds

/-- There are just as many opening parentheses in the tree as among the tokens. -/
def Snug (e : Expression) (ts : List Token) : Prop :=
  parens (ts.map (·.kind)) = parens e.bracketed.kinds

end Expression

theorem parens_splitTopLevel {separator : TokenKind} (h : separator ≠ .openParen) (depth : Int)
    (ts : List Token) : parens (ts.map (·.kind)) =
      ((splitTopLevel separator depth ts).map fun part => parens (part.map (·.kind))).sum := by
  induction ts generalizing depth with
  | nil => rfl
  | cons t ts ih =>
    simp only [splitTopLevel]
    split
    · next hsplit =>
      rw [List.map_cons, parens_cons_of_ne (by rw [hsplit.2.1]; exact h), ih depth]
      simp
    · have hrest := ih (t.depthAfter depth)
      have hone : parens ((t :: ts).map (·.kind)) = parens [t.kind] + parens (ts.map (·.kind)) := by
        rw [List.map_cons, ← List.singleton_append, parens_append]
      cases hs : splitTopLevel separator (t.depthAfter depth) ts with
      | nil => exact absurd hs (splitTopLevel_ne_nil _ _ _)
      | cons part parts =>
        rw [hs, List.map_cons, List.sum_cons] at hrest
        have hpart : parens ((t :: part).map (·.kind)) = parens [t.kind] + parens (part.map (·.kind)) := by
          rw [List.map_cons, ← List.singleton_append, parens_append]
        rw [hone, addToFirst, List.map_cons, List.sum_cons, hpart, hrest]
        omega

/-- Terms that are at most as large, one by one, have a sum that is at most as large, and all of them
are equal if the sums are. -/
theorem sum_le_of_forall₂ {α β : Type} {r : α → β → Prop} {f : α → Nat} {g : β → Nat} {xs : List α}
    {ys : List β} (h : List.Forall₂ r xs ys) (hle : ∀ x y, r x y → f x ≤ g y) :
    (xs.map f).sum ≤ (ys.map g).sum ∧ ((xs.map f).sum = (ys.map g).sum →
      List.Forall₂ (fun x y => r x y ∧ f x = g y) xs ys) := by
  induction h with
  | nil => exact ⟨Nat.le_refl _, fun _ => .nil⟩
  | @cons x y xs ys hxy _ ih =>
    obtain ⟨hsum, heq⟩ := ih
    have hfirst := hle x y hxy
    simp only [List.map_cons, List.sum_cons]
    exact ⟨Nat.add_le_add hfirst hsum, fun hall => .cons ⟨hxy, by omega⟩ (heq (by omega))⟩

section Factors

variable {inner : Factor.Reader} {ts : List Token}

theorem parens_argument {as rest : List Token} (h : Factor.ArgumentTokens as rest) :
    parens (rest.map (·.kind)) ≤ parens (as.map (·.kind)) + 1 := by
  cases h with
  | plain _ => exact Nat.le_succ _
  | paren ho hc => simp [ho, hc, parens_cons_of_ne]

theorem parens_exponent {as rest : List Token} (h : Factor.ExponentTokens as rest) :
    parens (rest.map (·.kind)) = parens (as.map (·.kind)) := by
  cases h with
  | single | paren _ _ => rfl
  | brace ho hc => simp [ho, hc, parens_cons_of_ne]

/-- How many opening parentheses are written for the factor itself. -/
def Factor.ownParens : Factor → Nat
  | .power base _ => if base.isFactor then 0 else 1
  | .bracket _ | .unary _ _ | .logarithm _ _ | .call _ _ _ => 1
  | _ => 0

/-- The opening parentheses of a factor are its own and those of the expressions inside it. -/
theorem Factor.parens_bracketed (f : Factor) : parens f.bracketed.kinds =
    (f.children.map fun c => parens c.bracketed.kinds).sum + f.ownParens := by
  have hpair : ∀ a b : Expression, ([a, b].map fun c => parens c.bracketed.kinds).sum =
      parens a.bracketed.kinds + parens b.bracketed.kinds := by
    intro a b
    simp
  cases f with
  | number x => exact parens_cons_of_ne (by simp)
  | constant c => cases c <;> exact parens_cons_of_ne (by simp [NamedConstant.kind])
  | «variable» name bound => exact parens_cons_of_ne (by simp)
  | fraction a b =>
    show parens (.frac :: braceKinds a.bracketed.kinds ++ braceKinds b.bracketed.kinds) = _
    rw [children, hpair, List.cons_append, parens_cons_of_ne (by simp), parens_append,
      parens_braceKinds, parens_braceKinds]
    rfl
  | power a b =>
    show parens (a.bracketed.asBase.kinds ++ .caret :: braceKinds b.bracketed.kinds) = _
    rw [children, hpair, parens_append, parens_cons_of_ne (by simp), parens_braceKinds,
      Expression.parens_asBase, Expression.isFactor_bracketed, ownParens, Nat.add_right_comm]
  | bracket a => exact parens_parenKinds
  | unary f a =>
    show parens (.function f :: parenKinds a.bracketed.kinds) = _
    rw [parens_cons_of_ne (by simp), parens_parenKinds]
    rfl
  | logarithm a b =>
    show parens (.logBase :: braceKinds a.bracketed.kinds ++ parenKinds b.bracketed.kinds) = _
    rw [children, hpair, List.cons_append, parens_cons_of_ne (by simp), parens_append,
      parens_braceKinds, parens_parenKinds, ownParens, Nat.add_assoc]
  | call name es link =>
    show parens (.letter name :: parenKinds (kindsOfArguments true
      (mapExpressions withBracketedBase es))) = _
    rw [parens_cons_of_ne (by simp), parens_parenKinds, parens_kindsOfArguments,
      mapExpressions_eq_map, List.map_map]
    rfl

/-- What stands behind the first tokens is only some of the tokens. -/
theorem isInfix_and_length_lt {us front rest : List Token} (hus : us <:+: rest)
    (hts : ts = front ++ rest) (hfront : front ≠ []) : us <:+: ts ∧ us.length < ts.length := by
  subst hts
  have hlength := hus.length_le
  have hpos := List.length_pos_iff.2 hfront
  refine ⟨hus.trans (List.suffix_append front rest).isInfix, ?_⟩
  rw [List.length_append]
  omega

/-- The expressions inside a factor are read from some of its tokens, but not from all of them.  The
other tokens have no more opening parentheses than are written for the factor itself. -/
theorem Factor.Parsed.exists_parts {f : Factor} (h : Parsed inner ts f) : ∃ parts,
    List.Forall₂ (fun us c => (us <:+: ts ∧ us.length < ts.length) ∧ inner us = some c) parts f.children ∧
      parens (ts.map (·.kind)) ≤ (parts.map fun us => parens (us.map (·.kind))).sum + f.ownParens := by
  have hsmaller : ∀ {us front rest : List Token}, ts = front ++ (us ++ rest) → front ≠ [] →
      us <:+: ts ∧ us.length < ts.length := fun {us _ rest} hts hfront =>
    isInfix_and_length_lt (List.prefix_append us rest).isInfix hts hfront
  cases h with
  | @number t x ht => exact ⟨[], .nil, by simp [ht, parens_cons_of_ne]⟩
  | @«variable» t name ht _ => exact ⟨[], .nil, by simp [ht, parens_cons_of_ne]⟩
  | @pi t ht => exact ⟨[], .nil, by simp [ht, parens_cons_of_ne]⟩
  | @e t ht => exact ⟨[], .nil, by simp [ht, parens_cons_of_ne]⟩
  | @fraction s o c o' c' as bs a b hs ho hc ho' hc' ha hb =>
    have has := @hsmaller as [s, o] (c :: o' :: bs ++ [c']) (by simp) (by simp)
    have hbs := @hsmaller bs (s :: o :: as ++ [c, o']) [c'] (by simp) (by simp)
    refine ⟨[as, bs], .cons ⟨has, ha⟩ (.cons ⟨hbs, hb⟩ .nil), ?_⟩
    simp [hs, ho, hc, ho', hc', parens_cons_of_ne]
  | @power t bases rest exponents base exponent hcaret ht hrest hbase hexponent =>
    have hbases : bases <:+: bases ++ t :: rest ∧ bases.length < (bases ++ t :: rest).length :=
      ⟨(List.prefix_append _ _).isInfix, by simp⟩
    have hexponents := @isInfix_and_length_lt _ _ (bases ++ [t]) _ hrest.isInfix
      (List.append_cons bases t rest) (by simp)
    refine ⟨[bases, exponents], .cons ⟨hbases, hbase⟩ (.cons ⟨hexponents, hexponent⟩ .nil), ?_⟩
    simp [ht, parens_cons_of_ne, parens_exponent hrest]
  | @call t o c name within arguments ht hname ho hc harguments =>
    refine ⟨splitTopLevel .comma 0 within, (List.forall₂_and_left _ _).2 ⟨fun part hpart => ?_,
      mapM_eq_some.1 harguments⟩, ?_⟩
    · have hwithin := infix_of_splitTopLevel.2 part hpart
      exact @isInfix_and_length_lt _ _ [t, o] _
        (hwithin.trans (List.prefix_append within [c]).isInfix) rfl (by simp)
    · rw [← parens_splitTopLevel (by simp)]
      simp [ht, ho, hc, parens_cons_of_ne, ownParens]
  | @bracket o c as a ho ha =>
    refine ⟨[as], .cons ⟨@hsmaller as [o] [c] rfl (by simp), ha⟩ .nil, ?_⟩
    have hclose : parens [c.kind] = 0 := by
      refine parens_cons_of_ne fun hc => ?_
      have hclose := (isClose_of_closer ho).2
      rw [hc] at hclose
      exact Bool.false_ne_true hclose
    have hopen : parens [o.kind] ≤ 1 := List.count_le_length
    have htokens : (o :: as ++ [c]).map (·.kind) = [o.kind] ++ as.map (·.kind) ++ [c.kind] := by
      simp
    rw [htokens, parens_append, parens_append, hclose, ownParens, List.map_singleton,
      List.sum_singleton]
    omega
  | @unary t f rest as a ht hrest ha =>
    have has := @isInfix_and_length_lt _ _ [t] _ hrest.isInfix rfl (by simp)
    have hargument := parens_argument hrest
    refine ⟨[as], .cons ⟨has, ha⟩ .nil, ?_⟩
    simp [ht, parens_cons_of_ne, ownParens]
    omega
  | @logarithm t o c bases rest as base a ht ho hc hrest hbase ha =>
    have hbases := @hsmaller bases [t, o] (c :: rest) (by simp) (by simp)
    have has := @isInfix_and_length_lt _ _ (t :: o :: bases ++ [c]) _ hrest.isInfix
      (List.append_cons _ c rest) (by simp)
    have hargument := parens_argument hrest
    refine ⟨[bases, as], .cons ⟨hbases, hbase⟩ (.cons ⟨has, ha⟩ .nil), ?_⟩
    simp [ht, ho, hc, parens_cons_of_ne, ownParens]
    omega
  | @logarithmOfToken t u rest as base a ht hrest hbase ha =>
    have hbases := @hsmaller [u] [t] rest (by simp) (by simp)
    have has := @isInfix_and_length_lt _ _ [t, u] _ hrest.isInfix rfl (by simp)
    have hargument := parens_argument hrest
    have hone : parens (u.kind :: rest.map (·.kind)) = parens [u.kind] + parens (rest.map (·.kind)) := by
      rw [← List.singleton_append, parens_append]
    refine ⟨[[u], as], .cons ⟨hbases, hbase⟩ (.cons ⟨has, ha⟩ .nil), ?_⟩
    simp [ht, parens_cons_of_ne, hone, ownParens]
    omega

theorem Factor.Parsed.exists_inside {f : Factor} (h : Parsed inner ts f) :
    ∀ c ∈ f.children, ∃ us, us <:+: ts ∧ us.length < ts.length ∧ inner us = some c := by
  intro c hc
  obtain ⟨parts, hparts, -⟩ := h.exists_parts
  obtain ⟨us, -, ⟨hus, hlength⟩, hread⟩ := exists_of_forall₂ hparts.flip hc
  exact ⟨us, hus, hlength, hread⟩

/-- A factor has the parentheses of its tokens if the expressions inside it have those of theirs. -/
theorem Factor.Parsed.parens_le {f : Factor} (h : Parsed inner ts f)
    (hinner : ∀ us c, inner us = some c → c.Covers us) :
    parens (ts.map (·.kind)) ≤ parens f.bracketed.kinds := by
  obtain ⟨parts, hparts, hle⟩ := h.exists_parts
  have hsum := (sum_le_of_forall₂ hparts fun us c huc => hinner us c huc.2).1
  rw [Factor.parens_bracketed]
  omega

theorem Factor.parens_reciprocal (f : Factor) :
    parens f.reciprocal.bracketed.kinds = parens f.bracketed.kinds := by
  have hone : parens (Expression.ofNumber 1).bracketed.kinds = 0 := rfl
  have hfactor : parens (Expression.ofFactor f).bracketed.kinds = parens f.bracketed.kinds := by
    rw [Expression.bracketed_ofFactor, Expression.kinds_ofFactor]
  rw [Factor.reciprocal, Factor.parens_bracketed]
  simp [Factor.children, Factor.ownParens, hone, hfactor]

/-- Factors in a row have the parentheses of their tokens. -/
theorem Item.Factored.parens_le {started : Bool} {fs : List Factor} (h : Factored inner started ts fs)
    (hinner : ∀ us c, inner us = some c → c.Covers us) :
    parens (ts.map (·.kind)) ≤ parensOfFactors fs := by
  induction h with
  | nil => exact Nat.le_refl _
  | @mul t u us fs ht hu _ ih =>
    rw [List.map_cons, ht, parens_cons_of_ne (by simp)]
    exact ih
  | @div t first rest f fs ht hf _ ih =>
    have hfirst := (Factor.parsed_of_readWith hf.reads).parens_le hinner
    rw [List.map_cons, ht, parens_cons_of_ne (by simp), List.map_append, parens_append,
      parensOfFactors_cons, Factor.parens_reciprocal]
    exact Nat.add_le_add hfirst ih
  | @factor _ t first rest f fs hmul hdiv hf _ ih =>
    have hfirst := (Factor.parsed_of_readWith hf.reads).parens_le hinner
    rw [← List.cons_append, List.map_append, parens_append, parensOfFactors_cons]
    exact Nat.add_le_add hfirst ih

theorem Item.Parsed.parens_le {i : Item} (h : Parsed inner ts i)
    (hinner : ∀ us c, inner us = some c → c.Covers us) :
    parens (ts.map (·.kind)) ≤ parensOfFactors i.factors := by
  cases h with
  | plus ht _ h | minus ht _ h =>
    rw [List.map_cons, ht, parens_cons_of_ne (by simp)]
    exact h.parens_le hinner
  | unsigned _ _ h => exact h.parens_le hinner

end Factors

theorem parens_flatten (parts : List (List Token)) : parens (parts.flatten.map (·.kind)) =
    (parts.map fun part => parens (part.map (·.kind))).sum := by
  induction parts with
  | nil => rfl
  | cons part parts ih =>
    rw [List.flatten_cons, List.map_append, parens_append, ih, List.map_cons, List.sum_cons]

namespace Expression

/-- No parentheses are lost between reading and writing. -/
theorem covers_of_read {ts : List Token} {e : Expression} (h : read ts = some e) : e.Covers ts := by
  refine read_induction (P := fun ts e => e.Covers ts) (fun inner hinner ts e he => ?_) h
  obtain ⟨items⟩ := e
  have hsum := (sum_le_of_forall₂ (readWith_eq_some.1 he).2 fun part i hi => hi.parens_le hinner).1
  rw [← parens_flatten, flatten_splitItems] at hsum
  rw [Covers, parens_bracketed]
  exact hsum

/-- If there are no more parentheses than among the tokens, then the same is true of each item. -/
theorem exists_snug {ts : List Token} {e : Expression} (h : read ts = some e) (hsnug : e.Snug ts) :
    ∀ i ∈ e.items, ∃ us, us <:+: ts ∧ Inline us ∧ Item.Factored read false us i.factors ∧
      parens (us.map (·.kind)) = parensOfFactors i.factors := by
  intro i hi
  have hcomplete := complete_of_read h
  obtain ⟨items⟩ := e
  rw [read_eq, readWith_eq_some] at h
  obtain ⟨-, hall⟩ := sum_le_of_forall₂ h.2 fun part i hi => hi.parens_le fun us c => covers_of_read
  rw [← parens_flatten, flatten_splitItems] at hall
  rw [Snug, parens_bracketed] at hsnug
  obtain ⟨part, hpart, hparsed, hparens⟩ := exists_of_forall₂ (hall hsnug).flip hi
  obtain ⟨signs, us, rfl, hsigns, hinline, -, hfactored⟩ :=
    hparsed.exists_factored (inline_of_mem_splitItems hcomplete hpart)
  have hwithin := List.infix_of_mem_flatten hpart
  rw [flatten_splitItems] at hwithin
  refine ⟨us, (List.suffix_append signs us).isInfix.trans hwithin, hinline, hfactored, ?_⟩
  have hnone : parens (signs.map (·.kind)) = 0 := by
    refine List.count_eq_zero.2 fun hmem => ?_
    obtain ⟨t, ht, hopen⟩ := List.mem_map.1 hmem
    have hsign := hsigns t ht
    rw [hopen] at hsign
    exact Bool.false_ne_true hsign
  rw [← hparens, List.map_append, parens_append, hnone, Nat.zero_add]

end Expression

/-- If a factor has no more parentheses than its tokens, then the same is true of the expressions
inside it. -/
theorem Factor.Parsed.exists_snug {ts : List Token} {f : Factor} (h : Parsed Expression.read ts f)
    (hsnug : parens (ts.map (·.kind)) = parens f.bracketed.kinds) : ∀ c ∈ f.children, ∃ us,
      us <:+: ts ∧ us.length < ts.length ∧ Expression.read us = some c ∧ c.Snug us := by
  intro c hc
  obtain ⟨parts, hparts, hle⟩ := h.exists_parts
  obtain ⟨hsum, hall⟩ := sum_le_of_forall₂ hparts fun us c huc => Expression.covers_of_read huc.2
  rw [Factor.parens_bracketed] at hsnug
  obtain ⟨us, -, ⟨⟨hus, hlength⟩, hread⟩, hparens⟩ := exists_of_forall₂ (hall (by omega)).flip hc
  exact ⟨us, hus, hlength, hread, hparens⟩

end ImplicitCurves

import ImplicitCurves.Proofs.Notation.Endings
import ImplicitCurves.Proofs.Notation.Longest
import ImplicitCurves.Proofs.Notation.Writing

/-!
# Reading what is written

The tokens of a legible tree are read as the tree: main statements `Expression.read_kinds` and
`Expression.read_text`.
-/

namespace ImplicitCurves

/-- The tokens of the expression are read as the expression. -/
def Expression.ReadsBack (e : Expression) : Prop :=
  ∀ tokens : List Token, tokens.map (·.kind) = e.kinds → Expression.read tokens = some e

/-- The tokens of the factor are those of a factor whose parts are read as they should be. -/
def Factor.IsWritten (f : Factor) : Prop :=
  ∀ tokens : List Token, tokens.map (·.kind) = f.kinds → f.Written tokens

namespace Expression

theorem ReadsBack.complete {e : Expression} (h : e.ReadsBack) : Complete e.kinds := by
  have htokens : (e.kinds.map fun k => (⟨k, ⟨0, 0⟩⟩ : Token)).map (·.kind) = e.kinds := by
    rw [List.map_map]
    exact List.map_id _
  have hcomplete := complete_of_read (h _ htokens)
  rw [Token.AllComplete, htokens] at hcomplete
  exact hcomplete

end Expression

/-- The tokens of a group and of what is behind it. -/
theorem exists_of_group {tokens : List Token} {o c : TokenKind} {ks rest : List TokenKind}
    (h : tokens.map (·.kind) = o :: ks ++ [c] ++ rest) : ∃ t within u tail,
      tokens = t :: within ++ u :: tail ∧ t.kind = o ∧ u.kind = c ∧ within.map (·.kind) = ks ∧
        tail.map (·.kind) = rest := by
  rw [List.append_assoc, List.cons_append] at h
  obtain ⟨t, inside, rfl, ht, hinside⟩ := List.map_eq_cons_iff.1 h
  obtain ⟨within, closed, rfl, hwithin, hclosed⟩ := List.map_eq_append_iff.1 hinside
  obtain ⟨u, tail, rfl, hu, htail⟩ := List.map_eq_cons_iff.1 hclosed
  exact ⟨t, within, u, tail, rfl, ht, hu, hwithin, htail⟩

/-- The tokens of a group at the end. -/
theorem exists_of_lastGroup {tokens : List Token} {o c : TokenKind} {ks : List TokenKind}
    (h : tokens.map (·.kind) = o :: ks ++ [c]) : ∃ t within u,
      tokens = t :: within ++ [u] ∧ t.kind = o ∧ u.kind = c ∧ within.map (·.kind) = ks := by
  rw [← List.append_nil (o :: ks ++ [c])] at h
  obtain ⟨t, within, u, tail, rfl, ht, hu, hwithin, htail⟩ := exists_of_group h
  obtain rfl := List.map_eq_nil_iff.1 htail
  exact ⟨t, within, u, rfl, ht, hu, hwithin⟩

theorem forall₂_of_mem {α β : Type} {r r' : α → β → Prop} {xs : List α} {ys : List β}
    (h : List.Forall₂ r xs ys) (hr : ∀ x, ∀ y ∈ ys, r x y → r' x y) : List.Forall₂ r' xs ys := by
  induction h with
  | nil => exact .nil
  | cons hxy _ ih =>
    obtain ⟨hy, hys⟩ := List.forall_mem_cons.1 fun y hy x => hr x y hy
    exact .cons (hy _ hxy) (ih fun x y hy => hys y hy x)

/-- Arguments are split at the commas between them. -/
theorem splitTopLevel_kinds {es : List Expression} (hnested : ∀ e ∈ es, e.Nested) (hne : es ≠ [])
    {within : List Token} (h : within.map (·.kind) = kindsOfArguments true es) :
    List.Forall₂ (fun part e => part.map (·.kind) = e.kinds) (splitTopLevel .comma 0 within) es := by
  induction es generalizing within with
  | nil => exact absurd rfl hne
  | cons e es ih =>
    obtain ⟨hlevel, hlevels⟩ := List.forall_mem_cons.1 hnested
    rw [kindsOfArguments, if_pos rfl, List.nil_append] at h
    obtain ⟨first, rest, rfl, hfirst, hrest⟩ := List.map_eq_append_iff.1 h
    have hpass : depthBehind TokenKind.inExpression 0 (first.map (·.kind)) = some 0 := by
      rw [hfirst]
      exact hlevel.level
    have hsplit := @splitTopLevel_append _ 0 0 first rest .comma rfl rfl hpass
    cases es with
    | nil =>
      obtain rfl := List.map_eq_nil_iff.1 hrest
      have hparts : splitTopLevel .comma 0 (first ++ []) = [first] := by
        refine hsplit.trans ?_
        rw [splitTopLevel, prepend_cons, List.append_nil]
      rw [hparts]
      exact .cons hfirst .nil
    | cons e' es =>
      rw [kindsOfArguments, if_neg Bool.false_ne_true, List.append_assoc] at hrest
      obtain ⟨t, rest, rfl, ht, hrest⟩ := List.map_eq_cons_iff.1 hrest
      have hrest' : rest.map (·.kind) = kindsOfArguments true (e' :: es) := by
        rw [kindsOfArguments, if_pos rfl]
        exact hrest
      have hothers := ih hlevels (List.cons_ne_nil _ _) hrest'
      have hparts : splitTopLevel .comma 0 (first ++ t :: rest) =
          first :: splitTopLevel .comma 0 rest := by
        refine hsplit.trans ?_
        have hcomma : ((0 : Nat) : Int) = 0 ∧ t.kind = .comma ∧ !t.kind.isOpen ∧ !t.kind.isClose := by
          rw [ht]
          decide
        rw [splitTopLevel, if_pos hcomma, prepend_cons, List.append_nil]
        rfl
      rw [hparts]
      exact .cons hfirst hothers

/-- Arguments are read one by one. -/
theorem read_arguments {es : List Expression} (hread : ∀ e ∈ es, e.ReadsBack)
    (hnested : ∀ e ∈ es, e.Nested) (hne : es ≠ []) {within : List Token}
    (h : within.map (·.kind) = kindsOfArguments true es) :
    (splitTopLevel .comma 0 within).mapM Expression.read = some es :=
  mapM_eq_some.2 (forall₂_of_mem (splitTopLevel_kinds hnested hne h) fun part e he => hread e he part)

/-- The tokens of a factor are those of a factor that is read as it should be, if what is inside it
is.  The base of a power is a factor of its own. -/
theorem Factor.isWritten {f : Factor} (hf : f.WellFormed) (hnested : ∀ e ∈ f.children, e.Nested)
    (hread : ∀ e ∈ f.children, e.ReadsBack)
    (hwritten : ∀ e ∈ f.children, ∀ i ∈ e.items, ∀ g ∈ i.factors, g.IsWritten) : f.IsWritten := by
  intro tokens h
  cases f with
  | number x =>
    obtain ⟨t, rfl, ht⟩ := List.map_eq_singleton_iff.1 h
    exact .number ht
  | constant c =>
    obtain ⟨t, rfl, ht⟩ := List.map_eq_singleton_iff.1 h
    exact .constant ht
  | «variable» name bound =>
    obtain ⟨⟨-, hname⟩, rfl⟩ := hf
    obtain ⟨t, rfl, ht⟩ := List.map_eq_singleton_iff.1 h
    exact .variable ht hname
  | fraction a b =>
    obtain ⟨s, groups, rfl, hs, hgroups⟩ := List.map_eq_cons_iff.1 h
    obtain ⟨o, as, c, second, rfl, ho, hc, has, hsecond⟩ := exists_of_group hgroups
    obtain ⟨o', bs, c', rfl, ho', hc', hbs⟩ := exists_of_lastGroup hsecond
    have ha := hread a List.mem_cons_self as has
    have hb := hread b (List.mem_cons_of_mem _ List.mem_cons_self) bs hbs
    have hfraction : Written (s :: o :: as ++ c :: o' :: bs ++ [c']) (.fraction a b) :=
      .fraction hs ho hc ho' hc' ha hb
    simpa using hfraction
  | power base exponent =>
    obtain ⟨g, rfl, hg⟩ := hf
    rw [kinds, Expression.kinds_ofFactor] at h
    obtain ⟨bases, rest, rfl, hbases, hrest⟩ := List.map_eq_append_iff.1 h
    obtain ⟨t, group, rfl, ht, hgroup⟩ := List.map_eq_cons_iff.1 hrest
    obtain ⟨o, exponents, c, rfl, ho, hc, hexponents⟩ := exists_of_lastGroup hgroup
    have hbase := hwritten _ List.mem_cons_self _ (List.mem_singleton.2 rfl) g
      (List.mem_singleton.2 rfl)
    have hlevel := (hnested _ List.mem_cons_self).factors _ (List.mem_singleton.2 rfl) g
      (List.mem_singleton.2 rfl)
    have hbaseRead := hread _ List.mem_cons_self bases (by rw [hbases, Expression.kinds_ofFactor])
    have hexponent := hread exponent (List.mem_cons_of_mem _ List.mem_cons_self) exponents hexponents
    have hpower : Written (bases ++ t :: o :: exponents ++ [c]) (.power (.ofFactor g) exponent) :=
      .power (hbase bases hbases) hg (by rw [hbases]; exact hlevel.caretless hg) ht ho hc hbaseRead
        hexponent
    simpa using hpower
  | bracket a =>
    obtain ⟨o, as, c, rfl, ho, hc, has⟩ := exists_of_lastGroup h
    exact .bracket ho hc (hread a List.mem_cons_self as has)
  | unary f a =>
    obtain ⟨t, group, rfl, ht, hgroup⟩ := List.map_eq_cons_iff.1 h
    obtain ⟨o, as, c, rfl, ho, hc, has⟩ := exists_of_lastGroup hgroup
    exact .unary ht ho hc (hread a List.mem_cons_self as has)
  | logarithm base a =>
    obtain ⟨t, groups, rfl, ht, hgroups⟩ := List.map_eq_cons_iff.1 h
    obtain ⟨o, bases, c, second, rfl, ho, hc, hbases, hsecond⟩ := exists_of_group hgroups
    obtain ⟨o', as, c', rfl, ho', hc', has⟩ := exists_of_lastGroup hsecond
    have hbase := hread base List.mem_cons_self bases hbases
    have ha := hread a (List.mem_cons_of_mem _ List.mem_cons_self) as has
    have hlogarithm : Written (t :: o :: bases ++ c :: o' :: as ++ [c']) (.logarithm base a) :=
      .logarithm ht ho hc ho' hc' hbase ha
    simpa using hlogarithm
  | call name arguments link =>
    obtain ⟨⟨-, hname⟩, rfl, hne⟩ := hf
    obtain ⟨t, group, rfl, ht, hgroup⟩ := List.map_eq_cons_iff.1 h
    obtain ⟨o, within, c, rfl, ho, hc, hwithin⟩ := exists_of_lastGroup hgroup
    exact .call ht hname ho hc (read_arguments hread hnested hne hwithin)

/-- What is known of a factor of a legible tree. -/
structure Factor.Legible (f : Factor) : Prop where
  isWritten : f.IsWritten
  nested : f.Nested
  children : ∀ e ∈ f.children, Complete e.kinds

theorem Factor.not_variable_of_isOpen {f : Factor} (h : f.isOpen = true) (name : Char)
    (bound : Option Float) : f ≠ .variable name bound := by
  rintro rfl
  exact Bool.false_ne_true h

/-- The factors behind a factor in an item can stand there. -/
theorem Factor.follows {f : Factor} {gs : List Factor} {rest : List Token}
    (hf : ∀ g ∈ gs, f.mayPrecede g = true) (hgs : ∀ g ∈ gs, g.Legible)
    (h : rest.map (·.kind) = kindsOfFactors (some f) gs) : Follows f rest := by
  have hmay : ∀ g ∈ gs, (g.isPower = true → f.isPower = true) ∧
      (f.isOpen = true → g.isClosed = true) := by
    intro g hg
    have hboth := hf g hg
    simp only [mayPrecede, Bool.and_eq_true, Bool.or_eq_true, Bool.not_eq_true'] at hboth
    constructor
    · intro hpower
      exact hboth.1.resolve_left (by rw [hpower]; exact Bool.noConfusion)
    · intro hopen
      exact hboth.2.resolve_left (by rw [hopen]; exact Bool.noConfusion)
  constructor
  · intro hpower
    rw [h]
    refine level_factors rfl (fun g hg => (hgs g hg).nested.caretless ?_) _
    rw [← Bool.not_eq_true]
    intro hg'
    exact Bool.false_ne_true (hpower.symm.trans ((hmay g hg).1 hg'))
  · rintro name bound rfl hparen
    rw [← List.head?_map, h] at hparen
    cases gs with
    | nil => exact absurd hparen.symm (Option.some_ne_none _)
    | cons g gs =>
      have hpower : g.isPower = false := by
        rw [← Bool.not_eq_true]
        exact fun hg => Bool.false_ne_true ((hmay g List.mem_cons_self).1 hg)
      cases g with
      | power base exponent => exact absurd hpower.symm Bool.false_ne_true
      | constant c =>
        cases c <;> exact absurd (Option.some.inj hparen) (by simp [NamedConstant.kind])
      | _ => exact absurd (Option.some.inj hparen) (by simp)
  · intro hopen more hmore hne hbehind
    have hclosed : ∀ g ∈ gs, g.isClosed = true := fun g hg => (hmay g hg).2 hopen
    rw [kindsOfFactors_of_closed (not_variable_of_isOpen hopen) hclosed] at h
    rw [← List.getLast?_map]
    refine last_of_closed (fun g hg => closesItself (hclosed g hg) (hgs g hg).children) ?_ ?_ hbehind
    · rw [← h]
      exact hmore.map _
    · exact fun hnil => hne (List.map_eq_nil_iff.1 hnil)

/-- A factor starts neither with an operation nor with a sign. -/
theorem Factor.Written.exists_first {tokens : List Token} {f : Factor} (h : Written tokens f) :
    ∃ t rest, tokens = t :: rest ∧ t.kind ≠ .mul ∧ t.kind ≠ .div ∧ t.kind.isSign = false := by
  induction h with
  | @constant t c ht =>
    refine ⟨t, [], rfl, ?_⟩
    cases c <;> rw [ht] <;> simp [NamedConstant.kind, TokenKind.isSign]
  | @power t o c bases exponents base exponent hbase hpower hlevel ht ho hc hread hexponent ih =>
    obtain ⟨t', rest, rfl, hkind⟩ := ih
    exact ⟨t', _, rfl, hkind⟩
  | number ht | «variable» ht | fraction ht | bracket ht | unary ht | logarithm ht | call ht =>
    refine ⟨_, _, rfl, ?_⟩
    rw [ht]
    simp [TokenKind.isSign]

/-- The factors of an item are read one after another. -/
theorem factored_of_kinds {fs : List Factor} (hfs : ∀ f ∈ fs, f.Legible)
    (hordered : fs.Pairwise fun f g => f.mayPrecede g = true) {tokens : List Token}
    {previous : Option Factor} (h : tokens.map (·.kind) = kindsOfFactors previous fs) :
    Item.Factored Expression.read previous.isSome tokens fs := by
  induction fs generalizing tokens previous with
  | nil =>
    obtain rfl := List.map_eq_nil_iff.1 h
    exact .nil
  | cons f fs ih =>
    obtain ⟨hf, hrest⟩ := List.forall_mem_cons.1 hfs
    obtain ⟨hfirst, hordered⟩ := List.pairwise_cons.1 hordered
    rw [kindsOfFactors, List.append_assoc] at h
    obtain ⟨separator, others, rfl, hseparator, hothers⟩ := List.map_eq_append_iff.1 h
    obtain ⟨first, rest, rfl, hkinds, hrestKinds⟩ := List.map_eq_append_iff.1 hothers
    have hwritten := hf.isWritten first hkinds
    have hlongest := Factor.isLongest_of_written hwritten
      (fun hpower => by rw [hkinds]; exact hf.nested.caretless hpower)
      (Factor.follows hfirst hrest hrestKinds)
    have htail := ih hrest hordered hrestKinds
    obtain ⟨t, first, rfl, hmul, hdiv, -⟩ := hwritten.exists_first
    have hfactor : ∀ started, Item.Factored Expression.read started (t :: (first ++ rest)) (f :: fs) :=
      fun started => .factor hmul hdiv hlongest htail
    unfold separatorKinds at hseparator
    split at hseparator
    · next hneeds =>
      obtain ⟨u, rfl, hu⟩ := List.map_eq_singleton_iff.1 hseparator
      have hsome : previous.isSome = true := by
        cases previous with
        | none => exact absurd hneeds Bool.false_ne_true
        | some p => rfl
      rw [hsome]
      refine .mul hu ?_ (hfactor true)
      simp [Item.canFollowMul, hmul, hdiv]
    · obtain rfl := List.map_eq_nil_iff.1 hseparator
      exact hfactor _

theorem Factor.kinds_ne_nil (f : Factor) : f.kinds ≠ [] := by
  cases f <;> simp [kinds, parenKinds]

/-- What is known of an item of a legible tree. -/
structure Item.Legible (i : Item) : Prop where
  ne_nil : i.factors ≠ []
  ordered : i.Ordered
  factors : ∀ f ∈ i.factors, f.Legible

namespace Item

variable {i : Item} {front rest : List Token}

theorem level (h : ∀ f ∈ i.factors, f.Nested) : Level TokenKind.inItem i.factorKinds := by
  obtain ⟨positive, fs⟩ := i
  exact level_factors rfl (fun f hf => (h f hf).level) none

theorem factorKinds_ne_nil (hne : i.factors ≠ []) : i.factorKinds ≠ [] := by
  obtain ⟨positive, fs⟩ := i
  obtain ⟨f, fs, rfl⟩ := List.exists_cons_of_ne_nil hne
  simp [factorKinds, kindsOfFactors, f.kinds_ne_nil]

theorem Legible.factored (hi : i.Legible) (h : front.map (·.kind) = i.factorKinds) :
    Factored Expression.read false front i.factors := by
  obtain ⟨positive, fs⟩ := i
  exact factored_of_kinds hi.factors hi.ordered h

/-- The tokens are those of the item with its sign, or without if it is positive. -/
def IsWrittenAs (part : List Token) (i : Item) : Prop :=
  part.map (·.kind) = signKinds false i.positive ++ i.factorKinds ∨
    i.positive = true ∧ part.map (·.kind) = i.factorKinds

/-- An item is read, with its sign or without. -/
theorem Legible.parsed {part : List Token} (hi : i.Legible) (h : IsWrittenAs part i) :
    Parsed Expression.read part i := by
  have hne := hi.ne_nil
  rcases h with h | ⟨hpositive, h⟩
  · obtain ⟨sign, front, rfl, hsign, hfront⟩ := List.map_eq_append_iff.1 h
    have hfactored := hi.factored hfront
    obtain ⟨positive, fs⟩ := i
    cases positive with
    | true =>
      obtain ⟨s, rfl, hs⟩ := List.map_eq_singleton_iff.1 hsign
      exact .plus hs hne hfactored
    | false =>
      obtain ⟨s, rfl, hs⟩ := List.map_eq_singleton_iff.1 hsign
      exact .minus hs hne hfactored
  · have hfactored := hi.factored h
    have hlegible := hi.factors
    obtain ⟨positive, fs⟩ := i
    obtain rfl : positive = true := hpositive
    obtain ⟨f, fs, rfl⟩ := List.exists_cons_of_ne_nil hne
    have hkinds : part.map (·.kind) = f.kinds ++ kindsOfFactors (some f) fs := h
    obtain ⟨first, others, rfl, hfirst, -⟩ := List.map_eq_append_iff.1 hkinds
    obtain ⟨t, tail, rfl, -, -, hsign⟩ :=
      ((hlegible f List.mem_cons_self).isWritten first hfirst).exists_first
    exact .unsigned hsign hne hfactored

end Item

namespace Expression

/-- The tokens are split in front of each item but the first. -/
theorem splitSigns_kinds {is : List Item} (his : ∀ i ∈ is, Level TokenKind.inItem i.factorKinds)
    {tokens : List Token} (h : tokens.map (·.kind) = kindsOfItems false is) : ∃ parts,
      splitSigns 0 tokens = [] :: parts ∧ List.Forall₂ Item.IsWrittenAs parts is := by
  induction is generalizing tokens with
  | nil =>
    obtain rfl := List.map_eq_nil_iff.1 h
    exact ⟨[], rfl, .nil⟩
  | cons i is ih =>
    obtain ⟨hi, hrest⟩ := List.forall_mem_cons.1 his
    rw [kindsOfItems, List.append_assoc] at h
    obtain ⟨sign, others, rfl, hsign, hothers⟩ := List.map_eq_append_iff.1 h
    obtain ⟨front, rest, rfl, hfront, hrestKinds⟩ := List.map_eq_append_iff.1 hothers
    obtain ⟨s, rfl⟩ : ∃ s, sign = [s] := by
      cases hpositive : i.positive <;> rw [hpositive] at hsign <;>
        exact (List.map_eq_singleton_iff.1 hsign).imp fun s hs => hs.1
    have hkind : s.kind.isSign = true ∧ s.depthAfter 0 = 0 := by
      cases hpositive : i.positive <;> rw [hpositive] at hsign <;>
        simp [signKinds] at hsign <;> simp [Token.depthAfter, hsign, TokenKind.isSign,
          TokenKind.isOpen, TokenKind.isClose]
    obtain ⟨parts, hparts, hitems⟩ := ih hrest hrestKinds
    have hpass : splitSigns 0 (front ++ rest) = front :: parts := by
      rw [← hfront] at hi
      have hsplit := @splitSigns_append _ 0 0 front rest TokenKind.not_inItem_of_isSign hi
      refine hsplit.trans ?_
      rw [Int.natCast_zero, hparts, prepend_cons, List.append_nil]
    have hpart : Item.IsWrittenAs (s :: front) i := by
      refine .inl ?_
      rw [← hsign, ← hfront]
      rfl
    refine ⟨(s :: front) :: parts, ?_, .cons hpart hitems⟩
    simp only [List.cons_append, List.nil_append, splitSigns, hkind, hpass]
    rfl

/-- The tokens are split into the items. -/
theorem splitItems_kinds {is : List Item} (hne : is ≠ [])
    (his : ∀ i ∈ is, Level TokenKind.inItem i.factorKinds) (hfactors : ∀ i ∈ is, i.factors ≠ [])
    {tokens : List Token} (h : tokens.map (·.kind) = kindsOfItems true is) :
    List.Forall₂ Item.IsWrittenAs (splitItems tokens) is := by
  obtain ⟨i, is, rfl⟩ := List.exists_cons_of_ne_nil hne
  obtain ⟨hi, hrest⟩ := List.forall_mem_cons.1 his
  rw [kindsOfItems, List.append_assoc] at h
  obtain ⟨sign, others, rfl, hsign, hothers⟩ := List.map_eq_append_iff.1 h
  obtain ⟨front, rest, rfl, hfront, hrestKinds⟩ := List.map_eq_append_iff.1 hothers
  obtain ⟨parts, hparts, hitems⟩ := splitSigns_kinds hrest hrestKinds
  rw [← hfront] at hi
  have hpass : ∀ {depth : Nat} {tail : List Token},
      depthBehind TokenKind.inItem depth (tail.map (·.kind)) = some 0 →
      splitSigns depth (tail ++ rest) = tail :: parts := by
    intro depth tail htail
    rw [splitSigns_append TokenKind.not_inItem_of_isSign htail, Int.natCast_zero, hparts, prepend_cons,
      List.append_nil]
  cases hpositive : i.positive with
  | true =>
    rw [hpositive] at hsign
    obtain rfl := List.map_eq_nil_iff.1 hsign
    have hnonempty := i.factorKinds_ne_nil (hfactors i List.mem_cons_self)
    rw [← hfront, ne_eq, List.map_eq_nil_iff] at hnonempty
    obtain ⟨t, tail, rfl⟩ := List.exists_cons_of_ne_nil hnonempty
    obtain ⟨depth, hstep, htail⟩ := depthBehind_cons (k := t.kind) hi
    have hsplit : splitItems (t :: (tail ++ rest)) = (t :: tail) :: parts := by
      have hdepth := depthAfter_of_depthStep hstep
      rw [Int.natCast_zero] at hdepth
      rw [splitItems, hdepth, hpass htail]
      rfl
    have hpart : Item.IsWrittenAs (t :: tail) i := .inr ⟨hpositive, hfront⟩
    have hforall := List.Forall₂.cons hpart hitems
    rw [← hsplit] at hforall
    exact hforall
  | false =>
    have hpart : Item.IsWrittenAs (sign ++ front) i := by
      refine .inl ?_
      rw [List.map_append, hsign, hfront, hpositive]
      rfl
    rw [hpositive] at hsign
    obtain ⟨s, rfl, hs⟩ := List.map_eq_singleton_iff.1 hsign
    have hsplit : splitItems (s :: (front ++ rest)) = (s :: front) :: parts := by
      have hdepth : s.depthAfter 0 = ((0 : Nat) : Int) := by
        simp [Token.depthAfter, hs, TokenKind.isOpen, TokenKind.isClose]
      rw [splitItems, hdepth, hpass hi]
      rfl
    have hforall := List.Forall₂.cons hpart hitems
    rw [List.singleton_append, ← hsplit] at hforall
    exact hforall

/-- An expression is read from its tokens if its factors are. -/
theorem readsBack_of_items {items : List Item} (hne : items ≠ []) (hitems : ∀ i ∈ items, i.Legible) :
    ReadsBack ⟨items⟩ := by
  intro tokens h
  have hsplit := splitItems_kinds hne
    (fun i hi => Item.level fun f hf => ((hitems i hi).factors f hf).nested)
    (fun i hi => (hitems i hi).ne_nil) h
  have hparts := forall₂_of_mem hsplit fun part i hi => (hitems i hi).parsed
  rw [read_eq, readWith_eq_some]
  refine ⟨?_, hparts⟩
  rintro rfl
  obtain ⟨i, -, hi, -, -⟩ := List.forall₂_cons_left_iff.1 hparts
  cases hi

/-- A legible expression is read from its tokens, and so are all the factors in it. -/
theorem Legible.readsBack_and_isWritten {e : Expression} (h : e.Legible) :
    e.ReadsBack ∧ ∀ i ∈ e.items, ∀ f ∈ i.factors, f.IsWritten := by
  induction h with
  | @intro items here inside ih =>
    obtain ⟨⟨hne, hfactors⟩, hordered⟩ := here
    have hwellFormed : ∀ i ∈ items, ∀ f ∈ i.factors, ∀ e ∈ f.children, e.Everywhere WellFormed :=
      fun i hi f hf e he => (inside i hi f hf e he).imp fun _ h => h.1
    have hitems : ∀ i ∈ items, ∀ f ∈ i.factors, f.Legible := by
      intro i hi f hf
      have hf' := (hfactors i hi).2 f hf
      have hnested : ∀ e ∈ f.children, e.Nested :=
        fun e he => nested (hwellFormed i hi f hf e he)
      have hread : ∀ e ∈ f.children, e.ReadsBack := fun e he => (ih i hi f hf e he).1
      exact ⟨Factor.isWritten hf' hnested hread fun e he => (ih i hi f hf e he).2,
        Factor.nested hf' hnested, fun e he => (hread e he).complete⟩
    refine ⟨readsBack_of_items hne fun i hi => ?_, fun i hi f hf => (hitems i hi f hf).isWritten⟩
    exact ⟨(hfactors i hi).1, hordered i hi, hitems i hi⟩

/-- The tokens of a legible expression are read as the expression. -/
theorem read_kinds {e : Expression} (h : e.Legible) {tokens : List Token}
    (htokens : tokens.map (·.kind) = e.kinds) : read tokens = some e :=
  h.readsBack_and_isWritten.1 tokens htokens

/-- The text of a legible expression is cut into tokens that are read as the expression. -/
theorem read_text {e : Expression} (h : e.Legible) :
    ∃ tokens, tokenize e.text = .ok tokens ∧ tokens.map (·.kind) = e.kinds ∧
      read tokens = some e := by
  obtain ⟨tokens, htokens, hkinds⟩ := exists_tokens_text h.writable
  exact ⟨tokens, htokens, hkinds, read_kinds h hkinds⟩

end Expression

end ImplicitCurves

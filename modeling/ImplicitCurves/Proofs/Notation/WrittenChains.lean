import ImplicitCurves.Proofs.Notation.Calls

/-!
# Chains that are written

The tokens of a tree that was read are read again, perhaps as another tree: main statement
`Expression.exists_read_kinds`.  The tokens of the factors of an item are a chain, whatever order the
factors stand in, as long as there are no calls behind functions.
-/

namespace ImplicitCurves

/-- The tokens of the expression are read as some expression. -/
def Expression.IsAccepted (e : Expression) : Prop :=
  ∀ tokens : List Token, tokens.map (·.kind) = e.kinds → ∃ e', Expression.read tokens = some e'

/-- The factor can be written, and the expressions inside it are accepted. -/
structure Factor.Inner (f : Factor) : Prop where
  wellFormed : f.WellFormed
  nested : ∀ e ∈ f.children, e.Nested
  accepted : ∀ e ∈ f.children, e.IsAccepted

theorem exists_forall₂ {α β : Type} {r : α → β → Prop} {xs : List α} (h : ∀ x ∈ xs, ∃ y, r x y) :
    ∃ ys, List.Forall₂ r xs ys := by
  induction xs with
  | nil => exact ⟨[], .nil⟩
  | cons x xs ih =>
    obtain ⟨⟨y, hy⟩, hxs⟩ := List.forall_mem_cons.1 h
    obtain ⟨ys, hys⟩ := ih hxs
    exact ⟨y :: ys, .cons hy hys⟩

namespace Factor

variable {calls started : Bool} {f : Factor} {tokens rest : List Token}

/-- The tokens of a factor that is neither a function nor a power. -/
theorem Inner.isOperand (hf : f.Inner) (hoperand : f.isOperand = true) (h : tokens.map (·.kind) = f.kinds) :
    IsOperand f.isCall tokens := by
  obtain ⟨hwellFormed, hnested, haccepted⟩ := hf
  cases f with
  | number x =>
    obtain ⟨t, rfl, ht⟩ := List.map_eq_singleton_iff.1 h
    exact (Written.number ht).isOperand rfl rfl
  | constant c =>
    obtain ⟨t, rfl, ht⟩ := List.map_eq_singleton_iff.1 h
    exact (Written.constant ht).isOperand rfl rfl
  | «variable» name bound =>
    obtain ⟨⟨-, hname⟩, rfl⟩ := hwellFormed
    obtain ⟨t, rfl, ht⟩ := List.map_eq_singleton_iff.1 h
    exact (Written.variable ht hname).isOperand rfl rfl
  | fraction a b =>
    obtain ⟨s, groups, rfl, hs, hgroups⟩ := List.map_eq_cons_iff.1 h
    obtain ⟨o, as, c, second, rfl, ho, hc, has, hsecond⟩ := exists_of_group hgroups
    obtain ⟨o', bs, c', rfl, ho', hc', hbs⟩ := exists_of_lastGroup hsecond
    obtain ⟨a', ha⟩ := haccepted a List.mem_cons_self as has
    obtain ⟨b', hb⟩ := haccepted b (List.mem_cons_of_mem _ List.mem_cons_self) bs hbs
    have hfraction : Written (s :: o :: as ++ c :: o' :: bs ++ [c']) (.fraction a' b') :=
      .fraction hs ho hc ho' hc' ha hb
    have hall : IsOperand (Factor.fraction a b).isCall (s :: o :: as ++ c :: o' :: bs ++ [c']) :=
      hfraction.isOperand rfl rfl
    simpa using hall
  | bracket a =>
    obtain ⟨o, as, c, rfl, ho, hc, has⟩ := exists_of_lastGroup h
    obtain ⟨a', ha⟩ := haccepted a List.mem_cons_self as has
    exact (Written.bracket ho hc ha).isOperand rfl rfl
  | call name arguments link =>
    obtain ⟨⟨-, hname⟩, rfl, hne⟩ := hwellFormed
    obtain ⟨t, group, rfl, ht, hgroup⟩ := List.map_eq_cons_iff.1 h
    obtain ⟨o, within, c, rfl, ho, hc, hwithin⟩ := exists_of_lastGroup hgroup
    have hparts := splitTopLevel_kinds hnested hne hwithin
    obtain ⟨arguments', harguments⟩ : ∃ arguments', List.Forall₂
        (fun part e => Expression.read part = some e) (splitTopLevel .comma 0 within) arguments' := by
      refine exists_forall₂ fun part hpart => ?_
      obtain ⟨e, he, hkinds⟩ := exists_of_forall₂ hparts hpart
      exact haccepted e he part hkinds
    exact (Written.call ht hname ho hc (mapM_eq_some.2 harguments)).isOperand rfl rfl
  | power | unary | logarithm => exact absurd hoperand Bool.false_ne_true

/-- The tokens of a function and of its argument in parentheses. -/
theorem Inner.exists_argument (hf : f.Inner) (hfunction : f.isFunction = true)
    (h : tokens.map (·.kind) = f.kinds) : ∃ front group, tokens = front ++ group ∧ IsHead front ∧
      IsOperand false group ∧ group.head?.map (·.kind) = some .openParen := by
  obtain ⟨-, -, haccepted⟩ := hf
  cases f with
  | unary g a =>
    obtain ⟨t, group, rfl, ht, hgroup⟩ := List.map_eq_cons_iff.1 h
    obtain ⟨o, as, c, rfl, ho, hc, has⟩ := exists_of_lastGroup hgroup
    obtain ⟨a', ha⟩ := haccepted a List.mem_cons_self as has
    exact ⟨[t], _, rfl, .function ht, (Written.bracket ho hc ha).isOperand rfl rfl, congrArg some ho⟩
  | logarithm base a =>
    obtain ⟨t, groups, rfl, ht, hgroups⟩ := List.map_eq_cons_iff.1 h
    obtain ⟨o, bases, c, second, rfl, ho, hc, hbases, hsecond⟩ := exists_of_group hgroups
    obtain ⟨o', as, c', rfl, ho', hc', has⟩ := exists_of_lastGroup hsecond
    obtain ⟨base', hbase⟩ := haccepted base List.mem_cons_self bases hbases
    obtain ⟨a', ha⟩ := haccepted a (List.mem_cons_of_mem _ List.mem_cons_self) as has
    exact ⟨t :: o :: bases ++ [c], _, by simp, .logarithm ht ho hc hbase,
      (Written.bracket ho' hc' ha).isOperand rfl rfl, congrArg some ho'⟩
  | _ => exact absurd hfunction Bool.false_ne_true

theorem isOpen_of_not_isPower (hpower : f.isPower = false) : f.isOpen = f.isFunction := by
  cases f <;> first | rfl | exact absurd hpower.symm Bool.false_ne_true

theorem startsCall_of_not_isPower (hpower : f.isPower = false) : f.startsCall = f.isCall := by
  cases f <;> first | rfl | exact absurd hpower.symm Bool.false_ne_true

end Factor

namespace Chain

variable {calls started : Bool} {f : Factor} {fs : List Factor} {tokens rest : List Token}

theorem isOperand_of_calls {call : Bool} (h : IsOperand call tokens) (hcall : calls = false → call = false) :
    IsOperand calls tokens := by
  obtain ⟨g, hg, hoperand, hgCall⟩ := h
  refine ⟨g, hg, hoperand, ?_⟩
  cases calls with
  | true => rfl
  | false =>
    rw [hcall rfl] at hgCall
    exact hgCall

/-- The tokens of a factor in front of a chain. -/
theorem of_factor (hf : f.Inner) (hinside : ∀ e ∈ f.children, ∀ i ∈ e.items, ∀ g ∈ i.factors, g.Inner)
    (hcalls : calls = false → f.startsCall = false) (h : tokens.map (·.kind) = f.kinds)
    (hrest : Chain true (calls && !f.isOpen) true rest) : Chain true calls started (tokens ++ rest) := by
  cases hpower : f.isPower with
  | false =>
    rw [Factor.isOpen_of_not_isPower hpower] at hrest
    rw [Factor.startsCall_of_not_isPower hpower] at hcalls
    cases hfunction : f.isFunction with
    | false =>
      rw [hfunction, Bool.not_false, Bool.and_true] at hrest
      have hoperand := hf.isOperand (by rw [Factor.isOperand, hfunction, hpower]; rfl) h
      exact .operand (isOperand_of_calls hoperand hcalls) hrest
    | true =>
      rw [hfunction, Bool.not_true, Bool.and_false] at hrest
      obtain ⟨front, group, rfl, hfront, hgroup, hparen⟩ := hf.exists_argument hfunction h
      obtain ⟨o, us, rfl, -⟩ := hgroup.exists_first
      rw [List.append_assoc]
      refine .head hfront (List.cons_ne_nil _ _) (fun _ => hparen) ?_
      rw [Bool.not_true, Bool.and_false]
      exact .operand hgroup hrest
  | true =>
    cases f with
    | power base exponent =>
      obtain ⟨g, rfl, hg⟩ := hf.wellFormed
      have hgInner := hinside _ List.mem_cons_self _ (List.mem_singleton.2 rfl) g (List.mem_singleton.2 rfl)
      rw [Factor.kinds, Expression.kinds_ofFactor] at h
      obtain ⟨bases, behind, rfl, hbases, hbehind⟩ := List.map_eq_append_iff.1 h
      obtain ⟨t, group, rfl, ht, hgroup⟩ := List.map_eq_cons_iff.1 hbehind
      obtain ⟨o, exponents, c, rfl, ho, hc, hexponents⟩ := exists_of_lastGroup hgroup
      obtain ⟨e, he⟩ := hf.accepted exponent (List.mem_cons_of_mem _ List.mem_cons_self) exponents hexponents
      have hes : IsExponent true (o :: exponents ++ [c]) := by
        have hcloses := @closesAtEnd_eq _ [] [] exponents o c (closer_brace ho hc)
          (Expression.complete_of_read he).level
        refine ⟨exponents, e, ?_, he, fun _ => congrArg some ho⟩
        have hbetween := Factor.between_append o c exponents
        rw [List.cons_append] at hbetween ⊢
        rw [Factor.exponentTokens, if_pos ⟨ho, hcloses⟩, hbetween]
      have hopen : (Factor.power (.ofFactor g) exponent).isOpen = g.isFunction := rfl
      have hcall : (Factor.power (.ofFactor g) exponent).startsCall = g.isCall := rfl
      rw [hopen] at hrest
      rw [hcall] at hcalls
      rw [List.append_assoc, List.cons_append]
      cases hfunction : g.isFunction with
      | false =>
        rw [hfunction, Bool.not_false, Bool.and_true] at hrest
        have hoperand := hgInner.isOperand (by rw [Factor.isOperand, hfunction, hg]; rfl) hbases
        exact .power (isOperand_of_calls hoperand hcalls) ht hes hrest
      | true =>
        rw [hfunction, Bool.not_true, Bool.and_false] at hrest
        obtain ⟨front, second, rfl, hfront, hsecond, hparen⟩ := hgInner.exists_argument hfunction hbases
        obtain ⟨u, us, rfl, -⟩ := hsecond.exists_first
        rw [List.append_assoc]
        refine .head hfront (List.cons_ne_nil _ _) (fun _ => hparen) ?_
        rw [Bool.not_true, Bool.and_false]
        exact .power hsecond ht hes hrest
    | _ => exact absurd hpower Bool.false_ne_true

/-- The tokens of factors. -/
theorem of_factors (hfs : ∀ f ∈ fs, f.Inner)
    (hinside : ∀ f ∈ fs, ∀ e ∈ f.children, ∀ i ∈ e.items, ∀ g ∈ i.factors, g.Inner)
    (hcallsFirst : fs.Pairwise fun f g => f.isOpen = true → g.startsCall = false)
    (hcalls : calls = false → ∀ f ∈ fs, f.startsCall = false) {previous : Option Factor}
    (h : tokens.map (·.kind) = kindsOfFactors previous fs) : Chain true calls previous.isSome tokens := by
  induction fs generalizing calls tokens previous with
  | nil =>
    obtain rfl := List.map_eq_nil_iff.1 h
    exact .nil
  | cons f fs ih =>
    obtain ⟨hf, hfs⟩ := List.forall_mem_cons.1 hfs
    obtain ⟨hfInside, hinside⟩ := List.forall_mem_cons.1 hinside
    obtain ⟨hfirst, hcallsFirst⟩ := List.pairwise_cons.1 hcallsFirst
    rw [kindsOfFactors, List.append_assoc] at h
    obtain ⟨separator, others, rfl, hseparator, hothers⟩ := List.map_eq_append_iff.1 h
    obtain ⟨first, rest, rfl, hkinds, hrest⟩ := List.map_eq_append_iff.1 hothers
    have htail : Chain true (calls && !f.isOpen) true rest := by
      refine ih hfs hinside hcallsFirst (fun hno g hg => ?_) hrest
      rcases Bool.and_eq_false_iff.1 hno with hno | hno
      · exact hcalls hno g (List.mem_cons_of_mem _ hg)
      · exact hfirst g hg (by simpa using hno)
    have hall : ∀ started, Chain true calls started (first ++ rest) := fun started =>
      of_factor hf hfInside (fun hno => hcalls hno f List.mem_cons_self) hkinds htail
    unfold separatorKinds at hseparator
    split at hseparator
    · next hneeds =>
      obtain ⟨t, rfl, ht⟩ := List.map_eq_singleton_iff.1 hseparator
      have hsome : previous.isSome = true := by
        cases previous with
        | none => exact absurd hneeds Bool.false_ne_true
        | some p => rfl
      have hne : first ++ rest ≠ [] := by
        intro hnil
        obtain ⟨rfl, -⟩ := List.append_eq_nil_iff.1 hnil
        exact f.kinds_ne_nil hkinds.symm
      obtain ⟨u, us, heq, hmul, hdiv⟩ := (hall false).exists_first hne
      have hbehind := hall true
      rw [heq] at hbehind ⊢
      rw [hsome]
      exact .separator (.inl ht) (by simp [Item.canFollowMul, hmul, hdiv]) hbehind
    · obtain rfl := List.map_eq_nil_iff.1 hseparator
      exact hall _

end Chain

namespace Item

variable {i : Item} {part : List Token}

/-- The tokens of an item are read as an item, with its sign or without. -/
theorem exists_parsed (hne : i.factors ≠ []) (hfactors : ∀ f ∈ i.factors, f.Inner)
    (hinside : ∀ f ∈ i.factors, ∀ e ∈ f.children, ∀ j ∈ e.items, ∀ g ∈ j.factors, g.Inner)
    (hcallsFirst : i.CallsFirst) (h : IsWrittenAs part i) : ∃ j, Parsed Expression.read part j := by
  have hfactored : ∀ {front : List Token}, front.map (·.kind) = i.factorKinds → ∃ t ts fs,
      front = t :: ts ∧ t.kind.isSign = false ∧ fs ≠ [] ∧ Factored Expression.read false front fs := by
    intro front hfront
    have hinline : Inline front := by
      have hlevel := level fun f hf => Factor.nested (hfactors f hf).wellFormed (hfactors f hf).nested
      refine ⟨0, ?_⟩
      rw [hfront]
      exact hlevel.mono fun k hk => by cases k <;> first | rfl | exact absurd hk Bool.false_ne_true
    have hchain : Chain true true false front := by
      obtain ⟨positive, gs⟩ := i
      exact @Chain.of_factors true gs front hfactors hinside hcallsFirst
        (fun hno => absurd hno.symm Bool.false_ne_true) none hfront
    obtain ⟨fs, hfs⟩ := hchain.accepted hinline (.inl rfl)
    cases front with
    | nil => exact absurd hfront.symm (i.factorKinds_ne_nil hne)
    | cons t ts =>
      refine ⟨t, ts, fs, rfl, hinline.isSign_first, ?_, hfs⟩
      rintro rfl
      exact absurd hfs.eq_nil (List.cons_ne_nil t ts)
  rcases h with h | ⟨-, h⟩
  · obtain ⟨sign, front, rfl, hsign, hfront⟩ := List.map_eq_append_iff.1 h
    obtain ⟨t, ts, fs, rfl, -, hfs, hread⟩ := hfactored hfront
    cases hpositive : i.positive <;> rw [hpositive] at hsign <;>
      obtain ⟨s, rfl, hs⟩ := List.map_eq_singleton_iff.1 hsign
    · exact ⟨_, .minus hs hfs hread⟩
    · exact ⟨_, .plus hs hfs hread⟩
  · obtain ⟨t, ts, fs, rfl, hsign, hfs, hread⟩ := hfactored h
    exact ⟨_, .unsigned hsign hfs hread⟩

end Item

namespace Expression

variable {e : Expression} {tokens : List Token}

/-- The tokens of an expression are read, if no calls stand behind functions. -/
theorem isAccepted_and_inner
    (h : e.Everywhere fun e => WellFormed e ∧ ∀ i ∈ e.items, i.CallsFirst) :
    e.IsAccepted ∧ ∀ i ∈ e.items, ∀ f ∈ i.factors, f.Inner := by
  induction h with
  | @intro items here inside ih =>
    obtain ⟨⟨hne, hfactors⟩, hcallsFirst⟩ := here
    have hinner : ∀ i ∈ items, ∀ f ∈ i.factors, f.Inner := fun i hi f hf =>
      ⟨(hfactors i hi).2 f hf, fun e he => nested ((inside i hi f hf e he).imp fun _ h => h.1),
        fun e he => (ih i hi f hf e he).1⟩
    refine ⟨fun tokens htokens => ?_, hinner⟩
    have hlevel : ∀ i ∈ items, Level TokenKind.inItem i.factorKinds := fun i hi =>
      Item.level fun f hf => Factor.nested (hinner i hi f hf).wellFormed (hinner i hi f hf).nested
    have hsplit := splitItems_kinds hne hlevel (fun i hi => (hfactors i hi).1) htokens
    obtain ⟨items', hitems'⟩ : ∃ items',
        List.Forall₂ (Item.Parsed Expression.read) (splitItems tokens) items' := by
      refine exists_forall₂ fun part hpart => ?_
      obtain ⟨i, hi, hwritten⟩ := exists_of_forall₂ hsplit hpart
      exact Item.exists_parsed (hfactors i hi).1 (hinner i hi) (fun f hf e he => (ih i hi f hf e he).2)
        (hcallsFirst i hi) hwritten
    refine ⟨⟨items'⟩, ?_⟩
    rw [read_eq, readWith_eq_some]
    refine ⟨?_, hitems'⟩
    rintro rfl
    obtain ⟨i, -, hi, -, -⟩ := List.forall₂_cons_left_iff.1 hitems'
    cases hi

/-- The tokens of an expression that was read are read again. -/
theorem exists_read_kinds {source : List Token} (h : read source = some e)
    (hspellable : ∀ t ∈ source, t.kind.Spellable) (htokens : tokens.map (·.kind) = e.bracketed.kinds) :
    ∃ e', read tokens = some e' := by
  have hwritable := (produced_of_read h hspellable).writable_bracketed
  have hall := hwritable.and (callsFirst_bracketed.2 (callsFirst_of_read h))
  exact (isAccepted_and_inner (hall.imp fun _ h => ⟨h.1.1, h.2⟩)).1 tokens htokens

end Expression

end ImplicitCurves

import ImplicitCurves.Proofs.Notation.Groups

/-!
# Trees with the same tokens

Well-formed trees with the same tokens are the same tree: main statement
`Expression.eq_of_kinds_eq`.  Where a part of a tree ends can be seen from the first token outside of
groups that cannot belong to it.
-/

namespace ImplicitCurves

/-- The tokens end at once, or with one that cannot stand outside of groups. -/
def Stops (allowed : TokenKind → Bool) (ks : List TokenKind) : Prop :=
  ∀ k, ks.head? = some k → depthStep allowed 0 k = none

section Level

variable {allowed : TokenKind → Bool} {as bs r s : List TokenKind}

theorem stops_nil : Stops allowed [] := by
  intro k hk
  exact absurd hk.symm (Option.some_ne_none k)

theorem stops_cons {k : TokenKind} (hk : depthStep allowed 0 k = none) : Stops allowed (k :: r) := by
  intro k' hk'
  obtain rfl := Option.some.inj hk'
  exact hk

/-- What stands in front of the first token that is not allowed is determined by the tokens. -/
theorem Level.eq_of_append (ha : Level allowed as) (hb : Level allowed bs) (hr : Stops allowed r)
    (hs : Stops allowed s) (h : as ++ r = bs ++ s) : as = bs ∧ r = s := by
  have hshorter : ∀ {as bs more : List TokenKind} {k : TokenKind}, Level allowed as →
      Level allowed bs → depthStep allowed 0 k = none → bs ≠ as ++ k :: more := by
    intro as bs more k ha hb hk heq
    rw [heq, Level, depthBehind_append, ha, Option.bind_some, depthBehind, List.foldlM_cons, hk] at hb
    exact absurd hb.symm (Option.some_ne_none 0)
  rcases List.append_eq_append_iff.1 h with ⟨more, hbs, hrest⟩ | ⟨more, has, hrest⟩
  · cases more with
    | nil =>
      rw [List.append_nil] at hbs
      exact ⟨hbs.symm, hrest⟩
    | cons k more => exact absurd hbs (hshorter ha hb (hr k (by rw [hrest]; rfl)))
  · cases more with
    | nil =>
      rw [List.append_nil] at has
      exact ⟨has, hrest.symm⟩
    | cons k more => exact absurd has (hshorter hb ha (hs k (by rw [hrest]; rfl)))

theorem Level.eq_of_paren (ha : Level allowed as) (hb : Level allowed bs)
    (h : parenKinds as ++ r = parenKinds bs ++ s) : as = bs ∧ r = s := by
  have hinside := (List.cons.inj h).2
  simp only [List.append_eq, List.append_assoc] at hinside
  obtain ⟨heq, hrest⟩ := ha.eq_of_append hb (stops_cons rfl) (stops_cons rfl) hinside
  exact ⟨heq, (List.cons.inj hrest).2⟩

theorem Level.eq_of_brace (ha : Level allowed as) (hb : Level allowed bs)
    (h : braceKinds as ++ r = braceKinds bs ++ s) : as = bs ∧ r = s := by
  have hinside := (List.cons.inj h).2
  simp only [List.append_eq, List.append_assoc] at hinside
  obtain ⟨heq, hrest⟩ := ha.eq_of_append hb (stops_cons rfl) (stops_cons rfl) hinside
  exact ⟨heq, (List.cons.inj hrest).2⟩

end Level

/-- The factor can be written, and so can all that is inside it. -/
structure Factor.Sound (f : Factor) : Prop where
  here : f.WellFormed
  inside : ∀ e ∈ f.children, e.Writable

/-- The item can be written, and so can all that is inside it. -/
structure Item.Sound (i : Item) : Prop where
  ne_nil : i.factors ≠ []
  spaced : i.Spaced
  factors : ∀ f ∈ i.factors, f.Sound

theorem Expression.Writable.sound {e : Expression} (h : e.Writable) : ∀ i ∈ e.items, i.Sound := by
  intro i hi
  obtain ⟨hne, hfactors⟩ := h.here.1.2 i hi
  exact ⟨hne, h.here.2 i hi, fun f hf => ⟨hfactors f hf, h.inside hi hf⟩⟩

theorem Factor.Sound.nested {f : Factor} (h : f.Sound) : f.Nested :=
  Factor.nested h.here fun e he => Expression.nested (h.inside e he).wellFormed

/-- No other expression that can be written has the tokens of this one. -/
structure Expression.Distinct (e : Expression) : Prop where
  nested : e.Nested
  eq_of_kinds : ∀ e' : Expression, e'.Writable → e.kinds = e'.kinds → e = e'

namespace Expression.Distinct

variable {e e' : Expression} {r s : List TokenKind}

theorem eq_of_brace (h : e.Distinct) (h' : e'.Writable)
    (hkinds : braceKinds e.kinds ++ r = braceKinds e'.kinds ++ s) : e = e' ∧ r = s := by
  obtain ⟨heq, hrest⟩ := h.nested.level.eq_of_brace (Expression.nested h'.wellFormed).level hkinds
  exact ⟨h.eq_of_kinds e' h' heq, hrest⟩

theorem eq_of_paren (h : e.Distinct) (h' : e'.Writable)
    (hkinds : parenKinds e.kinds ++ r = parenKinds e'.kinds ++ s) : e = e' ∧ r = s := by
  obtain ⟨heq, hrest⟩ := h.nested.level.eq_of_paren (Expression.nested h'.wellFormed).level hkinds
  exact ⟨h.eq_of_kinds e' h' heq, hrest⟩

end Expression.Distinct

/-- What stands behind the tokens of a factor does not look like the rest of a longer one. -/
structure Factor.EndsBefore (f : Factor) (rest : List TokenKind) : Prop where
  caret : rest.head? ≠ some .caret
  paren : ∀ name bound, f = .variable name bound → rest.head? ≠ some .openParen

/-- The factor and what is behind it can be told from the tokens. -/
def Factor.Distinct (f : Factor) : Prop :=
  ∀ (g : Factor) (r s : List TokenKind), g.Sound → f.EndsBefore r → g.EndsBefore s →
    f.kinds ++ r = g.kinds ++ s → f = g ∧ r = s

theorem eq_of_kindsOfArguments {es es' : List Expression} {first : Bool} (h : ∀ e ∈ es, e.Distinct)
    (h' : ∀ e ∈ es', e.Writable)
    (hkinds : kindsOfArguments first es = kindsOfArguments first es') (hne : es ≠ []) (hne' : es' ≠ []) :
    es = es' := by
  induction es generalizing es' first with
  | nil => exact absurd rfl hne
  | cons e es ih =>
    obtain ⟨e', es', rfl⟩ := List.exists_cons_of_ne_nil hne'
    obtain ⟨he, hes⟩ := List.forall_mem_cons.1 h
    obtain ⟨he', hes'⟩ := List.forall_mem_cons.1 h'
    rw [kindsOfArguments, kindsOfArguments, List.append_assoc, List.append_assoc] at hkinds
    have hstops : ∀ es : List Expression, Stops TokenKind.inExpression (kindsOfArguments false es) := by
      intro es
      cases es with
      | nil => exact stops_nil
      | cons e es => exact stops_cons rfl
    obtain ⟨heq, hrest⟩ := he.nested.level.eq_of_append (Expression.nested he'.wellFormed).level (hstops es)
      (hstops es') (List.append_cancel_left hkinds)
    obtain rfl := he.eq_of_kinds e' he' heq
    have hcount : es = [] ↔ es' = [] := by
      constructor
      · rintro rfl
        cases es' with
        | nil => rfl
        | cons e' es' => exact absurd hrest.symm (List.cons_ne_nil _ _)
      · rintro rfl
        cases es with
        | nil => rfl
        | cons e' es => exact absurd hrest (List.cons_ne_nil _ _)
    by_cases hnil : es = []
    · rw [hnil, hcount.1 hnil]
    · rw [ih hes hes' hrest hnil fun hnil' => hnil (hcount.2 hnil')]

/-- The only constant that is written as a letter is `e`. -/
theorem NamedConstant.kind_ne_letter (c : NamedConstant) {name : Char} (hname : name ≠ 'e') :
    c.kind ≠ .letter name := by
  intro hkind
  cases c with
  | e => exact hname (TokenKind.letter.inj hkind).symm
  | pi => simp [kind] at hkind

namespace Factor

variable {f g : Factor} {r s : List TokenKind}

/-- A constant can be told from the tokens. -/
theorem eq_of_constant {c : NamedConstant} (hg : g.Sound) (hgPower : g.isPower = false)
    (h : (constant c).kinds ++ r = g.kinds ++ s) : .constant c = g ∧ r = s := by
  cases g with
  | constant c' =>
    obtain ⟨hkind, hrest⟩ := List.cons.inj h
    have heq : c = c' := by
      cases c <;> cases c' <;> first | rfl | simp [NamedConstant.kind] at hkind
    exact ⟨congrArg _ heq, hrest⟩
  | «variable» name bound => exact absurd (List.cons.inj h).1 (c.kind_ne_letter hg.here.1.2)
  | call name arguments link => exact absurd (List.cons.inj h).1 (c.kind_ne_letter hg.here.1.2)
  | power base exponent => exact absurd hgPower.symm Bool.false_ne_true
  | _ => cases c <;> simp [kinds, parenKinds, NamedConstant.kind] at h

/-- A variable can be told from the tokens if no parenthesis is behind it. -/
theorem eq_of_variable {name : Char} {bound : Option Float} (hf : Factor.WellFormed (.variable name bound))
    (hg : g.Sound) (hgPower : g.isPower = false) (hr : r.head? ≠ some .openParen)
    (h : kinds (.variable name bound) ++ r = g.kinds ++ s) : .variable name bound = g ∧ r = s := by
  cases g with
  | constant c => exact absurd (List.cons.inj h).1.symm (c.kind_ne_letter hf.1.2)
  | «variable» name' bound' =>
    obtain ⟨hname, hrest⟩ := List.cons.inj h
    obtain rfl := TokenKind.letter.inj hname
    rw [hf.2, hg.here.2]
    exact ⟨rfl, hrest⟩
  | call name' arguments link =>
    obtain ⟨-, hrest⟩ := List.cons.inj h
    have hparen : r.head? = some .openParen := congrArg List.head? hrest
    exact absurd hparen hr
  | power base exponent => exact absurd hgPower.symm Bool.false_ne_true
  | _ => simp [kinds, parenKinds] at h

/-- A call can be told from the tokens if its arguments can. -/
theorem eq_of_call {name : Char} {arguments : List Expression} {link : Link}
    (hf : (call name arguments link).WellFormed) (hg : g.Sound) (hgPower : g.isPower = false)
    (harguments : ∀ e ∈ arguments, e.Distinct)
    (hs : ∀ name bound, g = .variable name bound → s.head? ≠ some .openParen)
    (h : (call name arguments link).kinds ++ r = g.kinds ++ s) :
    .call name arguments link = g ∧ r = s := by
  cases g with
  | call name' arguments' link' =>
    obtain ⟨hname, hgroup⟩ := List.cons.inj h
    have hnested' : ∀ e ∈ arguments', e.Nested :=
      fun e he => Expression.nested (hg.inside e he).wellFormed
    have hlevel := level_arguments (fun e he => (harguments e he).nested) true
    obtain ⟨hkinds, hrest⟩ := hlevel.eq_of_paren (level_arguments hnested' true) hgroup
    have heq : arguments = arguments' :=
      eq_of_kindsOfArguments harguments hg.inside hkinds hf.2.2 hg.here.2.2
    rw [heq, TokenKind.letter.inj hname, hf.2.1, hg.here.2.1]
    exact ⟨rfl, hrest⟩
  | «variable» name' bound =>
    obtain ⟨-, hrest⟩ := List.cons.inj h
    have hparen : s.head? = some .openParen := congrArg List.head? hrest.symm
    exact absurd hparen (hs name' bound rfl)
  | constant c => exact absurd (List.cons.inj h).1.symm (c.kind_ne_letter hf.1.2)
  | power base exponent => exact absurd hgPower.symm Bool.false_ne_true
  | _ => simp [kinds, parenKinds] at h

/-- Factors that are no powers can be told from the tokens if the expressions inside them can. -/
theorem eq_of_not_isPower (hf : f.WellFormed) (hg : g.Sound) (hfPower : f.isPower = false)
    (hgPower : g.isPower = false) (hfInside : ∀ e ∈ f.children, e.Distinct)
    (hr : ∀ name bound, f = .variable name bound → r.head? ≠ some .openParen)
    (hs : ∀ name bound, g = .variable name bound → s.head? ≠ some .openParen)
    (h : f.kinds ++ r = g.kinds ++ s) : f = g ∧ r = s := by
  cases f with
  | power base exponent => exact absurd hfPower.symm Bool.false_ne_true
  | constant c => exact eq_of_constant hg hgPower h
  | «variable» name bound => exact eq_of_variable hf hg hgPower (hr name bound rfl) h
  | call name arguments link => exact eq_of_call hf hg hgPower hfInside hs h
  | number x =>
    cases g with
    | number y =>
      obtain ⟨hx, hrest⟩ := List.cons.inj h
      rw [TokenKind.number.inj hx]
      exact ⟨rfl, hrest⟩
    | constant c => cases c <;> simp [kinds, NamedConstant.kind] at h
    | power base exponent => exact absurd hgPower.symm Bool.false_ne_true
    | _ => simp [kinds, parenKinds] at h
  | fraction a b =>
    cases g with
    | fraction a' b' =>
      obtain ⟨ha, hb⟩ := List.forall_mem_cons.1 hfInside
      obtain ⟨ha', hb'⟩ := List.forall_mem_cons.1 hg.inside
      have hgroups := (List.cons.inj h).2
      simp only [List.append_eq, List.append_assoc] at hgroups
      obtain ⟨rfl, hsecond⟩ := ha.eq_of_brace ha' hgroups
      obtain ⟨rfl, hrest⟩ := (hb b List.mem_cons_self).eq_of_brace (hb' b' List.mem_cons_self) hsecond
      exact ⟨rfl, hrest⟩
    | constant c => cases c <;> simp [kinds, NamedConstant.kind] at h
    | power base exponent => exact absurd hgPower.symm Bool.false_ne_true
    | _ => simp [kinds, parenKinds] at h
  | logarithm a b =>
    cases g with
    | logarithm a' b' =>
      obtain ⟨ha, hb⟩ := List.forall_mem_cons.1 hfInside
      obtain ⟨ha', hb'⟩ := List.forall_mem_cons.1 hg.inside
      have hgroups := (List.cons.inj h).2
      simp only [List.append_eq, List.append_assoc] at hgroups
      obtain ⟨rfl, hsecond⟩ := ha.eq_of_brace ha' hgroups
      obtain ⟨rfl, hrest⟩ := (hb b List.mem_cons_self).eq_of_paren (hb' b' List.mem_cons_self) hsecond
      exact ⟨rfl, hrest⟩
    | constant c => cases c <;> simp [kinds, NamedConstant.kind] at h
    | power base exponent => exact absurd hgPower.symm Bool.false_ne_true
    | _ => simp [kinds, parenKinds] at h
  | bracket a =>
    cases g with
    | bracket a' =>
      obtain ⟨rfl, hrest⟩ := (hfInside a List.mem_cons_self).eq_of_paren
        (hg.inside a' List.mem_cons_self) h
      exact ⟨rfl, hrest⟩
    | constant c => cases c <;> simp [kinds, parenKinds, NamedConstant.kind] at h
    | power base exponent => exact absurd hgPower.symm Bool.false_ne_true
    | _ => simp [kinds, parenKinds] at h
  | unary u a =>
    cases g with
    | unary u' a' =>
      obtain ⟨hu, hgroup⟩ := List.cons.inj h
      obtain ⟨rfl, hrest⟩ := (hfInside a List.mem_cons_self).eq_of_paren
        (hg.inside a' List.mem_cons_self) hgroup
      rw [TokenKind.function.inj hu]
      exact ⟨rfl, hrest⟩
    | constant c => cases c <;> simp [kinds, NamedConstant.kind] at h
    | power base exponent => exact absurd hgPower.symm Bool.false_ne_true
    | _ => simp [kinds, parenKinds] at h

/-- The tokens of a factor are those of a factor that is no power, and behind them possibly a caret
and an exponent. -/
theorem Sound.exists_base (hf : f.Sound) : f.isPower = false ∨ ∃ (base : Factor) (exponent : Expression),
    f = .power (.ofFactor base) exponent ∧ base.isPower = false ∧ base.Sound ∧
      f.kinds = base.kinds ++ .caret :: braceKinds exponent.kinds := by
  cases f with
  | power base exponent =>
    obtain ⟨base, rfl, hbase⟩ := hf.here
    have hitem := (hf.inside _ List.mem_cons_self).sound _ (List.mem_singleton.2 rfl)
    refine .inr ⟨base, exponent, rfl, hbase, hitem.factors base (List.mem_singleton.2 rfl), ?_⟩
    rw [kinds, Expression.kinds_ofFactor]
  | _ => exact .inl rfl

/-- Factors can be told from the tokens if the expressions inside them can, also those inside the base
of a power. -/
theorem Sound.distinct (hf : f.Sound) (hInside : ∀ e ∈ f.children, e.Distinct)
    (hbases : ∀ e ∈ f.children, ∀ i ∈ e.items, ∀ g ∈ i.factors, ∀ c ∈ g.children, c.Distinct) :
    f.Distinct := by
  intro g r s hg hr hs h
  have hcaret : ∀ {base : Factor} {rest : List TokenKind} (name : Char) (bound : Option Float),
      base = .variable name bound → (TokenKind.caret :: rest).head? ≠ some .openParen := by
    intro base rest name bound _
    simp
  rcases hf.exists_base with hfPower | ⟨base, exponent, rfl, hbase, hsound, hkinds⟩
  · rcases hg.exists_base with hgPower | ⟨base', exponent', rfl, hbase', hsound', hkinds'⟩
    · exact eq_of_not_isPower hf.here hg hfPower hgPower hInside hr.paren hs.paren h
    · -- What is behind the first factor would start with the caret of the second one.
      rw [hkinds', List.append_assoc] at h
      obtain ⟨-, rfl⟩ := eq_of_not_isPower hf.here hsound' hfPower hbase' hInside hr.paren hcaret h
      exact absurd rfl hr.caret
  · have hbaseInside := hbases _ List.mem_cons_self _ (List.mem_singleton.2 rfl) base
      (List.mem_singleton.2 rfl)
    rw [hkinds, List.append_assoc] at h
    rcases hg.exists_base with hgPower | ⟨base', exponent', rfl, hbase', hsound', hkinds'⟩
    · obtain ⟨-, hrest⟩ := eq_of_not_isPower hsound.here hg hbase hgPower hbaseInside hcaret hs.paren h
      exact absurd (congrArg List.head? hrest).symm hs.caret
    · rw [hkinds', List.append_assoc] at h
      obtain ⟨rfl, hrest⟩ := eq_of_not_isPower hsound.here hsound' hbase hbase' hbaseInside hcaret hcaret h
      have hexponent := hInside exponent (List.mem_cons_of_mem _ List.mem_cons_self)
      obtain ⟨rfl, hbehind⟩ := hexponent.eq_of_brace
        (hg.inside exponent' (List.mem_cons_of_mem _ List.mem_cons_self)) (List.cons.inj hrest).2
      exact ⟨rfl, hbehind⟩

/-- A factor starts neither with a sign nor with an operation. -/
theorem Sound.exists_first (hf : f.Sound) :
    ∃ k ks, f.kinds = k :: ks ∧ k ≠ .mul ∧ k ≠ .caret ∧ k.isSign = false := by
  have hplain : ∀ {f : Factor}, f.isPower = false →
      ∃ k ks, f.kinds = k :: ks ∧ k ≠ .mul ∧ k ≠ .caret ∧ k.isSign = false := by
    intro f hf
    cases f with
    | power base exponent => exact absurd hf.symm Bool.false_ne_true
    | constant c =>
      refine ⟨c.kind, [], rfl, ?_⟩
      cases c <;> simp [NamedConstant.kind, TokenKind.isSign]
    | _ => exact ⟨_, _, rfl, by simp, by simp, rfl⟩
  rcases hf.exists_base with hpower | ⟨base, exponent, -, hbase, -, hkinds⟩
  · exact hplain hpower
  · obtain ⟨k, ks, hfirst, hk⟩ := hplain hbase
    refine ⟨k, ks ++ .caret :: braceKinds exponent.kinds, ?_, hk⟩
    rw [hkinds, hfirst]
    rfl

/-- The next factor does not look like the rest of this one. -/
theorem endsBefore_factors {fs : List Factor} (hfs : ∀ g ∈ fs, g.Sound)
    (hspaced : (f :: fs).IsChain fun f g => (f.isPlain && g.isPower) = false) :
    f.EndsBefore (kindsOfFactors (some f) fs) := by
  cases fs with
  | nil => exact ⟨fun h => (by cases h), fun _ _ _ h => (by cases h)⟩
  | cons g gs =>
    have hg := hfs g List.mem_cons_self
    obtain ⟨k, ks, hkinds, -, hcaret, -⟩ := hg.exists_first
    have hspace := (List.isChain_cons_cons.1 hspaced).1
    rw [kindsOfFactors, List.append_assoc, separatorKinds, Option.any_some]
    by_cases hmul : needsMul f g = true
    · rw [if_pos hmul]
      exact ⟨by simp, fun _ _ _ => by simp⟩
    · rw [if_neg hmul, hkinds]
      refine ⟨fun hk => hcaret (Option.some.inj hk), ?_⟩
      rintro name bound rfl hparen
      rw [isPlain, Bool.true_and] at hspace
      obtain rfl := Option.some.inj hparen
      cases g with
      | power base exponent => exact absurd hspace.symm Bool.false_ne_true
      | bracket a => exact hmul rfl
      | constant c => cases c <;> exact absurd (List.cons.inj hkinds).1 (by simp [NamedConstant.kind])
      | _ => exact absurd (List.cons.inj hkinds).1 (by simp)

end Factor

/-- Which factors stand one behind another can be told from the tokens. -/
theorem eq_of_kindsOfFactors {fs gs : List Factor} {previous : Option Factor}
    (hfs : ∀ f ∈ fs, f.Sound) (hgs : ∀ g ∈ gs, g.Sound) (hdistinct : ∀ f ∈ fs, f.Distinct)
    (hfSpaced : fs.IsChain fun f g => (f.isPlain && g.isPower) = false)
    (hgSpaced : gs.IsChain fun f g => (f.isPlain && g.isPower) = false)
    (h : kindsOfFactors previous fs = kindsOfFactors previous gs) : fs = gs := by
  induction fs generalizing gs previous with
  | nil =>
    cases gs with
    | nil => rfl
    | cons g gs =>
      obtain ⟨k, ks, hkinds, -⟩ := (hgs g List.mem_cons_self).exists_first
      rw [kindsOfFactors, kindsOfFactors, hkinds] at h
      exact absurd h.symm (by simp)
  | cons f fs ih =>
    obtain ⟨hf, hfs⟩ := List.forall_mem_cons.1 hfs
    obtain ⟨hfDistinct, hdistinct⟩ := List.forall_mem_cons.1 hdistinct
    obtain ⟨k, ks, hkinds, hmul, -⟩ := hf.exists_first
    cases gs with
    | nil =>
      rw [kindsOfFactors, kindsOfFactors, hkinds] at h
      exact absurd h (by simp)
    | cons g gs =>
      obtain ⟨hg, hrestSound⟩ := List.forall_mem_cons.1 hgs
      obtain ⟨k', ks', hkinds', hmul', -⟩ := hg.exists_first
      rw [kindsOfFactors, kindsOfFactors, List.append_assoc, List.append_assoc] at h
      have hrest : f.kinds ++ kindsOfFactors (some f) fs = g.kinds ++ kindsOfFactors (some g) gs := by
        rw [hkinds, hkinds'] at h ⊢
        unfold separatorKinds at h
        split at h
        · split at h
          · exact (List.cons.inj h).2
          · exact absurd (List.cons.inj h).1.symm hmul'
        · split at h
          · exact absurd (List.cons.inj h).1 hmul
          · exact h
      obtain ⟨rfl, hrest⟩ := hfDistinct g _ _ hg (Factor.endsBefore_factors hfs hfSpaced)
        (Factor.endsBefore_factors hrestSound hgSpaced) hrest
      rw [ih hfs hrestSound hdistinct hfSpaced.tail hgSpaced.tail hrest]

theorem Item.Sound.exists_first {i : Item} (hi : i.Sound) :
    ∃ k ks, i.factorKinds = k :: ks ∧ k.isSign = false := by
  obtain ⟨positive, factors⟩ := i
  obtain ⟨f, fs, rfl⟩ := List.exists_cons_of_ne_nil hi.ne_nil
  obtain ⟨k, ks, hkinds, -, -, hsign⟩ := (hi.factors f List.mem_cons_self).exists_first
  refine ⟨k, ks ++ kindsOfFactors (some f) fs, ?_, hsign⟩
  rw [Item.factorKinds, kindsOfFactors, hkinds]
  rfl

/-- The sign of an item can be told from the tokens. -/
theorem eq_of_signKinds {first p q : Bool} {k k' : TokenKind} {r s : List TokenKind}
    (hk : k.isSign = false) (hk' : k'.isSign = false)
    (h : signKinds first p ++ k :: r = signKinds first q ++ k' :: s) : p = q ∧ k :: r = k' :: s := by
  have hno : ∀ {k k' : TokenKind} {r s : List TokenKind}, k.isSign = false → k'.isSign = true →
      k :: r ≠ k' :: s := by
    intro k k' r s hk hk' heq
    obtain ⟨rfl, -⟩ := List.cons.inj heq
    exact Bool.false_ne_true (hk.symm.trans hk')
  cases first with
  | true =>
    cases p <;> cases q
    · exact ⟨rfl, (List.cons.inj h).2⟩
    · exact absurd h.symm (hno hk' rfl)
    · exact absurd h (hno hk rfl)
    · exact ⟨rfl, h⟩
  | false =>
    cases p <;> cases q
    · exact ⟨rfl, (List.cons.inj h).2⟩
    · exact absurd (List.cons.inj h).1 (by simp)
    · exact absurd (List.cons.inj h).1 (by simp)
    · exact ⟨rfl, (List.cons.inj h).2⟩

/-- Which items stand one behind another can be told from the tokens. -/
theorem eq_of_kindsOfItems {is js : List Item} {first : Bool} (his : ∀ i ∈ is, i.Sound)
    (hjs : ∀ j ∈ js, j.Sound) (hdistinct : ∀ i ∈ is, ∀ f ∈ i.factors, f.Distinct)
    (h : kindsOfItems first is = kindsOfItems first js) : is = js := by
  have hstops : ∀ is : List Item, Stops TokenKind.inItem (kindsOfItems false is) := by
    intro is
    cases is with
    | nil => exact stops_nil
    | cons i is => cases hp : i.positive <;> rw [kindsOfItems, hp] <;> exact stops_cons rfl
  have hlevel : ∀ {i : Item}, i.Sound → Level TokenKind.inItem i.factorKinds := by
    intro i hi
    obtain ⟨positive, factors⟩ := i
    exact level_factors rfl (fun f hf => (hi.factors f hf).nested.level) none
  induction is generalizing js first with
  | nil =>
    cases js with
    | nil => rfl
    | cons j js =>
      obtain ⟨k, ks, hkinds, -⟩ := (hjs j List.mem_cons_self).exists_first
      rw [kindsOfItems, kindsOfItems, hkinds] at h
      exact absurd h.symm (by simp)
  | cons i is ih =>
    obtain ⟨hi, hiRest⟩ := List.forall_mem_cons.1 his
    obtain ⟨hiDistinct, hdistinctRest⟩ := List.forall_mem_cons.1 hdistinct
    obtain ⟨k, ks, hkinds, hsign⟩ := hi.exists_first
    cases js with
    | nil =>
      rw [kindsOfItems, kindsOfItems, hkinds] at h
      exact absurd h (by simp)
    | cons j js =>
      obtain ⟨hj, hjRest⟩ := List.forall_mem_cons.1 hjs
      obtain ⟨k', ks', hkinds', hsign'⟩ := hj.exists_first
      rw [kindsOfItems, kindsOfItems, List.append_assoc, List.append_assoc, hkinds, hkinds'] at h
      obtain ⟨hpositive, hfactors⟩ := eq_of_signKinds hsign hsign' h
      have happend : i.factorKinds ++ kindsOfItems false is = j.factorKinds ++ kindsOfItems false js := by
        rw [hkinds, hkinds']
        exact hfactors
      obtain ⟨heq, hrest⟩ := (hlevel hi).eq_of_append (hlevel hj) (hstops is) (hstops js) happend
      obtain ⟨positive, fs⟩ := i
      obtain ⟨positive', gs⟩ := j
      obtain rfl : positive = positive' := hpositive
      obtain rfl : fs = gs :=
        eq_of_kindsOfFactors hi.factors hj.factors hiDistinct hi.spaced hj.spaced heq
      rw [ih hiRest hjRest hdistinctRest hrest]

namespace Expression

/-- No two expressions that can be written have the same tokens. -/
theorem Writable.distinct {e : Expression} (h : e.Writable) :
    e.Distinct ∧ ∀ i ∈ e.items, ∀ f ∈ i.factors, ∀ c ∈ f.children, c.Distinct := by
  induction h with
  | @intro items here inside ih =>
    have hwritable : Writable ⟨items⟩ := .intro here inside
    have hinside : ∀ i ∈ items, ∀ f ∈ i.factors, ∀ c ∈ f.children, c.Distinct :=
      fun i hi f hf c hc => (ih i hi f hf c hc).1
    refine ⟨⟨nested hwritable.wellFormed, ?_⟩, hinside⟩
    rintro ⟨items'⟩ h' hkinds
    have hdistinct : ∀ i ∈ items, ∀ f ∈ i.factors, f.Distinct := fun i hi f hf =>
      ((hwritable.sound i hi).factors f hf).distinct (hinside i hi f hf)
        fun c hc => (ih i hi f hf c hc).2
    exact congrArg Expression.mk (eq_of_kindsOfItems hwritable.sound h'.sound hdistinct hkinds)

/-- Expressions with the same tokens are equal. -/
theorem eq_of_kinds_eq {e e' : Expression} (h : e.Writable) (h' : e'.Writable)
    (hkinds : e.kinds = e'.kinds) : e = e' :=
  h.distinct.1.eq_of_kinds e' h' hkinds

end Expression

end ImplicitCurves

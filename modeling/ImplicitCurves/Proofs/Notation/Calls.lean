import ImplicitCurves.Proofs.Notation.Acceptance

/-!
# Calls behind functions

What is read as an item is a chain, and a function takes such a chain as its argument as far as it does not
end with a parenthesis.  So no call is read behind a function, because the function would have taken the
name of the called function: main statement `Expression.callsFirst_of_read`.
-/

namespace ImplicitCurves

variable {started calls : Bool} {ts us first rest : List Token} {f : Factor} {fs : List Factor}

namespace Factor

/-- Whether the factor is a call or a power of one. -/
def startsCall (f : Factor) : Bool :=
  f.atBase isCall

theorem Written.isOperand (h : Written ts f) (hf : f.isOperand = true)
    (hcall : (calls || !f.isCall) = true) : IsOperand calls ts :=
  ⟨f, (isLongest_of_written h h.level Follows.nil).reads, hf, hcall⟩

/-- A function is read from its name and what its argument is read from. -/
theorem exists_of_isFunction (h : readWith Expression.read ts = some f) (hfunction : f.isFunction = true) :
    ∃ front as rest a, ts = front ++ rest ∧ IsHead front ∧ ArgumentTokens as rest ∧
      Expression.read as = some a := by
  cases parsed_of_readWith h with
  | unary ht hrest ha => exact ⟨[_], _, _, _, rfl, .function ht, hrest, ha⟩
  | @logarithm t o c bases rest as base a ht ho hc hrest hbase ha =>
    exact ⟨t :: o :: bases ++ [c], as, rest, a, by simp, .logarithm ht ho hc hbase, hrest, ha⟩
  | @logarithmOfToken t u rest as base a ht hrest hbase ha =>
    exact ⟨[t, u], as, rest, a, rfl, .logarithmOfToken ht hbase, hrest, ha⟩
  | _ => exact absurd hfunction Bool.false_ne_true

end Factor

theorem chain_of_argument {as : List Token} {a : Expression} (hrest : Factor.ArgumentTokens as rest)
    (ha : Expression.read as = some a) (hinline : Inline rest)
    (h : ∀ fs, Item.Factored Expression.read false rest fs → Chain false true false rest) :
    Chain false true false rest := by
  cases hrest with
  | plain _ =>
    obtain ⟨fs, -, -, hfs⟩ := (Expression.read_inline hinline).1 ha
    exact h fs hfs
  | paren ho hc => exact .single ((Factor.Written.bracket ho hc ha).isOperand rfl rfl)

/-- A factor is read from a chain, if this is true of shorter items. -/
theorem chain_of_readWith (h : Factor.readWith Expression.read ts = some f) (hinline : Inline ts)
    (hinside : ∀ us fs, us.length < ts.length → Inline us → Item.Factored Expression.read false us fs →
      Chain false true false us) : Chain false true false ts := by
  cases hpower : f.isPower with
  | true =>
    obtain ⟨bases, t, es, base, exponent, rfl, ht, hsplit, hbase, hes, -⟩ :=
      Factor.exists_of_isPower h hpower
    obtain ⟨fs, hne, -, hfs⟩ := (Expression.read_inline hinline.of_append_left).1 hbase
    have hbases := hinside bases fs (by simp) hinline.of_append_left hfs
    refine hbases.withExponent ?_ (Factor.splitCaret_base hsplit) ht hes
    rintro rfl
    cases hfs
    exact hne rfl
  | false =>
    cases hfunction : f.isFunction with
    | true =>
      obtain ⟨front, as, rest, a, rfl, hfront, hrest, ha⟩ := Factor.exists_of_isFunction h hfunction
      have hrestInline : Inline rest := hinline.of_append_right (hfront.level.mono fun _ _ => rfl)
      obtain ⟨t, us, rfl, -⟩ := hfront.exists_first
      refine .head hfront ?_ (fun hno => absurd hno Bool.false_ne_true) ?_
      · have hcomplete := hrest.complete (Expression.complete_of_read ha)
        exact (Finished.of_complete hcomplete).ne_nil
      · exact chain_of_argument hrest ha hrestInline fun fs =>
          hinside rest fs (by rw [List.length_append, List.length_cons]; omega) hrestInline
    | false => exact .single ⟨f, h, by rw [Factor.isOperand, hpower, hfunction]; rfl, rfl⟩

/-- Factors are read from a chain. -/
theorem Item.Factored.chain (h : Factored Expression.read started ts fs) (hinline : Inline ts) :
    Chain false true started ts := by
  generalize hn : ts.length = n
  induction n using Nat.strongRecOn generalizing started ts fs with
  | _ n ih =>
    have hfirst : ∀ {first rest : List Token} {f : Factor}, Inline (first ++ rest) →
        (first ++ rest).length ≤ n → Factor.IsLongest Expression.read first rest f →
        first ≠ [] ∧ Chain false true false first ∧ Inline rest := by
      intro first rest f hall hlength hf
      rw [List.length_append] at hlength
      refine ⟨(Factor.parsed_of_readWith hf.reads).ne_nil, ?_,
        hall.of_append_right (complete_first hf).level⟩
      refine chain_of_readWith hf.reads hall.of_append_left fun us fs hus husInline hfs => ?_
      exact ih us.length (by omega) hfs husInline rfl
    cases h with
    | nil => exact .nil
    | mul ht hu h =>
      refine .separator (.inl ht) hu (ih _ (by rw [← hn]; simp) h ?_ rfl)
      exact inline_behind hinline (by rw [ht]; rfl) (by rw [ht]; rfl)
    | @div t first rest f fs ht hf h =>
      have hbehind := inline_behind hinline (by rw [ht]; rfl) (by rw [ht]; rfl)
      obtain ⟨hne, hchain, hrestInline⟩ := hfirst hbehind (by rw [← hn]; simp) hf
      have hlength : rest.length < n := by
        rw [← hn, List.length_cons, List.length_append]
        omega
      have hrest := ih rest.length hlength h hrestInline rfl
      obtain ⟨u, us, rfl, hmul, hdiv⟩ := hchain.exists_first hne
      refine .separator (.inr ⟨ht, rfl⟩) (by simp [canFollowMul, hmul, hdiv]) ?_
      exact (hchain.mono id fun _ => rfl).append (.inl rfl) hrest
    | @factor _ t first rest f fs hmul hdiv hf h =>
      obtain ⟨hne, hchain, hrestInline⟩ := @hfirst (t :: first) rest f hinline (by rw [← hn]; simp) hf
      have hlength : rest.length < n := by
        rw [← hn, List.length_cons, List.length_append]
        omega
      have hrest := ih rest.length hlength h hrestInline rfl
      exact (hchain.mono id fun hno => absurd hno Bool.false_ne_true).append (.inr hne) hrest

namespace Factor

/-- The argument of a function, or of a power of one, together with the exponent. -/
theorem exists_of_isOpen (h : readWith Expression.read ts = some f) (hinline : Inline ts)
    (hopen : f.isOpen = true) : ∃ front rest, ts = front ++ rest ∧ IsHead front ∧ rest ≠ [] ∧
      Chain false true false rest := by
  have hfunction : ∀ {ts : List Token} {f : Factor}, readWith Expression.read ts = some f → Inline ts →
      f.isFunction = true → ∃ front rest, ts = front ++ rest ∧ IsHead front ∧ rest ≠ [] ∧
        Chain false true false rest := by
    intro ts f h hinline hfunction
    obtain ⟨front, as, rest, a, rfl, hfront, hrest, ha⟩ := exists_of_isFunction h hfunction
    have hrestInline : Inline rest := hinline.of_append_right (hfront.level.mono fun _ _ => rfl)
    have hcomplete := hrest.complete (Expression.complete_of_read ha)
    exact ⟨front, rest, rfl, hfront, (Finished.of_complete hcomplete).ne_nil,
      chain_of_argument hrest ha hrestInline fun fs hfs => hfs.chain hrestInline⟩
  cases hpower : f.isPower with
  | false =>
    refine hfunction h hinline ?_
    cases f <;> first | exact hopen | exact absurd hpower.symm Bool.false_ne_true
  | true =>
    obtain ⟨bases, t, es, base, exponent, rfl, ht, hsplit, hbase, hes, rfl⟩ := exists_of_isPower h hpower
    unfold isOpen at hopen
    split at hopen
    · next g exponent' heq =>
      obtain ⟨rfl, rfl⟩ := Factor.power.inj heq
      have hg := Expression.readWith_of_read_ofFactor hinline.of_append_left hbase
      obtain ⟨front, rest, rfl, hfront, hne, hrest⟩ := hfunction hg hinline.of_append_left hopen
      have hcaret := Chain.splitCaret_behind hfront.level (splitCaret_base hsplit)
      exact ⟨front, rest ++ t :: es, by simp, hfront, by simp, hrest.withExponent hne hcaret ht hes⟩
    · exact absurd hopen Bool.false_ne_true

/-- A call, or a power of one, starts with the name of the called function. -/
theorem exists_name (h : readWith Expression.read ts = some f) (hinline : Inline ts)
    (hcall : f.startsCall = true) : ∃ t rest name, ts = t :: rest ∧ t.kind = .letter name ∧ name ≠ 'e' := by
  have hname : ∀ {ts : List Token} {f : Factor}, readWith Expression.read ts = some f → f.isCall = true →
      ∃ t rest name, ts = t :: rest ∧ t.kind = .letter name ∧ name ≠ 'e' := by
    intro ts f h hcall
    cases parsed_of_readWith h with
    | call ht hname _ _ _ => exact ⟨_, _, _, rfl, ht, hname⟩
    | _ => exact absurd hcall Bool.false_ne_true
  unfold startsCall atBase at hcall
  split at hcall
  · next g exponent =>
    obtain ⟨bases, t, es, base, exponent', rfl, -, -, hbase, -, heq⟩ := exists_of_isPower h rfl
    obtain ⟨rfl, rfl⟩ := Factor.power.inj heq
    have hg := Expression.readWith_of_read_ofFactor hinline.of_append_left hbase
    obtain ⟨u, us, name, rfl, hu, hne⟩ := hname hg hcall
    exact ⟨u, _, name, rfl, hu, hne⟩
  · exact hname h hcall

end Factor

namespace Item

/-- If there is a call, then some factors are read from tokens that end with the name of the called
function. -/
theorem Factored.exists_name (h : Factored Expression.read started ts fs) (hinline : Inline ts)
    (hcall : ∃ g ∈ fs, g.startsCall = true) : ∃ us, us ≠ [] ∧ us <+: ts ∧ Accepted started us ∧
      us.getLast?.map (·.kind) ≠ some .closeParen := by
  induction h with
  | nil =>
    obtain ⟨g, hg, -⟩ := hcall
    cases hg
  | @mul t u us fs ht hu _ ih =>
    have hbehind := inline_behind hinline (by rw [ht]; rfl) (by rw [ht]; rfl)
    obtain ⟨vs, hne, hvs, ⟨hs, hfactored⟩, hlast⟩ := ih hbehind hcall
    obtain ⟨v, vs, rfl⟩ := List.exists_cons_of_ne_nil hne
    obtain ⟨rfl, -⟩ := List.cons_prefix_cons.1 hvs
    exact ⟨t :: v :: vs, List.cons_ne_nil _ _, List.cons_prefix_cons.2 ⟨rfl, hvs⟩, ⟨hs, .mul ht hu hfactored⟩,
      hlast⟩
  | @div t first rest f fs ht hf _ ih =>
    have hbehind := inline_behind hinline (by rw [ht]; rfl) (by rw [ht]; rfl)
    have hothers : ∃ g ∈ fs, g.startsCall = true := by
      obtain ⟨g, hg, hgCall⟩ := hcall
      rcases List.mem_cons.1 hg with rfl | hg
      · exact absurd hgCall Bool.false_ne_true
      · exact ⟨g, hg, hgCall⟩
    obtain ⟨us, hne, hus, ⟨hs, hfactored⟩, hlast⟩ :=
      ih (hbehind.of_append_right (complete_first hf).level) hothers
    refine ⟨t :: (first ++ us), List.cons_ne_nil _ _,
      List.cons_prefix_cons.2 ⟨rfl, (List.prefix_append_right_inj first).2 hus⟩,
      ⟨_, .div ht (hf.of_prefix hus) hfactored⟩, ?_⟩
    rw [← List.cons_append, List.getLast?_append_of_ne_nil _ hne]
    exact hlast
  | @factor started t first rest f fs hmul hdiv hf _ ih =>
    have hfirstInline := @Inline.of_append_left (t :: first) rest hinline
    cases hfCall : f.startsCall with
    | true =>
      obtain ⟨u, us, name, heq, hu, hname⟩ := Factor.exists_name hf.reads hfirstInline hfCall
      obtain ⟨rfl, rfl⟩ := List.cons.inj heq
      have hvariable : Factor.Written [t] (.variable name none) := .variable hu hname
      obtain ⟨g, hg⟩ := Option.ne_none_iff_exists'.1 (hvariable.readWith_ne_none rfl)
      exact ⟨[t], List.cons_ne_nil _ _, ⟨first ++ rest, rfl⟩, .single hmul hdiv hg, by simp [hu]⟩
    | false =>
      have hothers : ∃ g ∈ fs, g.startsCall = true := by
        obtain ⟨g, hg, hgCall⟩ := hcall
        rcases List.mem_cons.1 hg with rfl | hg
        · exact absurd (hgCall.symm.trans hfCall).symm Bool.false_ne_true
        · exact ⟨g, hg, hgCall⟩
      have hrestInline := @Inline.of_append_right (t :: first) rest hinline (complete_first hf).level
      obtain ⟨us, hne, hus, ⟨hs, hfactored⟩, hlast⟩ := ih hrestInline hothers
      refine ⟨t :: (first ++ us), List.cons_ne_nil _ _,
        (List.prefix_append_right_inj (t :: first)).2 hus,
        ⟨f :: hs, .factor hmul hdiv (hf.of_prefix hus) hfactored⟩, ?_⟩
      rw [← List.cons_append, List.getLast?_append_of_ne_nil _ hne]
      exact hlast

/-- No call stands behind a function. -/
def CallsFirst (i : Item) : Prop :=
  i.factors.Pairwise fun f g => f.isOpen = true → g.startsCall = false

/-- The function would have taken everything up to the name of the called function. -/
theorem Factored.callsFirst (h : Factored Expression.read started ts fs) (hinline : Inline ts) :
    fs.Pairwise fun f g => f.isOpen = true → g.startsCall = false := by
  induction h with
  | nil => exact .nil
  | mul ht hu _ ih => exact ih (inline_behind hinline (by rw [ht]; rfl) (by rw [ht]; rfl))
  | @div t first rest f fs ht hf _ ih =>
    have hbehind := inline_behind hinline (by rw [ht]; rfl) (by rw [ht]; rfl)
    exact .cons (fun g _ hno => absurd hno Bool.false_ne_true)
      (ih (hbehind.of_append_right (complete_first hf).level))
  | @factor started t first rest f fs hmul hdiv hf hrest ih =>
    have hrestInline := @Inline.of_append_right (t :: first) rest hinline (complete_first hf).level
    refine .cons (fun g hg hopen => ?_) (ih hrestInline)
    by_contra hno
    rw [Bool.not_eq_false] at hno
    obtain ⟨us, hne, hus, ⟨hs, hfactored⟩, hlast⟩ := hrest.exists_name hrestInline ⟨g, hg, hno⟩
    obtain ⟨front, as, heq, hfront, has, hchain⟩ :=
      Factor.exists_of_isOpen hf.reads (@Inline.of_append_left (t :: first) rest hinline) hopen
    have hall := hchain.append (.inr has) (hfactored.chain (hrestInline.of_prefix hus))
    have hallInline : Inline (as ++ us) := by
      have hstart := hinline.of_prefix ((List.prefix_append_right_inj (t :: first)).2 hus)
      rw [heq, List.append_assoc] at hstart
      exact hstart.of_append_right (hfront.level.mono fun _ _ => rfl)
    have hlastAll : (as ++ us).getLast?.map (·.kind) ≠ some .closeParen := by
      rw [List.getLast?_append_of_ne_nil _ hne]
      exact hlast
    refine Chain.readWith_function hfront hallInline (by simp [hne])
      (hall.accepted hallInline (.inr hlastAll)) hlastAll ?_
    rw [← List.append_assoc, ← heq]
    exact hf.longest us hne hus

end Item

namespace Expression

/-- In no item of the expression a call stands behind a function. -/
def CallsFirst : Expression → Prop :=
  Everywhere fun e => ∀ i ∈ e.items, i.CallsFirst

theorem callsFirst_single {positive : Bool} (hinside : ∀ c ∈ f.children, c.CallsFirst) :
    CallsFirst ⟨[⟨positive, [f]⟩]⟩ := by
  refine .intro (fun i hi => ?_) fun i hi g hg => ?_
  all_goals obtain rfl := List.mem_singleton.1 hi
  · exact List.pairwise_singleton _ _
  · obtain rfl := List.mem_singleton.1 hg
    exact hinside

/-- In what is read no call stands behind a function. -/
theorem callsFirst_of_read {e : Expression} (h : read ts = some e) : e.CallsFirst := by
  refine read_shorter_induction (P := fun _ e => e.CallsFirst) ?_ h
  intro ts e h ih
  have hall : ∀ i ∈ e.items, i.CallsFirst ∧ ∀ f ∈ i.factors, ∀ c ∈ f.children, c.CallsFirst := by
    intro i hi
    obtain ⟨us, hus, hinline, hne, hfactored⟩ := exists_factored h i hi
    refine ⟨hfactored.callsFirst hinline, fun f hf => ?_⟩
    obtain ⟨first, g, hfirst, -, hparsed, hfg⟩ := hfactored.exists_parsed hinline f hf
    have hinside : ∀ c ∈ g.children, c.CallsFirst := by
      intro c hc
      obtain ⟨vs, -, hlength, hread⟩ := hparsed.exists_inside c hc
      have hle := (hfirst.trans hus).length_le
      exact ih vs c (by omega) hread
    rcases hfg with rfl | rfl
    · exact hinside
    · intro c hc
      rcases List.mem_pair.1 hc with rfl | rfl
      · exact callsFirst_single fun c hc => by cases hc
      · exact callsFirst_single hinside
  obtain ⟨items⟩ := e
  exact .intro (fun i hi => (hall i hi).1) fun i hi => (hall i hi).2

/-- Brackets around bases do not move a call behind a function. -/
theorem callsFirst_bracketed {e : Expression} : e.bracketed.CallsFirst ↔ e.CallsFirst := by
  have hcall : ∀ f : Factor, f.bracketed.isCall = f.isCall := fun f => by cases f <;> rfl
  have hstarts : ∀ f : Factor, f.bracketed.startsCall = f.startsCall :=
    Factor.atBase_bracketed hcall (fun _ _ => rfl) fun _ => rfl
  have hsingle : ∀ e : Expression, ∀ i ∈ (ofFactor (.bracket e)).items, i.CallsFirst := by
    intro e i hi
    obtain rfl := List.mem_singleton.1 hi
    exact List.pairwise_singleton _ _
  have hhere : ∀ e : Expression, (∀ i ∈ e.bracketed.items, i.CallsFirst) ↔ ∀ i ∈ e.items, i.CallsFirst := by
    intro e
    rw [items_bracketed, List.forall_mem_map]
    simp only [Item.CallsFirst, Item.bracketed, List.pairwise_map, Factor.isOpen_bracketed, hstarts]
  rw [CallsFirst, everywhere_bracketed hsingle]
  simp only [hhere]

end Expression

end ImplicitCurves

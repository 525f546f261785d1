import ImplicitCurves.Proofs.Notation.Chains

/-!
# What is accepted

Chains of units are read as factors one after another, if they are written as factors are, or do not
end with a parenthesis: main statement `Chain.accepted`.
-/

namespace ImplicitCurves

/-- Factors are read from the tokens. -/
def Item.Accepted (started : Bool) (ts : List Token) : Prop :=
  ∃ fs, Item.Factored Expression.read started ts fs

section Readers

variable {calls started braced : Bool} {t : Token} {ts es first rest start : List Token} {f : Factor}

/-- The longest tokens that are read as a factor, if some at the start are. -/
theorem Factor.exists_longest (h : readWith Expression.read first ≠ none) (rest : List Token) :
    ∃ more behind f, rest = more ++ behind ∧ IsLongest Expression.read (first ++ more) behind f := by
  generalize hn : rest.length = n
  induction n using Nat.strongRecOn generalizing first rest with
  | _ n ih =>
    by_cases hlonger : ∃ more, more ≠ [] ∧ more <+: rest ∧ readWith Expression.read (first ++ more) ≠ none
    · obtain ⟨more, hne, ⟨behind, rfl⟩, hmore⟩ := hlonger
      have hpos := List.length_pos_iff.2 hne
      obtain ⟨more', behind', f, rfl, hf⟩ :=
        ih behind.length (by rw [← hn, List.length_append]; omega) hmore behind rfl
      rw [List.append_assoc] at hf
      exact ⟨more ++ more', behind', f, (List.append_assoc _ _ _).symm, hf⟩
    · obtain ⟨f, hf⟩ := Option.ne_none_iff_exists'.1 h
      refine ⟨[], rest, f, rfl, by simpa using hf, fun more hne hmore => ?_⟩
      by_contra hread
      exact hlonger ⟨more, hne, hmore, by simpa using hread⟩

/-- A factor in front of what is accepted. -/
theorem Item.Accepted.cons (hrest : Accepted true rest) (heq : t :: ts = first ++ rest) (hmul : t.kind ≠ .mul)
    (hdiv : t.kind ≠ .div) (hf : Factor.IsLongest Expression.read first rest f) :
    Accepted started (t :: ts) := by
  obtain ⟨fs, hfs⟩ := hrest
  obtain ⟨u, us, rfl⟩ := List.exists_cons_of_ne_nil (Factor.parsed_of_readWith hf.reads).ne_nil
  obtain ⟨rfl, rfl⟩ := List.cons.inj heq
  exact ⟨f :: fs, .factor hmul hdiv hf hfs⟩

/-- A multiplication or a division in front of what is accepted. -/
theorem Item.Accepted.separator {u : Token} {us : List Token} (h : Accepted true (u :: us))
    (ht : t.kind = .mul ∨ t.kind = .div) (hu : canFollowMul u = true) : Accepted true (t :: u :: us) := by
  obtain ⟨fs, hfs⟩ := h
  rcases ht with ht | ht
  · exact ⟨fs, .mul ht hu hfs⟩
  · cases hfs with
    | mul hmul _ _ => simp [canFollowMul, hmul] at hu
    | div hdiv _ _ => simp [canFollowMul, hdiv] at hu
    | factor _ _ hf hrest => exact ⟨_, .div ht hf hrest⟩

/-- A factor on its own. -/
theorem Item.Accepted.single (hmul : t.kind ≠ .mul) (hdiv : t.kind ≠ .div)
    (hf : Factor.readWith Expression.read (t :: ts) = some f) : Accepted started (t :: ts) := by
  have hnil : Accepted true [] := ⟨[], .nil⟩
  refine hnil.cons (List.append_nil _).symm hmul hdiv ⟨hf, fun more hne hmore => ?_⟩
  exact absurd (List.prefix_nil.1 hmore) hne

/-- What is accepted is an expression. -/
theorem Item.Accepted.exists_read (h : Accepted false ts) (hinline : Inline ts) (hne : ts ≠ []) :
    ∃ e, Expression.read ts = some e := by
  obtain ⟨fs, hfs⟩ := h
  refine ⟨_, (Expression.read_inline hinline).2 ⟨fs, ?_, rfl, hfs⟩⟩
  rintro rfl
  exact hne hfs.eq_nil

theorem IsOperand.inline (h : IsOperand calls ts) : Inline ts := by
  refine ⟨0, h.level.mono fun k hk => ?_⟩
  cases k <;> first | rfl | exact absurd hk Bool.false_ne_true

theorem ne_of_isOperation {k k' : TokenKind} (hk : k.isOperation = false) (hk' : k'.isOperation = true) :
    k ≠ k' := by
  rintro rfl
  exact Bool.false_ne_true (hk.symm.trans hk')

/-- An operand is read as an expression. -/
theorem IsOperand.exists_read (h : IsOperand calls ts) : ∃ e, Expression.read ts = some e := by
  obtain ⟨t, us, rfl, hoperation, -⟩ := h.exists_first
  have hinline := h.inline
  obtain ⟨f, hf, -⟩ := h
  refine Item.Accepted.exists_read ?_ hinline (List.cons_ne_nil t us)
  exact Item.Accepted.single (ne_of_isOperation hoperation rfl) (ne_of_isOperation hoperation rfl) hf

/-- What is read as an expression is the base of a power, if it has no caret outside of groups. -/
theorem Factor.readWith_power {base : Expression} (hlevel : Level TokenKind.inFactor (ts.map (·.kind)))
    (hbase : Expression.read ts = some base) (ht : t.kind = .caret) (hes : IsExponent braced es) :
    readWith Expression.read (ts ++ t :: es) ≠ none := by
  have hcaret := @splitCaret_append _ 0 0 ts (t :: es) rfl hlevel
  have hsplit : splitCaret 0 (ts ++ t :: es) = some (ts, es) := by
    rw [Int.natCast_zero] at hcaret
    rw [hcaret]
    simp [splitCaret, ht]
  obtain ⟨exponent, e, hexponent, hread, -⟩ := hes
  have hempty : ts.isEmpty = false := by
    rw [List.isEmpty_eq_false_iff]
    exact (Finished.of_complete (Expression.complete_of_read hbase)).ne_nil
  refine Factor.readWith_ne_none (f := .power base e) (.inr (.inl ?_))
  simp only [Factor.readPower, hsplit, bind, Option.bind_some, hempty, hexponent, hbase, hread]
  rfl

/-- An operand with an exponent is read as a factor. -/
theorem IsOperand.readWith_power (h : IsOperand calls ts) (ht : t.kind = .caret)
    (hes : IsExponent braced es) : Factor.readWith Expression.read (ts ++ t :: es) ≠ none := by
  obtain ⟨base, hbase⟩ := h.exists_read
  exact Factor.readWith_power h.level hbase ht hes

/-- An operand in parentheses. -/
theorem IsOperand.exists_paren (h : IsOperand calls ts) (hparen : ts.head?.map (·.kind) = some .openParen) :
    ∃ o as c a, ts = o :: as ++ [c] ∧ o.kind = .openParen ∧ c.kind = .closeParen ∧
      Expression.read as = some a := by
  obtain ⟨o, us, rfl, -⟩ := h.exists_first
  have ho : o.kind = .openParen := Option.some.inj hparen
  obtain ⟨f, hread, hoperand, -⟩ := h
  rcases (Factor.parsed_of_readWith hread).of_open (by rw [ho]; rfl) with
    hpower | ⟨as, c, a, rfl, hc, ha, -⟩
  · rw [Factor.isOperand, hpower, Bool.not_true, Bool.and_false] at hoperand
    exact absurd hoperand Bool.false_ne_true
  · rw [ho] at hc
    exact ⟨o, as, c, a, rfl, ho, (Option.some.inj hc).symm, ha⟩

/-- A power is read from a base and an exponent. -/
theorem Factor.exists_of_isPower (h : readWith Expression.read ts = some f) (hpower : f.isPower = true) :
    ∃ bases t es base exponent, ts = bases ++ t :: es ∧ t.kind = .caret ∧
      splitCaret 0 ts = some (bases, es) ∧ Expression.read bases = some base ∧ IsExponent false es ∧
        f = .power base exponent := by
  have hread := readPower_of_isPower h hpower
  unfold readPower at hread
  obtain ⟨⟨bases, es⟩, hsplit, hread⟩ := Option.bind_eq_some_iff.1 hread
  dsimp only at hread
  split at hread
  · cases hread
  obtain ⟨exponents, hexponents, hread⟩ := Option.bind_eq_some_iff.1 hread
  obtain ⟨base, hbase, hread⟩ := Option.bind_eq_some_iff.1 hread
  obtain ⟨exponent, hexponent, hread⟩ := Option.bind_eq_some_iff.1 hread
  obtain ⟨t, ht, hts⟩ := exists_of_splitCaret hsplit
  exact ⟨bases, t, es, base, exponent, hts, ht, hsplit, hbase,
    ⟨exponents, exponent, hexponents, hexponent, fun hno => absurd hno Bool.false_ne_true⟩,
    (Option.some.inj hread).symm⟩

theorem splitCaret_of_append {depth : Int} {bases : List Token}
    (h : Factor.splitCaret depth ts = some (bases, es)) :
    Factor.splitCaret depth (ts ++ rest) = some (bases, es ++ rest) := by
  induction ts generalizing depth bases with
  | nil => cases h
  | cons t ts ih =>
    rw [Factor.splitCaret] at h
    rw [List.cons_append, Factor.splitCaret]
    split
    · next hcaret =>
      rw [if_pos hcaret] at h
      obtain ⟨rfl, rfl⟩ := Prod.mk.inj (Option.some.inj h)
      rfl
    · next hcaret =>
      rw [if_neg hcaret] at h
      obtain ⟨⟨bases', es'⟩, h', heq⟩ := Option.map_eq_some_iff.1 h
      obtain ⟨rfl, rfl⟩ := Prod.mk.inj heq
      rw [ih h']
      rfl

end Readers

namespace Chain

variable {written calls started : Bool} {t : Token} {ts es first more rest : List Token} {f : Factor}

/-- Behind a power that was read the chain goes on. -/
theorem behind_power (h : Chain written calls started (first ++ rest))
    (hread : Factor.readWith Expression.read first = some f) (hpower : f.isPower = true) :
    Chain written calls true rest := by
  obtain ⟨bases, t, es, base, exponent, rfl, ht, hsplit, -, hes, -⟩ := Factor.exists_of_isPower hread hpower
  obtain ⟨es', rest', heq, hes', hrest⟩ := h.of_splitCaret (splitCaret_of_append hsplit)
  rw [(hes'.eq_of_append hes heq.symm).2] at hrest
  exact hrest

/-- What is read where an operand stands is a power or an operand. -/
theorem isOperand_of_readWith (hts : IsOperand calls ts)
    (hread : Factor.readWith Expression.read (ts ++ more) = some f) (hpower : f.isPower = false) :
    IsOperand true (ts ++ more) := by
  refine ⟨f, hread, ?_, rfl⟩
  obtain ⟨t, us, rfl, hoperation, hlog⟩ := hts.exists_first
  rw [List.cons_append] at hread
  cases f with
  | power => exact absurd hpower.symm Bool.false_ne_true
  | unary g a =>
    generalize hall : t :: (us ++ more) = all at hread
    cases Factor.parsed_of_readWith hread with
    | unary ht _ _ =>
      rw [(List.cons.inj hall).1, ht] at hoperation
      exact absurd hoperation.symm Bool.false_ne_true
  | logarithm base a =>
    generalize hall : t :: (us ++ more) = all at hread
    cases Factor.parsed_of_readWith hread with
    | logarithm ht _ _ _ _ _ => exact absurd ((List.cons.inj hall).1 ▸ ht) hlog
    | logarithmOfToken ht _ _ _ => exact absurd ((List.cons.inj hall).1 ▸ ht) hlog
  | _ => rfl

/-- Behind the longest factor that starts with an operand the chain goes on.  The factor can be a call of
which the operand is the name. -/
theorem behind_operand (h : Chain written calls true (more ++ rest)) (hts : IsOperand calls ts)
    (hf : Factor.IsLongest Expression.read (ts ++ more) rest f) : Chain written calls true rest := by
  by_cases hpower : f.isPower = true
  · have hall : Chain written calls true (ts ++ (more ++ rest)) := .operand hts h
    rw [← List.append_assoc] at hall
    exact hall.behind_power hf.reads hpower
  · rw [Bool.not_eq_true] at hpower
    have hfirst := isOperand_of_readWith hts hf.reads hpower
    rcases hts.eq_of_append hfirst with rfl | ⟨x, o, as, c, -, rfl, ho, hc, has⟩
    · exact h
    · rcases @of_group written calls true o (as ++ [c]) rest h (by rw [ho]; rfl)
        (.group (closer_paren ho hc) has) with hrest | ⟨t, es, behind, rfl, ht, hes, -⟩
      · exact hrest
      · exact absurd (hf.longest _ (List.cons_ne_nil t es) (List.prefix_append _ behind))
          (hfirst.readWith_power ht hes)

/-- Behind the longest factor that starts with the base of a power the chain goes on. -/
theorem behind_base (h : Chain written calls true rest) (hts : IsOperand calls ts) (ht : t.kind = .caret)
    (hes : IsExponent written es) {behind : List Token} (heq : t :: es ++ rest = more ++ behind)
    (hf : Factor.IsLongest Expression.read (ts ++ more) behind f) : Chain written calls true behind := by
  by_cases hpower : f.isPower = true
  · have hall : Chain written calls true (ts ++ (t :: es ++ rest)) := .power hts ht hes h
    rw [heq, ← List.append_assoc] at hall
    exact hall.behind_power hf.reads hpower
  · rw [Bool.not_eq_true] at hpower
    have hfirst := isOperand_of_readWith hts hf.reads hpower
    rcases hts.eq_of_append hfirst with rfl | ⟨x, o, as, c, -, rfl, ho, -⟩
    · exact absurd (hf.longest _ (List.cons_ne_nil t es) ⟨rest, heq⟩) (hfirst.readWith_power ht hes)
    · rw [← (List.cons.inj heq).1, ht] at ho
      cases ho

/-- A chain that starts with a parenthesis starts with a group. -/
theorem exists_paren (h : Chain written calls started ts)
    (hparen : ts.head?.map (·.kind) = some .openParen) : ∃ o as c a rest, ts = o :: as ++ [c] ++ rest ∧
      o.kind = .openParen ∧ c.kind = .closeParen ∧ Expression.read as = some a := by
  have hgroup : ∀ {calls : Bool} {ts rest : List Token}, IsOperand calls ts →
      (ts ++ rest).head?.map (·.kind) = some .openParen → ∃ o as c a rest',
        ts ++ rest = o :: as ++ [c] ++ rest' ∧ o.kind = .openParen ∧ c.kind = .closeParen ∧
          Expression.read as = some a := by
    intro calls ts rest hts hparen
    obtain ⟨t, us, rfl, -⟩ := id hts.exists_first
    obtain ⟨o, as, c, a, heq, ho, hc, ha⟩ := hts.exists_paren hparen
    exact ⟨o, as, c, a, rest, by rw [heq], ho, hc, ha⟩
  cases h with
  | nil => cases hparen
  | separator ht _ _ =>
    rcases ht with ht | ⟨ht, -⟩ <;> exact absurd (Option.some.inj hparen) (by simp [ht])
  | operand hts _ => exact hgroup hts hparen
  | power hts _ _ _ => exact hgroup hts hparen
  | head hfront _ _ _ =>
    obtain ⟨t, us, rfl, ht⟩ := hfront.exists_first
    rcases ht with ht | ⟨f, ht⟩ <;> exact absurd (Option.some.inj hparen) (by simp [ht])

/-- A function takes all tokens behind it if they are accepted and do not end with a parenthesis. -/
theorem readWith_function {front : List Token} (hfront : Factor.IsHead front) (hinline : Inline ts)
    (hne : ts ≠ []) (hts : Item.Accepted false ts) (hlast : ts.getLast?.map (·.kind) ≠ some .closeParen) :
    Factor.readWith Expression.read (front ++ ts) ≠ none := by
  obtain ⟨a, ha⟩ := hts.exists_read hinline hne
  exact hfront.readWith_ne_none (Factor.argumentTokens_eq_self hne hlast) ha

/-- Chains of less than `n` tokens are accepted if they are written as factors are, or do not end with a
parenthesis. -/
def AcceptedBelow (written : Bool) (n : Nat) : Prop :=
  ∀ (calls started : Bool) (ts : List Token), ts.length < n → Chain written calls started ts → Inline ts →
    (written = true ∨ ts.getLast?.map (·.kind) ≠ some .closeParen) → Item.Accepted started ts

/-- What is behind a factor is shorter, and ends in the same way. -/
theorem AcceptedBelow.behind (hbelow : AcceptedBelow written (first ++ rest).length)
    (hinline : Inline (first ++ rest))
    (hlast : written = true ∨ (first ++ rest).getLast?.map (·.kind) ≠ some .closeParen)
    (hf : Factor.IsLongest Expression.read first rest f) (hrest : Chain written calls true rest) :
    Item.Accepted true rest := by
  have hfirst := List.length_pos_iff.2 (Factor.parsed_of_readWith hf.reads).ne_nil
  refine hbelow calls true rest (by rw [List.length_append]; omega) hrest
    (hinline.of_append_right (complete_first hf).level) (hlast.imp_right fun hno => ?_)
  by_cases hnil : rest = []
  · simp [hnil]
  · rwa [List.getLast?_append_of_ne_nil _ hnil] at hno

/-- A function takes the bracket behind it, and what it reads together with the bracket.  The chain goes
on behind that, because the function also takes the exponent of what it ends with. -/
theorem AcceptedBelow.of_paren {front : List Token} (hfront : Factor.IsHead front)
    (hbelow : AcceptedBelow true (front ++ rest).length) (hinline : Inline (front ++ rest))
    (hparen : rest.head?.map (·.kind) = some .openParen) (hrest : Chain true false false rest) :
    Item.Accepted started (front ++ rest) := by
  have hrestInline : Inline rest := hinline.of_append_right (hfront.level.mono fun _ _ => rfl)
  obtain ⟨t, us, rfl, -⟩ := hfront.exists_first
  obtain ⟨o, as, c, a, tail, rfl, ho, hc, ha⟩ := hrest.exists_paren hparen
  obtain ⟨more, behind, g, rfl, hg⟩ := Factor.exists_longest
    (hfront.readWith_ne_none (Factor.argumentTokens_eq_some ho hc) ha) tail
  have heq : t :: us ++ (o :: as ++ [c] ++ (more ++ behind)) =
      t :: us ++ (o :: as ++ [c]) ++ more ++ behind := by simp
  have hfinished : Finished (o :: as ++ [c] ++ more) := by
    refine hfront.finished_of_append ?_
    rw [← List.append_assoc]
    exact .of_complete (complete_first hg)
  rcases hrest.split (List.append_assoc _ _ _).symm hfinished with
    hchain | ⟨t', es, rest', rfl, ht', hes, -, hchain⟩
  · rw [heq] at hbelow hinline
    exact (hbelow.behind hinline (.inl rfl) hg hchain).cons heq hfront.first_ne.1 hfront.first_ne.2 hg
  · -- The exponent behind the argument belongs to it, so what was read was not the longest.
    have hargument : Inline (o :: as ++ [c] ++ more ++ t' :: es) :=
      hrestInline.of_prefix ⟨rest', by simp⟩
    have hlength : (o :: as ++ [c] ++ more ++ t' :: es).length <
        (t :: us ++ (o :: as ++ [c] ++ (more ++ (t' :: es ++ rest')))).length := by
      simp only [List.length_append, List.length_cons]
      omega
    have haccepted := hbelow false false _ hlength hchain hargument (.inl rfl)
    obtain ⟨o', within, c', rfl, -, hc', -⟩ := hes.exists_braces
    have hread := readWith_function hfront hargument (by simp) haccepted
      (by simp [List.getLast?_cons, hc'])
    refine absurd (hg.longest _ (List.cons_ne_nil t' _) (List.prefix_append _ rest')) ?_
    simpa using hread

/-- A chain is accepted if it is written as factors are, or does not end with a parenthesis. -/
theorem accepted (h : Chain written calls started ts) (hinline : Inline ts)
    (hlast : written = true ∨ ts.getLast?.map (·.kind) ≠ some .closeParen) : Item.Accepted started ts := by
  generalize hn : ts.length = n
  induction n using Nat.strongRecOn generalizing calls started ts with
  | _ n ih =>
    have hbelow : AcceptedBelow written ts.length := fun calls started us hus h hinline hlast =>
      ih us.length (hn ▸ hus) h hinline hlast rfl
    cases h with
    | nil => exact ⟨[], .nil⟩
    | @separator _ t u us ht hu hrest =>
      have hinline' : Inline (u :: us) := by
        rcases ht with ht | ⟨ht, -⟩ <;> exact inline_behind hinline (by rw [ht]; rfl) (by rw [ht]; rfl)
      have haccepted := hbelow _ _ (u :: us) (Nat.lt_succ_self _) hrest hinline' hlast
      exact haccepted.separator (ht.imp_right fun hdiv => hdiv.1) hu
    | @operand _ _ ts rest hts hrest =>
      obtain ⟨t, us, rfl, hoperation, -⟩ := hts.exists_first
      obtain ⟨f, hf, -⟩ := id hts
      obtain ⟨more, behind, g, rfl, hg⟩ :=
        Factor.exists_longest (by rw [hf]; exact Option.some_ne_none f) rest
      have heq : t :: us ++ (more ++ behind) = t :: us ++ more ++ behind := (List.append_assoc _ _ _).symm
      have hchain := hrest.behind_operand hts hg
      rw [heq] at hbelow hinline hlast
      exact (hbelow.behind hinline hlast hg hchain).cons heq (ne_of_isOperation hoperation rfl)
        (ne_of_isOperation hoperation rfl) hg
    | @power _ _ t ts es rest hts ht hes hrest =>
      obtain ⟨u, us, rfl, hoperation, -⟩ := hts.exists_first
      obtain ⟨f, hf, -⟩ := id hts
      obtain ⟨more, behind, g, hmore, hg⟩ :=
        Factor.exists_longest (by rw [hf]; exact Option.some_ne_none f) (t :: es ++ rest)
      have heq : u :: us ++ (t :: es ++ rest) = u :: us ++ more ++ behind := by
        rw [hmore, List.append_assoc]
      have hchain := hrest.behind_base hts ht hes hmore hg
      rw [heq] at hbelow hinline hlast
      exact (hbelow.behind hinline hlast hg hchain).cons heq (ne_of_isOperation hoperation rfl)
        (ne_of_isOperation hoperation rfl) hg
    | @head calls _ front rest hfront hne hparen hrest =>
      rw [List.getLast?_append_of_ne_nil _ hne] at hlast
      by_cases hend : rest.getLast?.map (·.kind) = some .closeParen
      · obtain rfl := hlast.resolve_right fun hno => hno hend
        rw [Bool.not_true, Bool.and_false] at hrest
        exact hbelow.of_paren hfront hinline (hparen rfl) hrest
      · -- The function takes everything.
        have hrestInline : Inline rest := hinline.of_append_right (hfront.level.mono fun _ _ => rfl)
        obtain ⟨t, us, rfl, -⟩ := hfront.exists_first
        have haccepted := hbelow _ _ rest (by rw [List.length_append, List.length_cons]; omega) hrest
          hrestInline (.inr hend)
        obtain ⟨f, hf⟩ := Option.ne_none_iff_exists'.1
          (readWith_function hfront hrestInline hne haccepted hend)
        exact Item.Accepted.single hfront.first_ne.1 hfront.first_ne.2 hf

end Chain

end ImplicitCurves

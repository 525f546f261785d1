import ImplicitCurves.Proofs.Notation.Calls

/-!
# Cutting chains

A chain can be cut behind any of its tokens at which nothing is missing.  What stands in front of the cut
is a chain, and behind it the tokens go on like a chain, or with an exponent, or with the arguments of a
call that has its name in front of the cut: main statement `Chain.cut`.
-/

namespace ImplicitCurves

/-- An expression that starts with a parenthesis starts with a group. -/
theorem Expression.exists_group {o : Token} {ts : List Token} {e : Expression} (h : read (o :: ts) = some e)
    (ho : o.kind = .openParen) : ∃ as c a rest, o :: ts = o :: as ++ [c] ++ rest ∧
      c.kind = .closeParen ∧ read as = some a := by
  have hcomplete := complete_of_read h
  obtain ⟨items⟩ := e
  rw [read_eq, readWith_eq_some] at h
  obtain ⟨first, parts, hsplit⟩ := List.exists_cons_of_ne_nil (splitSigns_ne_nil (o.depthAfter 0) ts)
  have hparts : splitItems (o :: ts) = (o :: first) :: parts := by
    rw [splitItems, hsplit]
    rfl
  have htokens : o :: first ++ parts.flatten = o :: ts := by
    rw [← List.flatten_cons, ← hparts, flatten_splitItems]
  rw [hparts] at h
  obtain ⟨i, is, hparsed, -, -⟩ := List.forall₂_cons_left_iff.1 h.2
  cases hparsed with
  | plus ht _ _ => exact absurd (ho.symm.trans ht) (by simp)
  | minus ht _ _ => exact absurd (ho.symm.trans ht) (by simp)
  | unsigned ht _ hfactored =>
    have hinline : Inline (o :: first) :=
      inline_of_unsigned ht (inline_of_mem_splitItems hcomplete (hparts ▸ List.mem_cons_self))
    have hhead : (o :: first).head?.map (·.kind) = some .openParen := congrArg some ho
    obtain ⟨o', as, c, a, rest, heq, -, hc, ha⟩ := (hfactored.chain hinline).exists_paren hhead
    obtain ⟨rfl, -⟩ := List.cons.inj heq
    refine ⟨as, c, a, rest ++ parts.flatten, ?_, hc, ha⟩
    rw [← htokens, heq, List.append_assoc]

/-- An exponent is a unit, also if it is in parentheses. -/
theorem IsExponent.unit {braced : Bool} {es : List Token} (h : IsExponent braced es) : IsUnit es := by
  have hends := h.closesAtEnd_or_isAtom
  obtain ⟨exponent, e, hexponent, hread, -⟩ := h
  cases Factor.of_exponentTokens hexponent with
  | single => exact .atom (Expression.isAtom_of_read hread)
  | brace ho hc => exact .group (closer_brace ho hc) (Expression.complete_of_read hread)
  | @paren o c within ho hc =>
    obtain ⟨as, c', a, rest, heq, hc', ha⟩ := Expression.exists_group hread ho
    have has := Expression.complete_of_read ha
    have hgroup : closesAtEnd (o :: as ++ [c']) 0 = true :=
      @closesAtEnd_eq _ [] [] as o c' (closer_paren ho hc') has.level
    have hcloses : closesAtEnd (o :: within ++ [c]) 0 = true := by
      refine hends.resolve_right ?_
      rintro ⟨t, hsingle, -⟩
      simpa using congrArg List.length hsingle
    have htokens : o :: within ++ [c] ++ [] = o :: as ++ [c'] ++ rest := by simpa using heq
    rw [eq_of_closesAtEnd hcloses hgroup htokens]
    exact .group (closer_paren ho hc') has

namespace IsOperand

variable {ts us vs rest : List Token}

/-- What is finished goes on at least up to the end of the operand that it starts with, or it is the name
of a call. -/
theorem exists_tail (h : IsOperand true ts) (hus : Finished us) (heq : ts ++ rest = us ++ vs) :
    (∃ tail, us = ts ++ tail ∧ rest = tail ++ vs) ∨ ∃ t o as c name, us = [t] ∧ ts = t :: o :: as ++ [c] ∧
      t.kind = .letter name ∧ name ≠ 'e' ∧ o.kind = .openParen ∧ c.kind = .closeParen ∧
        Token.AllComplete as := by
  rcases h.cases_of with ⟨t, rfl, ht⟩ | ⟨s, o, as, c, o', bs, c', rfl, hs, ho, hc, ho', hc', has, hbs⟩ |
    ⟨o, as, c, rfl, hc, has⟩ | ⟨-, t, o, as, c, name, rfl, ht, hname, ho, hc, has⟩
  · exact .inl ((IsUnit.atom ht).exists_tail hus heq)
  · exact .inl ((IsUnit.fraction hs ho hc ho' hc' has hbs).exists_tail hus heq)
  · exact .inl ((IsUnit.group hc has).exists_tail hus heq)
  · have hatom : IsUnit [t] := .atom (by rw [ht]; rfl)
    have hgroup : IsUnit (o :: as ++ [c]) := .group (closer_paren ho hc) has
    have htokens : [t] ++ (o :: as ++ [c] ++ rest) = us ++ vs := heq
    obtain ⟨tail, rfl, hbehind⟩ := hatom.exists_tail hus htokens
    by_cases htail : tail = []
    · rw [htail]
      exact .inr ⟨t, o, as, c, name, rfl, rfl, ht, hname, ho, hc, has⟩
    · obtain ⟨tail', rfl, hrest⟩ := hgroup.exists_tail (hus.of_append hatom.complete htail) hbehind
      exact .inl ⟨tail', rfl, hrest⟩

end IsOperand

/-- Two functions at the same place have the same tokens in front of their arguments. -/
theorem Factor.IsHead.eq_of_append {front front' rest rest' : List Token} (h : IsHead front)
    (h' : IsHead front') (heq : front ++ rest = front' ++ rest') : front = front' ∧ rest = rest' := by
  have hsame : front = front' := by
    cases h with
    | function ht =>
      cases h' with
      | function _ => rw [(List.cons.inj heq).1]
      | _ => simp_all
    | @logarithm t o c bases base ht ho hc hbase =>
      cases h' with
      | function _ => simp_all
      | @logarithm t' o' c' bases' base' _ _ hc' hbase' =>
        have htokens : t :: o :: (bases ++ c :: rest) = t' :: o' :: (bases' ++ c' :: rest') := by
          simpa using heq
        obtain ⟨rfl, hbehind⟩ := List.cons.inj htokens
        obtain ⟨rfl, hgroup⟩ := List.cons.inj hbehind
        obtain ⟨rfl, rfl, -⟩ := (Expression.complete_of_read hbase).eq_of_close
          (Expression.complete_of_read hbase') (by rw [hc]; rfl) (by rw [hc']; rfl) hgroup
        rfl
      | @logarithmOfToken t' u base' _ hbase' =>
        obtain ⟨rfl, -⟩ := List.cons.inj (List.cons.inj heq).2
        exact absurd hbase' (Expression.read_openCurly ho base')
    | @logarithmOfToken t u base ht hbase =>
      cases h' with
      | function _ => simp_all
      | @logarithm t' o c bases base' _ ho _ _ =>
        have htokens : t :: u :: rest = t' :: o :: (bases ++ c :: rest') := by simpa using heq
        obtain ⟨rfl, -⟩ := List.cons.inj (List.cons.inj htokens).2
        exact absurd hbase (Expression.read_openCurly ho base)
      | @logarithmOfToken t' u' base' _ _ =>
        have htokens : t :: u :: rest = t' :: u' :: rest' := heq
        rw [(List.cons.inj htokens).1, (List.cons.inj (List.cons.inj htokens).2).1]
  subst hsame
  exact ⟨rfl, List.append_cancel_left heq⟩

namespace Chain

section Start

variable {calls started : Bool} {t : Token} {front rest ts : List Token}

/-- A chain starts with a separator, or it can also stand where there is no factor yet. -/
theorem separator_or (h : Chain false calls started ts) : (∃ t u us, ts = t :: u :: us ∧ started = true ∧
    (t.kind = .mul ∨ t.kind = .div) ∧ Item.canFollowMul u = true ∧ Chain false calls true (u :: us)) ∨
      Chain false calls false ts := by
  cases h with
  | nil => exact .inr .nil
  | separator ht hu h => exact .inl ⟨_, _, _, rfl, rfl, ht.imp_right fun hdiv => hdiv.1, hu, h⟩
  | operand hts h => exact .inr (.operand hts h)
  | power hts ht hes h => exact .inr (.power hts ht hes h)
  | head hfront hne hparen h => exact .inr (.head hfront hne hparen h)

/-- A chain never starts with a caret. -/
theorem first_ne_caret (h : Chain false calls started (t :: ts)) : t.kind ≠ .caret := by
  have hoperand : ∀ {us rest : List Token}, t :: ts = us ++ rest → IsOperand calls us → t.kind ≠ .caret := by
    intro us rest heq hus
    obtain ⟨u, us', rfl, hoperation, -⟩ := hus.exists_first
    rw [(List.cons.inj heq).1]
    exact ne_of_isOperation hoperation rfl
  generalize hall : t :: ts = all at h
  cases h with
  | nil => cases hall
  | separator ht _ _ =>
    rw [(List.cons.inj hall).1]
    rcases ht with ht | ⟨ht, -⟩ <;> rw [ht] <;> simp
  | operand hus _ => exact hoperand hall hus
  | power hus _ _ _ => exact hoperand hall hus
  | head hfront _ _ _ =>
    obtain ⟨u, us, rfl, hu⟩ := hfront.exists_first
    rw [(List.cons.inj hall).1]
    rcases hu with hu | ⟨f, hu⟩ <;> rw [hu] <;> simp

/-- Behind a separator stands what can follow one. -/
theorem behind_separator (h : Chain false calls started (t :: ts)) (ht : t.kind = .mul ∨ t.kind = .div) :
    started = true ∧ ∃ u us, ts = u :: us ∧ Item.canFollowMul u = true ∧ Chain false calls true (u :: us) := by
  rcases h.separator_or with ⟨t', u, us, heq, hstarted, -, hu, hrest⟩ | hno
  · obtain ⟨-, rfl⟩ := List.cons.inj heq
    exact ⟨hstarted, u, us, rfl, hu, hrest⟩
  · obtain ⟨u, us, heq, hmul, hdiv⟩ := hno.exists_first (List.cons_ne_nil t ts)
    rw [(List.cons.inj heq).1] at ht
    exact absurd ht (by simp [hmul, hdiv])

/-- What is behind a function is a chain that has not started. -/
theorem behind_head (h : Chain false calls started (front ++ rest)) (hfront : Factor.IsHead front) :
    Chain false calls false rest := by
  obtain ⟨t, us, rfl, ht⟩ := id hfront.exists_first
  have hoperand : ∀ {vs rest' : List Token}, t :: us ++ rest = vs ++ rest' → ¬ IsOperand calls vs := by
    intro vs rest' heq hvs
    obtain ⟨u, us', rfl, hoperation, hlog⟩ := hvs.exists_first
    obtain ⟨rfl, -⟩ := List.cons.inj heq
    rcases ht with ht | ⟨f, ht⟩
    · exact hlog ht
    · exact absurd hoperation (by rw [ht]; simp [TokenKind.isOperation])
  generalize hall : t :: us ++ rest = all at h
  cases h with
  | nil => cases hall
  | separator ht' _ _ =>
    obtain ⟨rfl, -⟩ := List.cons.inj hall
    rcases ht' with ht' | ⟨ht', -⟩
    · exact absurd ht' hfront.first_ne.1
    · exact absurd ht' hfront.first_ne.2
  | operand hts _ => exact absurd hts (hoperand hall)
  | power hts _ _ _ => exact absurd hts (hoperand hall)
  | head hfront' _ _ hrest =>
    obtain ⟨-, rfl⟩ := hfront.eq_of_append hfront' hall
    simpa using hrest

end Start

/-- What stands behind the tokens `us` of a chain: more of the chain, an exponent, or the arguments of a
call.  Such arguments are only part of a chain if there is a single one. -/
inductive Behind (us : List Token) : List Token → Prop
  | chain {vs : List Token} (h : Chain false true true vs) : Behind us vs
  | exponent {t : Token} {es rest : List Token} (ht : t.kind = .caret) (hes : IsExponent false es)
    (h : Chain false true true rest) : Behind us (t :: es ++ rest)
  | arguments {o c : Token} {name : Char} {as rest : List Token}
    (hlast : us.getLast?.map (·.kind) = some (.letter name)) (ho : o.kind = .openParen)
    (hc : c.kind = .closeParen) (has : Token.AllComplete as)
    (h : IsOperand true (o :: as ++ [c]) → Chain false true true (o :: as ++ [c] ++ rest)) :
    Behind us (o :: as ++ [c] ++ rest)

variable {started : Bool} {ts us vs front : List Token}

/-- What stands behind does not depend on how the tokens in front start. -/
theorem Behind.extend (h : Behind us vs) (hne : us ≠ []) (front : List Token) : Behind (front ++ us) vs := by
  cases h with
  | chain h => exact .chain h
  | exponent ht hes h => exact .exponent ht hes h
  | arguments hlast ho hc has h =>
    rw [← List.getLast?_append_of_ne_nil front hne] at hlast
    exact .arguments hlast ho hc has h

/-- A chain can be cut behind tokens that are finished. -/
theorem cut (h : Chain false true started ts) (heq : ts = us ++ vs) (hus : Finished us) :
    Chain false true started us ∧ Behind us vs := by
  generalize hcalls : true = calls at h
  induction h generalizing us with
  | nil => exact absurd (List.append_eq_nil_iff.1 heq.symm).1 hus.ne_nil
  | @separator _ t u rest ht hu _ ih =>
    subst hcalls
    obtain ⟨v, us, rfl⟩ := List.exists_cons_of_ne_nil hus.ne_nil
    obtain ⟨rfl, htail⟩ := List.cons.inj heq
    have hoperation : t.kind.isOperation = true := by
      rcases ht with ht | ⟨ht, -⟩ <;> rw [ht] <;> rfl
    have hfinished := hus.of_cons hoperation
    obtain ⟨hchain, hbehind⟩ := ih htail hfinished rfl
    obtain ⟨w, ws, rfl⟩ := List.exists_cons_of_ne_nil hfinished.ne_nil
    obtain ⟨rfl, -⟩ := List.cons.inj htail
    exact ⟨.separator ht hu hchain, hbehind.extend hfinished.ne_nil [t]⟩
  | @operand _ _ ts rest hts hrest ih =>
    subst hcalls
    rcases hts.exists_tail hus heq with ⟨tail, rfl, rfl⟩ |
      ⟨t, o, as, c, name, rfl, rfl, ht, hname, ho, hc, has⟩
    · by_cases htail : tail = []
      · subst htail
        rw [List.append_nil]
        exact ⟨.single hts, .chain hrest⟩
      · have hfinished := hus.of_append hts.complete htail
        obtain ⟨hchain, hbehind⟩ := ih rfl hfinished rfl
        exact ⟨.operand hts hchain, hbehind.extend htail ts⟩
    · obtain rfl : o :: as ++ [c] ++ rest = vs := (List.cons.inj heq).2
      refine ⟨.single ((Factor.Written.variable ht hname).isOperand rfl rfl), ?_⟩
      exact .arguments (congrArg some ht) ho hc has fun hgroup => .operand hgroup hrest
  | @power _ _ t ts es rest hts ht hes hrest ih =>
    subst hcalls
    rcases hts.exists_tail hus heq with ⟨tail, rfl, htail⟩ |
      ⟨u, o, as, c, name, rfl, rfl, hu, hname, ho, hc, has⟩
    · cases tail with
      | nil =>
        rw [List.append_nil, ← List.nil_append vs, ← htail]
        exact ⟨.single hts, .exponent ht hes hrest⟩
      | cons w ws =>
        obtain ⟨rfl, hbehind⟩ := List.cons.inj htail
        have hexponent := (hus.of_append hts.complete (List.cons_ne_nil t ws)).of_cons (by rw [ht]; rfl)
        obtain ⟨more, rfl, rfl⟩ := hes.unit.exists_tail hexponent hbehind
        by_cases hmore : more = []
        · subst hmore
          rw [List.append_nil]
          exact ⟨.single_power hts ht hes, .chain hrest⟩
        · have hfinished := hexponent.of_append hes.complete hmore
          obtain ⟨hchain, hbehind⟩ := ih rfl hfinished rfl
          refine ⟨.power hts ht hes hchain, ?_⟩
          have hlonger := hbehind.extend hmore (ts ++ t :: es)
          rwa [List.append_assoc] at hlonger
    · obtain rfl : o :: as ++ [c] ++ (t :: es ++ rest) = vs := (List.cons.inj heq).2
      refine ⟨.single ((Factor.Written.variable hu hname).isOperand rfl rfl), ?_⟩
      exact .arguments (congrArg some hu) ho hc has fun hgroup => .power hgroup ht hes hrest
  | @head _ _ front rest hfront hne hparen _ ih =>
    subst hcalls
    obtain ⟨tail, rfl, rfl⟩ := hfront.exists_tail hus heq
    have hfinished := hfront.finished_of_append hus
    obtain ⟨hchain, hbehind⟩ := ih rfl hfinished rfl
    refine ⟨.head hfront hfinished.ne_nil ?_ hchain, hbehind.extend hfinished.ne_nil front⟩
    exact fun hno => absurd hno Bool.false_ne_true

end Chain

end ImplicitCurves

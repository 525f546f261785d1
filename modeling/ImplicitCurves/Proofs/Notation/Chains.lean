import ImplicitCurves.Proofs.Notation.Units

/-!
# Chains of units

The tokens of an item as a chain of units, independent of which of them are read as one factor.  A chain
can only be cut between two units, or in front of a caret: main statements `Chain.of_splitCaret`,
`Chain.of_group` and `Chain.split`.
-/

namespace ImplicitCurves

namespace Factor.IsHead

variable {front ts us rest : List Token}

theorem exists_first (h : IsHead front) : ∃ t rest, front = t :: rest ∧
    (t.kind = .logBase ∨ ∃ f, t.kind = .function f) := by
  cases h with
  | function ht => exact ⟨_, _, rfl, .inr ⟨_, ht⟩⟩
  | logarithm ht ho hc hbase => exact ⟨_, _, rfl, .inl ht⟩
  | logarithmOfToken ht hbase => exact ⟨_, _, rfl, .inl ht⟩

theorem first_ne {t : Token} {us : List Token} (h : IsHead (t :: us)) : t.kind ≠ .mul ∧ t.kind ≠ .div := by
  obtain ⟨u, us, heq, hu⟩ := h.exists_first
  rw [(List.cons.inj heq).1]
  rcases hu with hu | ⟨f, hu⟩ <;> rw [hu] <;> simp

/-- Behind a function its argument is demanded. -/
theorem behind_eq (h : IsHead front) :
    Pending.behind ⟨.operand, []⟩ (front.map (·.kind)) = some ⟨.operand, []⟩ := by
  cases h with
  | function ht =>
    rw [List.map_singleton, ht]
    rfl
  | @logarithm t o c bases base ht ho hc hbase =>
    have hclosed : Pending.behind ⟨.operand, [⟨true, .operand⟩]⟩ (bases.map (·.kind) ++ [.closeCurly]) =
        some ⟨.operand, []⟩ := (Expression.complete_of_read hbase).closed rfl .operand []
    simp only [List.map_append, List.map_cons, List.map_nil, ht, ho, hc]
    exact hclosed
  | @logarithmOfToken t u base ht hbase =>
    have hatom := Expression.isAtom_of_read hbase
    rw [List.map_cons, List.map_singleton, ht]
    cases hk : u.kind <;> rw [hk] at hatom <;> first | rfl | exact absurd hatom Bool.false_ne_true

theorem unfinished (h : IsHead front) : Unfinished .operand (front.map (·.kind)) := by
  cases h with
  | function ht =>
    rw [List.map_singleton, ht]
    exact Unfinished.nil.cons rfl (by decide)
  | @logarithm t o c bases base ht ho hc hbase =>
    have hnil : Unfinished .operand [] := .nil
    have hgroup : Unfinished .base (.openCurly :: bases.map (·.kind) ++ .closeCurly :: []) :=
      .group rfl rfl (Expression.complete_of_read hbase) hnil fun hno => absurd rfl hno
    simp only [List.map_append, List.map_cons, List.map_nil, ht, ho, hc]
    exact hgroup.cons rfl (by decide)
  | @logarithmOfToken t u base ht hbase =>
    have hatom := Expression.isAtom_of_read hbase
    rw [List.map_cons, List.map_singleton, ht]
    have hnil : Unfinished .operand [] := .nil
    have hbehind : Unfinished .base [u.kind] := by
      refine hnil.cons ?_ (by decide)
      cases hk : u.kind <;> rw [hk] at hatom <;> first | rfl | exact absurd hatom Bool.false_ne_true
    exact hbehind.cons rfl (by decide)

/-- No beginning of a function without its argument is finished. -/
theorem not_finished (h : IsHead front) (hus : us <+: front) : ¬ Finished us := by
  intro hfinished
  by_cases heq : us = front
  · rw [heq, Finished, h.behind_eq] at hfinished
    exact absurd (congrArg Pending.demand (Option.some.inj hfinished)) (by decide)
  · refine h.unfinished _ (hus.map _) (fun hmap => heq ?_) (fun _ => by decide) hfinished
    exact hus.eq_of_length (by simpa using congrArg List.length hmap)

/-- What is finished goes on behind the function that it starts with. -/
theorem exists_tail (h : IsHead front) (hus : Finished us) (heq : front ++ ts = us ++ rest) :
    ∃ tail, us = front ++ tail ∧ ts = tail ++ rest := by
  rcases List.append_eq_append_iff.1 heq with ⟨tail, hus', hts⟩ | ⟨tail, hfront, -⟩
  · exact ⟨tail, hus', hts⟩
  · exact absurd hus (h.not_finished ⟨tail, hfront.symm⟩)

/-- The argument of a function is finished or not as it is on its own. -/
theorem finished_iff (h : IsHead front) : Finished (front ++ ts) ↔ Finished ts := by
  rw [Finished, List.map_append, Pending.behind_append, h.behind_eq]
  rfl

theorem finished_of_append (h : IsHead front) (hts : Finished (front ++ ts)) : Finished ts :=
  h.finished_iff.1 hts

end Factor.IsHead

/-- The tokens of an item, cut into operands, functions and exponents.  With `written` they are such as
are written: there are no divisions, an exponent stands in braces, an argument in parentheses, and there
are no calls behind a function.  There are no calls at all without `calls`, and no separator at the start
without `started`. -/
inductive Chain (written : Bool) : Bool → Bool → List Token → Prop
  | nil {calls started : Bool} : Chain written calls started []
  | separator {calls : Bool} {t u : Token} {us : List Token}
    (ht : t.kind = .mul ∨ t.kind = .div ∧ written = false) (hu : Item.canFollowMul u = true)
    (h : Chain written calls true (u :: us)) : Chain written calls true (t :: u :: us)
  | operand {calls started : Bool} {ts rest : List Token} (hts : IsOperand calls ts)
    (h : Chain written calls true rest) : Chain written calls started (ts ++ rest)
  | power {calls started : Bool} {t : Token} {ts es rest : List Token} (hts : IsOperand calls ts)
    (ht : t.kind = .caret) (hes : IsExponent written es) (h : Chain written calls true rest) :
    Chain written calls started (ts ++ (t :: es ++ rest))
  | head {calls started : Bool} {front rest : List Token} (hfront : Factor.IsHead front) (hne : rest ≠ [])
    (hparen : written = true → rest.head?.map (·.kind) = some .openParen)
    (h : Chain written (calls && !written) false rest) : Chain written calls started (front ++ rest)

namespace Chain

variable {written calls calls' started started' : Bool} {t : Token}
  {ts us vs es bases behind group rest : List Token}

theorem mono (h : Chain written calls started ts) (hcalls : calls = true → calls' = true)
    (hstarted : started = true → started' = true) : Chain written calls' started' ts := by
  have hoperand : ∀ {calls calls' : Bool} {ts : List Token}, (calls = true → calls' = true) →
      IsOperand calls ts → IsOperand calls' ts := by
    rintro calls calls' ts hcalls ⟨f, hf, hoperand, hcall⟩
    refine ⟨f, hf, hoperand, ?_⟩
    cases calls <;> cases calls' <;> first | exact hcall | exact absurd (hcalls rfl) Bool.false_ne_true | rfl
  induction h generalizing calls' started' with
  | nil => exact .nil
  | separator ht hu _ ih =>
    obtain rfl := hstarted rfl
    exact .separator ht hu (ih hcalls id)
  | operand hts _ ih => exact .operand (hoperand hcalls hts) (ih hcalls id)
  | power hts ht hes _ ih => exact .power (hoperand hcalls hts) ht hes (ih hcalls id)
  | @head calls _ _ _ hfront hne hparen _ ih =>
    refine .head hfront hne hparen (ih (fun hboth => ?_) id)
    rw [Bool.and_eq_true] at hboth ⊢
    exact ⟨hcalls hboth.1, hboth.2⟩

theorem single (hts : IsOperand calls ts) : Chain written calls started ts := by
  have hoperand : Chain written calls started (ts ++ []) := .operand hts .nil
  rw [List.append_nil] at hoperand
  exact hoperand

theorem single_power (hts : IsOperand calls ts) (ht : t.kind = .caret) (hes : IsExponent written es) :
    Chain written calls started (ts ++ t :: es) := by
  have hpower : Chain written calls started (ts ++ (t :: es ++ [])) := .power hts ht hes .nil
  rw [List.append_nil] at hpower
  exact hpower

/-- Behind the first caret outside of groups stand an exponent and the rest of the chain. -/
theorem of_splitCaret (h : Chain written calls started ts)
    (hsplit : Factor.splitCaret 0 ts = some (bases, behind)) : ∃ es rest, behind = es ++ rest ∧
      IsExponent written es ∧ Chain written calls true rest := by
  have hskip : ∀ {front rest bases : List Token}, Level TokenKind.inFactor (front.map (·.kind)) →
      Factor.splitCaret 0 (front ++ rest) = some (bases, behind) →
      ∃ bases', Factor.splitCaret 0 rest = some (bases', behind) := by
    intro front rest bases hfront hsplit
    have happend := @splitCaret_append _ 0 0 front rest rfl hfront
    rw [Int.natCast_zero] at happend
    rw [happend] at hsplit
    obtain ⟨⟨bases', behind'⟩, hsplit', heq⟩ := Option.map_eq_some_iff.1 hsplit
    obtain ⟨-, rfl⟩ := Prod.mk.inj heq
    exact ⟨bases', hsplit'⟩
  induction h generalizing bases with
  | nil => cases hsplit
  | @separator calls t u us ht hu _ ih =>
    have hlevel : Level TokenKind.inFactor ([t].map (·.kind)) := by
      rcases ht with ht | ⟨ht, -⟩ <;> rw [List.map_singleton, ht] <;> rfl
    obtain ⟨bases', hsplit'⟩ := hskip hlevel hsplit
    exact ih hsplit'
  | operand hts _ ih =>
    obtain ⟨bases', hsplit'⟩ := hskip hts.level hsplit
    exact ih hsplit'
  | @power calls started t ts es rest hts ht hes hrest _ =>
    obtain ⟨bases', hsplit'⟩ := hskip hts.level hsplit
    have hcaret : Factor.splitCaret 0 (t :: (es ++ rest)) = some ([], es ++ rest) := by
      simp [Factor.splitCaret, ht]
    obtain ⟨-, rfl⟩ := Prod.mk.inj (Option.some.inj (hcaret.symm.trans hsplit'))
    exact ⟨es, rest, rfl, hes, hrest⟩
  | head hfront _ _ _ ih =>
    obtain ⟨bases', hsplit'⟩ := hskip hfront.level hsplit
    obtain ⟨es, rest, heq, hes, hrest⟩ := ih hsplit'
    exact ⟨es, rest, heq, hes, hrest.mono (fun hboth => (Bool.and_eq_true_iff.1 hboth).1) id⟩

/-- Behind a group the chain goes on, perhaps with the exponent of the group. -/
theorem of_group (h : Chain written calls started (t :: group ++ rest)) (ht : t.kind.isOpen = true)
    (hgroup : IsUnit (t :: group)) : Chain written calls true rest ∨ ∃ c es rest', rest = c :: es ++ rest' ∧
      c.kind = .caret ∧ IsExponent written es ∧ Chain written calls true rest' := by
  generalize hall : t :: group ++ rest = ts at h
  have hsame : ∀ {calls : Bool} {ts rest' : List Token}, IsOperand calls ts →
      t :: group ++ rest = ts ++ rest' → rest = rest' := by
    intro calls ts rest' hts heq
    obtain ⟨u, us, rfl, -⟩ := hts.exists_first
    obtain ⟨rfl, -⟩ := List.cons.inj heq
    exact (hgroup.eq_of_append (hts.isUnit_of_isOpen ht) heq).2
  cases h with
  | nil => cases hall
  | @separator _ u _ _ hu _ _ =>
    obtain ⟨rfl, -⟩ := List.cons.inj hall
    rcases hu with hu | ⟨hu, -⟩ <;> rw [hu] at ht <;> exact absurd ht Bool.false_ne_true
  | operand hts hrest => exact .inl (hsame hts hall ▸ hrest)
  | power hts hc hes hrest => exact .inr ⟨_, _, _, hsame hts hall, hc, hes, hrest⟩
  | head hfront _ _ _ =>
    obtain ⟨u, us, rfl, hu⟩ := hfront.exists_first
    obtain ⟨rfl, -⟩ := List.cons.inj hall
    rcases hu with hu | ⟨f, hu⟩ <;> rw [hu] at ht <;> exact absurd ht Bool.false_ne_true

/-- A chain as it is written can be cut behind tokens that are finished.  What is behind them goes on
like a chain, or with an exponent that belongs to them. -/
theorem split (h : Chain true false started ts) (heq : ts = us ++ vs) (hus : Finished us) :
    Chain true false true vs ∨ ∃ t es rest, vs = t :: es ++ rest ∧ t.kind = .caret ∧
      IsExponent true es ∧ Chain true false true rest ∧ Chain true false started (us ++ t :: es) := by
  generalize hcalls : false = calls at h
  induction h generalizing us with
  | nil => exact absurd (List.append_eq_nil_iff.1 heq.symm).1 hus.ne_nil
  | @separator _ t u rest ht hu _ ih =>
    obtain ⟨v, us, rfl⟩ := List.exists_cons_of_ne_nil hus.ne_nil
    obtain ⟨hv, htail⟩ := List.cons.inj heq
    subst hv hcalls
    have hoperation : t.kind.isOperation = true := by
      rcases ht with ht | ⟨ht, -⟩ <;> rw [ht] <;> rfl
    have hfinished := hus.of_cons hoperation
    refine (ih htail hfinished rfl).imp_right ?_
    rintro ⟨c, es, rest', rfl, hc, hes, hrest', hchain⟩
    obtain ⟨w, ws, rfl⟩ := List.exists_cons_of_ne_nil hfinished.ne_nil
    obtain ⟨rfl, -⟩ := List.cons.inj htail
    exact ⟨c, es, rest', rfl, hc, hes, hrest', .separator ht hu hchain⟩
  | @operand _ _ ts rest hts hrest ih =>
    subst hcalls
    obtain ⟨tail, rfl, rfl⟩ := hts.isUnit.exists_tail hus heq
    by_cases htail : tail = []
    · subst htail
      exact .inl hrest
    refine (ih rfl (hus.of_append hts.complete htail) rfl).imp_right ?_
    rintro ⟨c, es, rest', rfl, hc, hes, hrest', hchain⟩
    refine ⟨c, es, rest', rfl, hc, hes, hrest', ?_⟩
    rw [List.append_assoc]
    exact .operand hts hchain
  | @power _ begun t ts es rest hts ht hes hrest ih =>
    subst hcalls
    obtain ⟨tail, rfl, htail⟩ := hts.isUnit.exists_tail hus heq
    cases tail with
    | nil =>
      rw [List.append_nil]
      exact .inr ⟨t, es, rest, htail.symm, ht, hes, hrest, single_power hts ht hes⟩
    | cons w ws =>
      obtain ⟨rfl, hbehind⟩ := List.cons.inj htail
      have hexponent := (hus.of_append hts.complete (List.cons_ne_nil t ws)).of_cons (by rw [ht]; rfl)
      obtain ⟨more, rfl, rfl⟩ := hes.isUnit.exists_tail hexponent hbehind
      by_cases hmore : more = []
      · subst hmore
        exact .inl hrest
      refine (ih rfl (hexponent.of_append hes.complete hmore) rfl).imp_right ?_
      rintro ⟨c, es', rest', rfl, hc, hes', hrest', hchain⟩
      refine ⟨c, es', rest', rfl, hc, hes', hrest', ?_⟩
      have hpower : Chain true false begun (ts ++ (t :: es ++ (more ++ c :: es'))) :=
        .power hts ht hes hchain
      simpa using hpower
  | @head _ _ front rest hfront hne hparen _ ih =>
    subst hcalls
    obtain ⟨tail, rfl, rfl⟩ := hfront.exists_tail hus heq
    have hfinished := hfront.finished_of_append hus
    refine (ih rfl hfinished rfl).imp_right ?_
    rintro ⟨c, es, rest', rfl, hc, hes, hrest', hchain⟩
    refine ⟨c, es, rest', rfl, hc, hes, hrest', ?_⟩
    rw [List.append_assoc]
    refine .head hfront (by simp) (fun _ => ?_) hchain
    obtain ⟨w, ws, rfl⟩ := List.exists_cons_of_ne_nil hfinished.ne_nil
    exact hparen rfl

/-- A chain starts with a multiplication or a division only behind a factor. -/
theorem exists_first (h : Chain written calls false ts) (hne : ts ≠ []) :
    ∃ t rest, ts = t :: rest ∧ t.kind ≠ .mul ∧ t.kind ≠ .div := by
  have hoperand : ∀ {ts rest : List Token}, IsOperand calls ts →
      ∃ t rest', ts ++ rest = t :: rest' ∧ t.kind ≠ .mul ∧ t.kind ≠ .div := by
    intro ts rest hts
    obtain ⟨t, us, rfl, hoperation, -⟩ := hts.exists_first
    refine ⟨t, us ++ rest, rfl, fun ht => ?_, fun ht => ?_⟩ <;>
      exact absurd hoperation (by rw [ht]; decide)
  cases h with
  | nil => exact absurd rfl hne
  | operand hts _ => exact hoperand hts
  | power hts _ _ _ => exact hoperand hts
  | @head _ _ front rest hfront _ _ _ =>
    obtain ⟨t, us, rfl, -⟩ := hfront.exists_first
    exact ⟨t, us ++ rest, rfl, hfront.first_ne⟩

/-- Chains are put behind each other. -/
theorem append (h : Chain false true started ts) (hts : started = true ∨ ts ≠ [])
    (hus : Chain false true true us) : Chain false true started (ts ++ us) := by
  generalize hcalls : true = calls at h
  induction h with
  | nil =>
    subst hcalls
    obtain rfl := hts.resolve_right fun hno => hno rfl
    exact hus
  | separator ht hu _ ih =>
    subst hcalls
    exact .separator ht hu (ih (.inl rfl) rfl)
  | operand hts _ ih =>
    subst hcalls
    rw [List.append_assoc]
    exact .operand hts (ih (.inl rfl) rfl)
  | power hts ht hes _ ih =>
    subst hcalls
    rw [List.append_assoc, List.append_assoc]
    exact .power hts ht hes (ih (.inl rfl) rfl)
  | head hfront hne hparen _ ih =>
    subst hcalls
    rw [List.append_assoc]
    exact .head hfront (fun hnil => hne (List.append_eq_nil_iff.1 hnil).1)
      (fun hno => absurd hno Bool.false_ne_true) (ih (.inr hne) rfl)

theorem splitCaret_behind (hts : Level TokenKind.inFactor (ts.map (·.kind)))
    (h : Factor.splitCaret 0 (ts ++ rest) = none) : Factor.splitCaret 0 rest = none := by
  have happend := @splitCaret_append _ 0 0 ts rest rfl hts
  rw [Int.natCast_zero, h] at happend
  exact Option.map_eq_none_iff.1 happend.symm

/-- An exponent belongs to the last operand of a chain without carets. -/
theorem withExponent (h : Chain false true started ts) (hts : ts ≠ [])
    (hcaret : Factor.splitCaret 0 ts = none) (ht : t.kind = .caret) (hes : IsExponent false es) :
    Chain false true started (ts ++ t :: es) := by
  generalize hcalls : true = calls at h
  induction h with
  | nil => exact absurd rfl hts
  | @separator _ t u us ht hu _ ih =>
    subst hcalls
    have hlevel : Level TokenKind.inFactor ([t].map (·.kind)) := by
      rcases ht with ht | ⟨ht, -⟩ <;> rw [List.map_singleton, ht] <;> rfl
    exact .separator ht hu (ih (List.cons_ne_nil _ _) (splitCaret_behind hlevel hcaret) rfl)
  | @operand _ _ ts rest hoperand hrest ih =>
    subst hcalls
    by_cases hnil : rest = []
    · rw [hnil, List.append_nil]
      exact single_power hoperand ht hes
    · rw [List.append_assoc]
      exact .operand hoperand (ih hnil (splitCaret_behind hoperand.level hcaret) rfl)
  | power hoperand hc hes' _ _ =>
    have hrest := splitCaret_behind hoperand.level hcaret
    simp [Factor.splitCaret, hc] at hrest
  | head hfront hne hparen _ ih =>
    subst hcalls
    rw [List.append_assoc]
    exact .head hfront (by simp) (fun hno => absurd hno Bool.false_ne_true)
      (ih hne (splitCaret_behind hfront.level hcaret) rfl)

end Chain

end ImplicitCurves

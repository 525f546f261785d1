import ImplicitCurves.Proofs.Notation.Greedy

/-!
# Units of items

What the tokens of an item are put together from, whatever factors are read from them: operands, the
heads of functions, and exponents behind carets.  Where such a unit ends is determined by how it starts,
except that a letter can also be the start of a call: main statements `IsUnit.eq_of_append` and
`IsOperand.eq_of_append`.
-/

namespace ImplicitCurves

/-- The tokens can stand where an operand is demanded, and nothing is pending behind them. -/
def Finished (ts : List Token) : Prop :=
  Pending.behind ⟨.operand, []⟩ (ts.map (·.kind)) = some ⟨.nothing, []⟩

namespace Finished

variable {t : Token} {ts us : List Token}

theorem of_complete (h : Token.AllComplete ts) : Finished ts :=
  h .operand [] (by decide)

theorem ne_nil (h : Finished ts) : ts ≠ [] := by
  rintro rfl
  exact absurd (congrArg Pending.demand (Option.some.inj h)) (by decide)

/-- Outside of groups it does not matter to a token whether an operand is demanded. -/
theorem step_nothing (k : TokenKind) :
    Pending.step ⟨.nothing, []⟩ k = Pending.step ⟨.operand, []⟩ k := by
  cases k <;> rfl

/-- What stands behind finished tokens is finished or not as it is on its own. -/
theorem append_iff (hts : Finished ts) (hus : us ≠ []) : Finished (ts ++ us) ↔ Finished us := by
  obtain ⟨u, us, rfl⟩ := List.exists_cons_of_ne_nil hus
  rw [Finished, List.map_append, Pending.behind_append, hts, Option.bind_some, List.map_cons,
    Pending.behind_cons, step_nothing, Finished, List.map_cons, Pending.behind_cons]

/-- What stands behind complete tokens is finished on its own. -/
theorem of_append (h : Finished (ts ++ us)) (hts : Token.AllComplete ts) (hus : us ≠ []) :
    Finished us :=
  (append_iff (of_complete hts) hus).1 h

/-- What stands behind an operation is finished or not as it is on its own. -/
theorem cons_iff (ht : t.kind.isOperation = true) : Finished (t :: ts) ↔ Finished ts := by
  have hstep : Pending.step ⟨.operand, []⟩ t.kind = some ⟨.operand, []⟩ := by
    cases hk : t.kind <;> rw [hk] at ht <;> first | rfl | exact absurd ht Bool.false_ne_true
  rw [Finished, List.map_cons, Pending.behind_cons, hstep]
  rfl

/-- What stands behind an operation is finished on its own. -/
theorem of_cons (h : Finished (t :: ts)) (ht : t.kind.isOperation = true) : Finished ts :=
  (cons_iff ht).1 h

end Finished

/-- The tokens are complete, but no proper beginning of them is finished. -/
structure IsUnit (ts : List Token) : Prop where
  complete : Token.AllComplete ts
  unfinished : Unfinished .operand (ts.map (·.kind))

namespace IsUnit

variable {t : Token} {ts us rest rest' : List Token}

theorem atom (ht : t.kind.isAtom = true) : IsUnit [t] := by
  refine ⟨Complete.atom ht, fun start hstart hne _ hbehind => ?_⟩
  cases start with
  | nil => exact absurd (congrArg Pending.demand (Option.some.inj hbehind)) (by decide)
  | cons k start =>
    obtain ⟨rfl, htail⟩ := List.cons_prefix_cons.1 hstart
    exact hne (congrArg _ (List.prefix_nil.1 htail))

theorem group {o c : Token} (hc : o.kind.closer = some c.kind) (h : Token.AllComplete ts) :
    IsUnit (o :: ts ++ [c]) := by
  refine ⟨complete_group hc h, ?_⟩
  rw [List.map_append]
  cases ho : o.kind with
  | openParen =>
    have hclose : Closes false c.kind := by
      rw [ho] at hc
      exact (Option.some.inj hc).symm
    rw [List.map_cons, ho]
    exact .group rfl hclose h .nil fun hno => absurd rfl hno
  | openCurly =>
    have hclose : Closes true c.kind := by
      rw [ho] at hc
      exact (Option.some.inj hc).symm
    rw [List.map_cons, ho]
    exact .group rfl hclose h .nil fun hno => absurd rfl hno
  | _ =>
    rw [ho] at hc
    cases hc

/-- A fraction with both of its groups. -/
theorem fraction {s o c o' c' : Token} (hs : s.kind = .frac) (ho : o.kind = .openCurly)
    (hc : c.kind = .closeCurly) (ho' : o'.kind = .openCurly) (hc' : c'.kind = .closeCurly)
    (hts : Token.AllComplete ts) (hus : Token.AllComplete us) :
    IsUnit (s :: o :: ts ++ c :: o' :: us ++ [c']) := by
  have hsecond := group (closer_brace ho' hc') hus
  have hcomplete := Complete.command (.inr rfl) hts hsecond.complete
  have houter : Unfinished .base
      (.openCurly :: ts.map (·.kind) ++ .closeCurly :: (o' :: us ++ [c']).map (·.kind)) :=
    .group rfl rfl hts hsecond.unfinished fun _ => by decide
  have hall : Unfinished .operand (.frac :: (.openCurly :: ts.map (·.kind) ++
      .closeCurly :: (o' :: us ++ [c']).map (·.kind))) := houter.cons rfl (by decide)
  rw [← hs, ← ho, ← hc] at hcomplete hall
  exact ⟨by simpa [Token.AllComplete] using hcomplete, by simpa using hall⟩

/-- A unit that begins like a finished list, or is the beginning of one, ends with it. -/
theorem eq_of_isPrefix (h : IsUnit ts) (hus : Finished us) (hstart : us <+: ts) : us = ts := by
  by_contra hne
  refine h.unfinished _ (hstart.map _) (fun heq => hne ?_) (fun _ => by decide) hus
  exact hstart.eq_of_length (by simpa using congrArg List.length heq)

/-- What is finished goes on at least up to the end of the unit that it starts with. -/
theorem exists_tail (h : IsUnit ts) (hus : Finished us) (heq : ts ++ rest = us ++ rest') :
    ∃ tail, us = ts ++ tail ∧ rest = tail ++ rest' := by
  rcases List.append_eq_append_iff.1 heq with ⟨tail, hus', hrest⟩ | ⟨tail, hts, hrest⟩
  · exact ⟨tail, hus', hrest⟩
  · have hall := h.eq_of_isPrefix hus ⟨tail, hts.symm⟩
    obtain rfl : tail = [] := by simpa [hall] using hts
    exact ⟨[], by simpa using hall, hrest.symm⟩

/-- Two units at the same place are the same. -/
theorem eq_of_append (h : IsUnit ts) (hus : IsUnit us) (heq : ts ++ rest = us ++ rest') :
    ts = us ∧ rest = rest' := by
  have hsame : ts = us := by
    rcases List.prefix_or_prefix_of_prefix ⟨rest, heq⟩ (List.prefix_append us rest') with hle | hle
    · exact hus.eq_of_isPrefix (.of_complete h.complete) hle
    · exact (h.eq_of_isPrefix (.of_complete hus.complete) hle).symm
  subst hsame
  exact ⟨rfl, List.append_cancel_left heq⟩

end IsUnit

namespace Factor

/-- Whether the factor is neither a function nor a power. -/
def isOperand (f : Factor) : Bool :=
  !f.isFunction && !f.isPower

/-- Whether the factor is a call. -/
def isCall : Factor → Bool
  | .call _ _ _ => true
  | _ => false

end Factor

/-- The tokens are read as a factor that is neither a function nor a power, and no call if there are
none. -/
def IsOperand (calls : Bool) (ts : List Token) : Prop :=
  ∃ f, Factor.readWith Expression.read ts = some f ∧ f.isOperand = true ∧ (calls || !f.isCall) = true

namespace IsOperand

variable {calls : Bool} {t : Token} {ts us rest rest' more : List Token}

/-- What an operand looks like: a token, a fraction, a group or a call. -/
theorem cases_of (h : IsOperand calls ts) :
    (∃ t, ts = [t] ∧ t.kind.isAtom = true) ∨
    (∃ s o as c o' bs c', ts = s :: o :: as ++ c :: o' :: bs ++ [c'] ∧ s.kind = .frac ∧
      o.kind = .openCurly ∧ c.kind = .closeCurly ∧ o'.kind = .openCurly ∧ c'.kind = .closeCurly ∧
        Token.AllComplete as ∧ Token.AllComplete bs) ∨
    (∃ o as c, ts = o :: as ++ [c] ∧ o.kind.closer = some c.kind ∧ Token.AllComplete as) ∨
    calls = true ∧ ∃ t o as c name, ts = t :: o :: as ++ [c] ∧ t.kind = .letter name ∧ name ≠ 'e' ∧
      o.kind = .openParen ∧ c.kind = .closeParen ∧ Token.AllComplete as := by
  obtain ⟨f, hread, hoperand, hcall⟩ := h
  have hcomplete : ∀ {ts : List Token} {e : Expression}, Expression.read ts = some e →
      Token.AllComplete ts := Expression.complete_of_read
  cases Factor.parsed_of_readWith hread with
  | number ht => exact .inl ⟨_, rfl, by rw [ht]; rfl⟩
  | pi ht => exact .inl ⟨_, rfl, by rw [ht]; rfl⟩
  | e ht => exact .inl ⟨_, rfl, by rw [ht]; rfl⟩
  | «variable» ht hname => exact .inl ⟨_, rfl, by rw [ht]; rfl⟩
  | fraction hs ho hc ho' hc' ha hb =>
    exact .inr (.inl ⟨_, _, _, _, _, _, _, rfl, hs, ho, hc, ho', hc', hcomplete ha, hcomplete hb⟩)
  | bracket ho ha => exact .inr (.inr (.inl ⟨_, _, _, rfl, ho, hcomplete ha⟩))
  | call ht hname ho hc harguments =>
    have hwithin := complete_of_arguments harguments fun _ _ => hcomplete
    exact .inr (.inr (.inr ⟨by simpa [Factor.isCall] using hcall, _, _, _, _, _, rfl, ht, hname, ho, hc,
      hwithin⟩))
  | power | unary | logarithm | logarithmOfToken => exact absurd hoperand Bool.false_ne_true

theorem complete (h : IsOperand calls ts) : Token.AllComplete ts := by
  obtain ⟨f, hread, -⟩ := h
  exact (Factor.parsed_of_readWith hread).complete fun _ _ => Expression.complete_of_read

/-- An operand that is no call is a unit. -/
theorem isUnit (h : IsOperand false ts) : IsUnit ts := by
  rcases h.cases_of with ⟨t, rfl, ht⟩ | ⟨s, o, as, c, o', bs, c', rfl, hs, ho, hc, ho', hc', has, hbs⟩ |
    ⟨o, as, c, rfl, hc, has⟩ | ⟨hno, -⟩
  · exact .atom ht
  · exact .fraction hs ho hc ho' hc' has hbs
  · exact .group hc has
  · exact absurd hno Bool.false_ne_true

/-- An operand that starts with a group is a unit. -/
theorem isUnit_of_isOpen (h : IsOperand calls (t :: rest)) (ht : t.kind.isOpen = true) :
    IsUnit (t :: rest) := by
  rcases h.cases_of with ⟨u, heq, hu⟩ | ⟨s, o, as, c, o', bs, c', heq, hs, -⟩ | ⟨o, as, c, heq, hc, has⟩ |
    ⟨-, u, o, as, c, name, heq, hu, -⟩
  · rw [(List.cons.inj heq).1] at ht
    cases hk : u.kind <;> rw [hk] at ht hu <;>
      first | exact absurd ht Bool.false_ne_true | exact absurd hu Bool.false_ne_true
  · rw [(List.cons.inj heq).1, hs] at ht
    cases ht
  · rw [heq]
    exact .group hc has
  · rw [(List.cons.inj heq).1, hu] at ht
    cases ht

/-- What an operand starts with. -/
theorem exists_first (h : IsOperand calls ts) : ∃ t rest, ts = t :: rest ∧ t.kind.isOperation = false ∧
    t.kind ≠ .logBase := by
  rcases h.cases_of with ⟨t, rfl, ht⟩ | ⟨s, o, as, c, o', bs, c', rfl, hs, -⟩ | ⟨o, as, c, rfl, hc, -⟩ |
    ⟨-, t, o, as, c, name, rfl, ht, -⟩
  · refine ⟨t, [], rfl, ?_⟩
    cases hk : t.kind <;> rw [hk] at ht <;>
      first | exact absurd ht Bool.false_ne_true | exact ⟨rfl, by simp⟩
  · exact ⟨s, _, rfl, by rw [hs]; exact ⟨rfl, by simp⟩⟩
  · refine ⟨o, _, rfl, ?_⟩
    cases hk : o.kind <;> rw [hk] at hc <;> first | cases hc | exact ⟨rfl, by simp⟩
  · exact ⟨t, _, rfl, by rw [ht]; exact ⟨rfl, by simp⟩⟩

/-- Outside of the groups of an operand stands no caret. -/
theorem level (h : IsOperand calls ts) : Level TokenKind.inFactor (ts.map (·.kind)) := by
  rcases h.cases_of with ⟨t, rfl, ht⟩ | ⟨s, o, as, c, o', bs, c', rfl, hs, ho, hc, ho', hc', has, hbs⟩ |
    ⟨o, as, c, rfl, hc, has⟩ | ⟨-, t, o, as, c, name, rfl, ht, -, ho, hc, has⟩
  · rw [List.map_singleton]
    cases hk : t.kind <;> rw [hk] at ht <;> first | rfl | cases ht
  · have hgroups : Level TokenKind.inFactor _ :=
      (level_group (closer_brace ho hc) has).append (level_group (closer_brace ho' hc') hbs)
    rw [← List.map_append] at hgroups
    simpa using hgroups.cons_token hs rfl
  · exact level_group hc has
  · exact (level_group (closer_paren ho hc) has).cons_token ht rfl

/-- An operand that begins with another one is the same, or it is a call that begins with a letter. -/
theorem eq_of_append (h : IsOperand calls ts) (hmore : IsOperand true (ts ++ more)) :
    more = [] ∨ ∃ t o as c, ts = [t] ∧ more = o :: as ++ [c] ∧ o.kind = .openParen ∧
      c.kind = .closeParen ∧ Token.AllComplete as := by
  have hfinished := Finished.of_complete h.complete
  have hunit : IsUnit (ts ++ more) → more = [] := fun hunit =>
    List.append_cancel_left ((hunit.eq_of_isPrefix hfinished (List.prefix_append _ _)).symm.trans
      (List.append_nil ts).symm)
  rcases hmore.cases_of with ⟨t, heq, ht⟩ |
    ⟨s, o, as, c, o', bs, c', heq, hs, ho, hc, ho', hc', has, hbs⟩ | ⟨o, as, c, heq, hc, has⟩ |
    ⟨-, t, o, as, c, name, heq, ht, -, ho, hc, has⟩
  · exact .inl (hunit (heq ▸ .atom ht))
  · exact .inl (hunit (heq ▸ .fraction hs ho hc ho' hc' has hbs))
  · exact .inl (hunit (heq ▸ .group hc has))
  · obtain ⟨u, us, rfl⟩ := List.exists_cons_of_ne_nil hfinished.ne_nil
    obtain ⟨rfl, hus⟩ := List.cons.inj heq
    cases us with
    | nil => exact .inr ⟨u, o, as, c, rfl, hus, ho, hc, has⟩
    | cons v vs =>
      -- Both calls have the same arguments.
      have hatom : Token.AllComplete [u] := Complete.atom (k := u.kind) (by rw [ht]; rfl)
      have hgroup := @Finished.of_append [u] (v :: vs) hfinished hatom (List.cons_ne_nil v vs)
      have hargument : IsUnit (v :: vs ++ more) := by
        rw [List.append_eq] at hus
        rw [hus]
        exact .group (closer_paren ho hc) has
      have hsame := hargument.eq_of_isPrefix hgroup (List.prefix_append _ _)
      exact .inl (List.append_cancel_left (hsame.symm.trans (List.append_nil _).symm))

end IsOperand

/-- The tokens of an exponent, perhaps only those of one in braces. -/
def IsExponent (braced : Bool) (es : List Token) : Prop :=
  ∃ exponent e, Factor.exponentTokens es = some exponent ∧ Expression.read exponent = some e ∧
    (braced = true → es.head?.map (·.kind) = some .openCurly)

/-- The delimiter that closes a group is found whatever stands behind it. -/
theorem closeFrom_of_append {closer : TokenKind} {depth index stop : Nat} {ts us : List Token}
    (h : closeFrom closer depth index ts = some stop) :
    closeFrom closer depth index (ts ++ us) = some stop := by
  induction ts generalizing depth index with
  | nil => cases h
  | cons t ts ih =>
    rw [List.cons_append]
    cases hopen : t.kind.isOpen with
    | true =>
      rw [closeFrom_open hopen] at h ⊢
      exact ih h
    | false =>
      cases hclose : t.kind.isClose with
      | true =>
        rcases depth with _ | _ | depth
        · simp [closeFrom, hopen, hclose] at h
        · rw [closeFrom_last hopen hclose] at h ⊢
          exact h
        · rw [closeFrom_close hopen hclose] at h ⊢
          exact ih h
      | false =>
        rw [closeFrom_pass hopen hclose] at h ⊢
        exact ih h

/-- Two groups at the same place end at the same token. -/
theorem eq_of_closesAtEnd {ts us rest rest' : List Token} (h : closesAtEnd ts 0 = true)
    (h' : closesAtEnd us 0 = true) (heq : ts ++ rest = us ++ rest') : ts = us := by
  have hstop : ∀ {ts : List Token} (rest : List Token), closesAtEnd ts 0 = true →
      matchingClose (ts ++ rest) 0 = some (ts.length - 1) := by
    intro ts rest h
    unfold closesAtEnd at h
    split at h
    · next stop hmatching =>
      have hlength : stop + 1 = ts.length := by simpa using h
      cases ts with
      | nil => cases hmatching
      | cons t ts =>
        rw [matchingClose, List.drop_zero] at hmatching
        rw [matchingClose, List.drop_zero, ← hlength, Nat.add_sub_cancel]
        dsimp only [List.cons_append] at hmatching ⊢
        cases hcloser : t.kind.closer with
        | none =>
          rw [hcloser] at hmatching
          cases hmatching
        | some closer =>
          rw [hcloser] at hmatching
          exact closeFrom_of_append hmatching
    · cases h
  have hpos : ∀ {ts : List Token}, closesAtEnd ts 0 = true → 0 < ts.length := by
    rintro ts h
    refine List.length_pos_iff.2 ?_
    rintro rfl
    cases h
  have hsame := hstop rest h
  rw [heq, hstop rest' h'] at hsame
  have hlength := Option.some.inj hsame
  have := hpos h
  have := hpos h'
  exact (List.append_inj heq (by omega)).1

/-- No group starts with an operand that is a single token. -/
theorem closesAtEnd_of_isAtom {t : Token} {ts rest rest' : List Token} (heq : ts ++ rest = t :: rest')
    (ht : t.kind.isAtom = true) : ¬ closesAtEnd ts 0 = true := by
  intro h
  cases ts with
  | nil => cases h
  | cons u us =>
    obtain ⟨within, c, -, hc⟩ := exists_of_closesAtEnd (f := []) h
    rw [(List.cons.inj heq).1] at hc
    cases hk : t.kind <;> rw [hk] at hc ht <;> first | cases hc | exact absurd ht Bool.false_ne_true

namespace IsExponent

variable {braced : Bool} {es es' rest rest' : List Token}

theorem complete (h : IsExponent braced es) : Token.AllComplete es := by
  obtain ⟨exponent, e, hexponent, hread, -⟩ := h
  exact (Factor.of_exponentTokens hexponent).complete (Expression.complete_of_read hread)

/-- An exponent in braces. -/
theorem exists_braces (h : IsExponent true es) : ∃ o within c, es = o :: within ++ [c] ∧
    o.kind = .openCurly ∧ c.kind = .closeCurly ∧ Token.AllComplete within := by
  obtain ⟨exponent, e, hexponent, hread, hbraced⟩ := h
  have hopen := hbraced rfl
  cases Factor.of_exponentTokens hexponent with
  | single => exact absurd hread (Expression.read_openCurly (Option.some.inj hopen) e)
  | paren ho _ => exact absurd (ho.symm.trans (Option.some.inj hopen)) (by simp)
  | brace ho hc => exact ⟨_, _, _, rfl, ho, hc, Expression.complete_of_read hread⟩

theorem isUnit (h : IsExponent true es) : IsUnit es := by
  obtain ⟨o, within, c, rfl, ho, hc, hwithin⟩ := h.exists_braces
  exact .group (closer_brace ho hc) hwithin

/-- An exponent is a group or a single token. -/
theorem closesAtEnd_or_isAtom (h : IsExponent braced es) : closesAtEnd es 0 = true ∨ ∃ t, es = [t] ∧
    t.kind.isAtom = true := by
  obtain ⟨exponent, e, hexponent, hread, -⟩ := h
  unfold Factor.exponentTokens at hexponent
  split at hexponent
  · cases hexponent
  · next t ts =>
    split at hexponent
    · next hbrace => exact .inl hbrace.2
    · split at hexponent
      · next hparen => exact .inl hparen.2
      · split at hexponent
        · next hempty =>
          obtain rfl := List.isEmpty_iff.1 hempty
          obtain rfl := Option.some.inj hexponent
          exact .inr ⟨t, rfl, Expression.isAtom_of_read hread⟩
        · cases hexponent

/-- Where an exponent ends is determined by its tokens. -/
theorem eq_of_append (h : IsExponent braced es) (h' : IsExponent false es')
    (heq : es ++ rest = es' ++ rest') : es = es' ∧ rest = rest' := by
  have hsame : es = es' := by
    rcases h.closesAtEnd_or_isAtom with hgroup | ⟨t, rfl, ht⟩ <;>
      rcases h'.closesAtEnd_or_isAtom with hgroup' | ⟨t', rfl, ht'⟩
    · exact eq_of_closesAtEnd hgroup hgroup' heq
    · exact absurd hgroup (closesAtEnd_of_isAtom heq ht')
    · exact absurd hgroup' (closesAtEnd_of_isAtom heq.symm ht)
    · rw [(List.cons.inj heq).1]
  subst hsame
  exact ⟨rfl, List.append_cancel_left heq⟩

end IsExponent

end ImplicitCurves

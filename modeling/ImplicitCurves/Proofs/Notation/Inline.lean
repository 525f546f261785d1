import ImplicitCurves.Proofs.Notation.Complete

/-!
# Tokens of items

An item is read from tokens among which no sign stands outside of groups, and what makes up a part of
such tokens is read as a single positive item: main statements `Expression.read_inline` and
`Expression.exists_factored`.
-/

namespace ImplicitCurves

/-- Whether the token is no sign. -/
def TokenKind.isUnsigned (k : TokenKind) : Bool :=
  !k.isSign

/-- No sign stands outside of groups, and no group is closed that was not opened. -/
def Inline (ts : List Token) : Prop :=
  ∃ depth, depthBehind TokenKind.isUnsigned 0 (ts.map (·.kind)) = some depth

namespace Inline

variable {ts us : List Token}

theorem nil : Inline [] :=
  ⟨0, rfl⟩

theorem of_append_left (h : Inline (ts ++ us)) : Inline ts := by
  obtain ⟨depth, hdepth⟩ := h
  rw [List.map_append] at hdepth
  exact depthBehind_of_prefix hdepth

theorem of_prefix {part : List Token} (h : Inline ts) (hpart : part <+: ts) : Inline part := by
  obtain ⟨rest, rfl⟩ := hpart
  exact h.of_append_left

/-- If all groups are closed, then the tokens are level without the signs as well. -/
theorem level (h : Inline ts) (hts : Level (fun _ => true) (ts.map (·.kind))) :
    Level TokenKind.isUnsigned (ts.map (·.kind)) := by
  obtain ⟨depth, hdepth⟩ := h
  have hall : depthBehind (fun _ => true) (0 + 0) (ts.map (·.kind)) = some (depth + 0) :=
    depthBehind_shift hdepth fun _ _ _ => rfl
  obtain rfl : depth = 0 := Option.some.inj (hall.symm.trans hts)
  exact hdepth

theorem append (h : Inline ts) (hts : Level (fun _ => true) (ts.map (·.kind))) (hus : Inline us) :
    Inline (ts ++ us) := by
  obtain ⟨depth, hdepth⟩ := hus
  refine ⟨depth, ?_⟩
  rw [List.map_append, depthBehind_append, h.level hts]
  exact hdepth

/-- Tokens whose groups are closed do not matter in front. -/
theorem of_append_right (h : Inline (ts ++ us)) (hts : Level (fun _ => true) (ts.map (·.kind))) :
    Inline us := by
  have hlevel := h.of_append_left.level hts
  obtain ⟨depth, hdepth⟩ := h
  rw [List.map_append, depthBehind_append, hlevel] at hdepth
  exact ⟨depth, hdepth⟩

theorem isSign_first {t : Token} (h : Inline (t :: ts)) : t.kind.isSign = false := by
  obtain ⟨depth, hdepth⟩ := h
  obtain ⟨d, hstep, -⟩ := depthBehind_cons (k := t.kind) hdepth
  rw [← Bool.not_eq_true]
  intro hsign
  have hopen : t.kind.isOpen = false := by
    cases hk : t.kind <;> rw [hk] at hsign <;> first | rfl | exact absurd hsign Bool.false_ne_true
  rw [not_passed hopen (by rw [TokenKind.isUnsigned, hsign]; rfl)] at hstep
  exact absurd hstep.symm (Option.some_ne_none d)

theorem not_isUnsigned (k : TokenKind) (h : k.isSign = true) : k.isUnsigned = false := by
  rw [TokenKind.isUnsigned, h]
  rfl

/-- The tokens are those of a single item. -/
theorem splitItems_eq (h : Inline ts) (hne : ts ≠ []) : Expression.splitItems ts = [ts] := by
  obtain ⟨t, ts, rfl⟩ := List.exists_cons_of_ne_nil hne
  obtain ⟨depth, hdepth⟩ := h
  obtain ⟨d, hstep, hrest⟩ := depthBehind_cons (k := t.kind) hdepth
  have hsplit := @splitSigns_append _ d depth ts [] not_isUnsigned hrest
  rw [List.append_nil, Expression.splitSigns, prepend_cons, List.append_nil] at hsplit
  have hafter := depthAfter_of_depthStep hstep
  rw [Int.natCast_zero] at hafter
  rw [Expression.splitItems, hafter, hsplit]
  rfl

end Inline

theorem inline_behind {t : Token} {ts : List Token} (h : Inline (t :: ts))
    (hopen : t.kind.isOpen = false) (hclose : t.kind.isClose = false) : Inline ts :=
  @Inline.of_append_right [t] ts h (Level.nil.cons hopen hclose rfl)

theorem depthStep_isUnsigned {depth depth' : Nat} {k : TokenKind}
    (h : depthStep (fun _ => true) depth k = some depth') (hk : depth = 0 → k.isSign = false) :
    depthStep TokenKind.isUnsigned depth k = some depth' := by
  rw [depthStep_eq_some_iff] at h ⊢
  rcases h with hopen | hclose | ⟨hopen, hclose, -, hdepth⟩
  · exact .inl hopen
  · exact .inr (.inl hclose)
  · exact .inr (.inr ⟨hopen, hclose, fun houtside => by rw [TokenKind.isUnsigned, hk houtside]; rfl, hdepth⟩)

theorem depthStep_of_isSign {allowed : TokenKind → Bool} {depth depth' : Nat} {k : TokenKind}
    (h : depthStep allowed depth k = some depth') (hk : k.isSign = true) : depth' = depth := by
  have hplain : k.isOpen = false ∧ k.isClose = false := by
    cases k <;> first | exact ⟨rfl, rfl⟩ | exact absurd hk Bool.false_ne_true
  rcases depthStep_eq_some_iff.1 h with ⟨hopen, -⟩ | ⟨-, hclose, -⟩ | ⟨-, -, -, hdepth⟩
  · exact absurd (hplain.1.symm.trans hopen) Bool.false_ne_true
  · exact absurd (hplain.2.symm.trans hclose) Bool.false_ne_true
  · exact hdepth

theorem splitSigns_ne_nil (depth : Int) (ts : List Token) : Expression.splitSigns depth ts ≠ [] := by
  have haddToFirst : ∀ (t : Token) (parts : List (List Token)), addToFirst t parts ≠ [] := by
    intro t parts
    cases parts <;> exact List.cons_ne_nil _ _
  cases ts with
  | nil => exact List.cons_ne_nil _ _
  | cons t ts =>
    simp only [Expression.splitSigns]
    split
    · exact List.cons_ne_nil _ _
    · exact haddToFirst _ _

/-- The parts between the signs outside of groups. -/
theorem inline_of_splitSigns {depth depth' : Nat} {ts first : List Token} {parts : List (List Token)}
    (h : depthBehind (fun _ => true) depth (ts.map (·.kind)) = some depth')
    (hsplit : Expression.splitSigns depth ts = first :: parts) :
    (∃ d, depthBehind TokenKind.isUnsigned depth (first.map (·.kind)) = some d) ∧
      ∀ part ∈ parts, ∃ s us, part = s :: us ∧ s.kind.isSign = true ∧ Inline us := by
  induction ts generalizing depth first parts with
  | nil =>
    obtain ⟨rfl, rfl⟩ := List.cons.inj hsplit
    exact ⟨⟨depth, rfl⟩, fun part hpart => by cases hpart⟩
  | cons t ts ih =>
    obtain ⟨d, hstep, hrest⟩ := depthBehind_cons (k := t.kind) h
    obtain ⟨first', parts', hsplit'⟩ := List.exists_cons_of_ne_nil (splitSigns_ne_nil d ts)
    obtain ⟨⟨final, hfirst⟩, hparts⟩ := ih hrest hsplit'
    simp only [Expression.splitSigns, depthAfter_of_depthStep hstep, hsplit', addToFirst] at hsplit
    by_cases hsign : (depth : Int) = 0 ∧ t.kind.isSign = true
    · rw [if_pos hsign] at hsplit
      obtain ⟨rfl, rfl⟩ := List.cons.inj hsplit
      obtain ⟨hzero, hkind⟩ := hsign
      obtain rfl : depth = 0 := by omega
      obtain rfl := depthStep_of_isSign hstep hkind
      exact ⟨⟨0, rfl⟩, List.forall_mem_cons.2 ⟨⟨t, first', rfl, hkind, final, hfirst⟩, hparts⟩⟩
    · rw [if_neg hsign] at hsplit
      obtain ⟨rfl, rfl⟩ := List.cons.inj hsplit
      have hunsigned : depthStep TokenKind.isUnsigned depth t.kind = some d := by
        refine depthStep_isUnsigned hstep fun hzero => ?_
        rw [← Bool.not_eq_true]
        exact fun hkind => hsign ⟨by omega, hkind⟩
      refine ⟨⟨final, ?_⟩, hparts⟩
      rw [List.map_cons, depthBehind, List.foldlM_cons, hunsigned]
      exact hfirst

/-- The tokens of an item are inline, apart from a sign in front. -/
theorem inline_of_mem_splitItems {ts part : List Token} (h : Token.AllComplete ts)
    (hpart : part ∈ Expression.splitItems ts) :
    Inline part ∨ ∃ s us, part = s :: us ∧ s.kind.isSign = true ∧ Inline us := by
  cases ts with
  | nil =>
    obtain rfl := List.mem_singleton.1 hpart
    exact .inl Inline.nil
  | cons t ts =>
    obtain ⟨d, hstep, hrest⟩ := depthBehind_cons (k := t.kind) h.level
    have hafter := depthAfter_of_depthStep hstep
    rw [Int.natCast_zero] at hafter
    obtain ⟨first, parts, hsplit⟩ := List.exists_cons_of_ne_nil (splitSigns_ne_nil d ts)
    obtain ⟨⟨final, hfirst⟩, hparts⟩ := inline_of_splitSigns hrest hsplit
    rw [Expression.splitItems, hafter, hsplit] at hpart
    rcases List.mem_cons.1 hpart with rfl | hpart
    · cases hsign : t.kind.isSign with
      | true =>
        obtain rfl := depthStep_of_isSign hstep hsign
        exact .inr ⟨t, first, rfl, hsign, final, hfirst⟩
      | false =>
        refine .inl ⟨final, ?_⟩
        rw [List.map_cons, depthBehind, List.foldlM_cons, depthStep_isUnsigned hstep fun _ => hsign]
        exact hfirst
    · exact .inr (hparts part hpart)

/-- The tokens behind the sign of an item. -/
theorem inline_behind_sign {t : Token} {ts : List Token} (ht : t.kind.isSign = true)
    (h : Inline (t :: ts) ∨ ∃ s us, t :: ts = s :: us ∧ s.kind.isSign = true ∧ Inline us) :
    Inline ts := by
  rcases h with h | ⟨s, us, heq, -, hus⟩
  · exact absurd (ht.symm.trans h.isSign_first).symm Bool.false_ne_true
  · rw [(List.cons.inj heq).2]
    exact hus

/-- The tokens of an item that has no sign. -/
theorem inline_of_unsigned {t : Token} {ts : List Token} (ht : t.kind.isSign = false)
    (h : Inline (t :: ts) ∨ ∃ s us, t :: ts = s :: us ∧ s.kind.isSign = true ∧ Inline us) :
    Inline (t :: ts) := by
  rcases h with h | ⟨s, us, heq, hs, -⟩
  · exact h
  · rw [(List.cons.inj heq).1, hs] at ht
    exact absurd ht.symm Bool.false_ne_true

/-- The tokens of the factors of an item. -/
theorem Item.Parsed.exists_factored {inner : Factor.Reader} {part : List Token} {i : Item}
    (h : Parsed inner part i)
    (hinline : Inline part ∨ ∃ s us, part = s :: us ∧ s.kind.isSign = true ∧ Inline us) :
    ∃ signs us, part = signs ++ us ∧ (∀ s ∈ signs, s.kind.isSign = true) ∧ Inline us ∧
      i.factors ≠ [] ∧ Factored inner false us i.factors := by
  cases h with
  | @plus t ts fs ht hne h | @minus t ts fs ht hne h =>
    have hsign : t.kind.isSign = true := by rw [ht]; rfl
    exact ⟨[t], ts, rfl, List.forall_mem_singleton.2 hsign, inline_behind_sign hsign hinline, hne, h⟩
  | @unsigned t ts fs ht hne h =>
    exact ⟨[], t :: ts, rfl, fun s hs => (by cases hs), inline_of_unsigned ht hinline, hne, h⟩

namespace Expression

variable {ts : List Token} {e : Expression}

/-- Each item of an expression is read from some of the tokens. -/
theorem exists_factored (h : read ts = some e) : ∀ i ∈ e.items, ∃ us, us <:+: ts ∧ Inline us ∧
    i.factors ≠ [] ∧ Item.Factored read false us i.factors := by
  intro i hi
  have hcomplete := complete_of_read h
  obtain ⟨items⟩ := e
  rw [read_eq, readWith_eq_some] at h
  obtain ⟨part, hpart, hparsed⟩ := exists_of_forall₂ h.2.flip hi
  obtain ⟨signs, us, rfl, -, hinline, hne, hfactored⟩ :=
    hparsed.exists_factored (inline_of_mem_splitItems hcomplete hpart)
  refine ⟨us, (List.suffix_append signs us).isInfix.trans ?_, hinline, hne, hfactored⟩
  have hwithin := List.infix_of_mem_flatten hpart
  rw [flatten_splitItems] at hwithin
  exact hwithin

/-- Inline tokens are read as a single positive item. -/
theorem read_inline (h : Inline ts) : read ts = some e ↔ ∃ fs, fs ≠ [] ∧ e = ⟨[⟨true, fs⟩]⟩ ∧
    Item.Factored read false ts fs := by
  obtain ⟨items⟩ := e
  rw [read_eq, readWith_eq_some]
  constructor
  · rintro ⟨hne, hitems⟩
    rw [h.splitItems_eq hne] at hitems
    obtain ⟨i, is, hparsed, hrest, rfl⟩ := List.forall₂_cons_left_iff.1 hitems
    obtain rfl := List.forall₂_nil_left_iff.1 hrest
    cases hparsed with
    | plus ht _ _ => exact absurd h.isSign_first (by rw [ht]; decide)
    | minus ht _ _ => exact absurd h.isSign_first (by rw [ht]; decide)
    | unsigned ht hfactors hfactored => exact ⟨_, hfactors, rfl, hfactored⟩
  · rintro ⟨fs, hne, heq, hfactored⟩
    obtain rfl := (Expression.mk.inj heq)
    cases ts with
    | nil =>
      cases hfactored
      exact absurd rfl hne
    | cons t ts =>
      refine ⟨List.cons_ne_nil t ts, ?_⟩
      rw [h.splitItems_eq (List.cons_ne_nil t ts)]
      exact .cons (.unsigned h.isSign_first hne hfactored) .nil

end Expression

theorem infix_of_splitTopLevel {separator : TokenKind} {depth : Int} {ts : List Token} :
    (∀ first parts, splitTopLevel separator depth ts = first :: parts → first <+: ts) ∧
      ∀ part ∈ splitTopLevel separator depth ts, part <:+: ts := by
  induction ts generalizing depth with
  | nil =>
    refine ⟨fun first parts h => ?_, fun part hpart => ?_⟩
    · obtain ⟨rfl, -⟩ := List.cons.inj h
      exact ⟨[], rfl⟩
    · obtain rfl := List.mem_singleton.1 hpart
      exact ⟨[], [], rfl⟩
  | cons t ts ih =>
    simp only [splitTopLevel]
    split
    · refine ⟨fun first parts h => ?_, fun part hpart => ?_⟩
      · rw [← (List.cons.inj h).1]
        exact List.nil_prefix
      · rcases List.mem_cons.1 hpart with rfl | hpart
        · exact List.nil_infix
        · exact (ih.2 part hpart).trans (List.suffix_cons t ts).isInfix
    · obtain ⟨hfirst, hparts⟩ := @ih (t.depthAfter depth)
      cases hsplit : splitTopLevel separator (t.depthAfter depth) ts with
      | nil => exact absurd hsplit (splitTopLevel_ne_nil _ _ _)
      | cons first parts =>
        have hstart : t :: first <+: t :: ts := List.cons_prefix_cons.2 ⟨rfl, hfirst first parts hsplit⟩
        rw [hsplit] at hparts
        refine ⟨fun first' parts' h => ?_, fun part hpart => ?_⟩
        · rw [← (List.cons.inj h).1]
          exact hstart
        · rcases List.mem_cons.1 hpart with rfl | hpart
          · exact hstart.isInfix
          · exact (hparts part (List.mem_cons_of_mem _ hpart)).trans (List.suffix_cons t ts).isInfix

namespace Factor

theorem ArgumentTokens.isInfix {argument rest : List Token} (h : ArgumentTokens argument rest) :
    argument <:+: rest := by
  cases h with
  | plain _ => exact List.infix_rfl
  | @paren o c _ _ => exact ⟨[o], [c], rfl⟩

theorem ExponentTokens.isInfix {exponent rest : List Token} (h : ExponentTokens exponent rest) :
    exponent <:+: rest := by
  cases h with
  | single | paren _ _ => exact List.infix_rfl
  | @brace o c _ _ _ => exact ⟨[o], [c], rfl⟩

end Factor

/-- To show something of all expressions that are read it is enough to show it of one if it holds of
all that are read from fewer tokens. -/
theorem Expression.read_shorter_induction {P : List Token → Expression → Prop}
    (step : ∀ ts e, read ts = some e →
      (∀ us c, us.length < ts.length → read us = some c → P us c) → P ts e)
    {ts : List Token} {e : Expression} (h : read ts = some e) : P ts e := by
  have hall : ∀ n, ∀ ts : List Token, ts.length = n → ∀ e, read ts = some e → P ts e := by
    intro n
    induction n using Nat.strongRecOn with
    | _ n ih =>
      rintro ts rfl e h
      exact step ts e h fun us c hlt hc => ih us.length hlt us rfl c hc
  exact hall _ ts rfl e h

end ImplicitCurves

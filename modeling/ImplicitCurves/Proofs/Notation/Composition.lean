import ImplicitCurves.Proofs.Notation.Greedy
import ImplicitCurves.Proofs.Notation.Placement

/-!
# Composed tokens

Tokens that are read as expressions can be put together: in groups, as the operands of fractions,
powers, functions and calls, and as sums and differences.  Whatever was read closes all of its groups
and has no comma outside of them, so counting how deep the groups are nested finds the delimiters that
were put around it.  Main statement: `Expression.read_composed`.
-/

namespace ImplicitCurves

/-! ### Commas of expressions -/

theorem Expression.commasInCalls_of_read {ts : List Token} {e : Expression} (h : read ts = some e) :
    CommasInCalls ts := by
  refine (complete_and_of_readNested (P := CommasInCalls) ?_ h).2
  intro inner hcomplete hinner us e he
  refine of_items he (fun _ _ => .append) ?_
  intro part _ i hi
  exact hi.commasInCalls hcomplete hinner

/-- Within the parentheses of a call is not outside of all groups. -/
theorem InCall.depth_pos {before after : List Token} {depth : Nat} (h : InCall before after)
    (hdepth : depthBehind (fun _ => true) 0 (before.map (·.kind)) = some depth) : 0 < depth := by
  cases h with
  | @intro t o c name front inside inside' back ht hname ho hc hinside hinside' =>
    rw [List.map_append, depthBehind_append] at hdepth
    obtain ⟨d, -, hdepth⟩ := Option.bind_eq_some_iff.1 hdepth
    obtain ⟨d', -, hdepth⟩ := depthBehind_cons (k := t.kind) hdepth
    obtain ⟨d'', hstep, hdepth⟩ := depthBehind_cons (k := o.kind) hdepth
    rw [ho] at hstep
    obtain rfl : d' + 1 = d'' := Option.some.inj hstep
    have hwithin : depthBehind (fun _ => true) (0 + (d' + 1)) (inside.map (·.kind)) = some (0 + (d' + 1)) :=
      depthBehind_shift hinside.level fun _ _ _ => rfl
    rw [Nat.zero_add] at hwithin
    obtain rfl : d' + 1 = depth := Option.some.inj (hwithin.symm.trans hdepth)
    exact Nat.succ_pos d'

theorem depthStep_inExpression {depth : Nat} {k : TokenKind} (hk : k ≠ .comma) :
    depthStep TokenKind.inExpression depth k = depthStep (fun _ => true) depth k := by
  have hallowed : k.inExpression = true := by
    cases k <;> first | rfl | exact absurd rfl hk
  unfold depthStep
  rw [hallowed]

/-- Outside of the groups of an expression there is no comma. -/
theorem Expression.level_of_read {ts : List Token} {e : Expression} (h : read ts = some e) :
    Level TokenKind.inExpression (ts.map (·.kind)) := by
  have hcommas := commasInCalls_of_read h
  have hlevel := (complete_of_read h).level
  -- by induction on what has been passed, the depth is the same with and without commas allowed
  have hpass : ∀ before rest, ts = before ++ rest → ∀ depth,
      depthBehind (fun _ => true) 0 (before.map (·.kind)) = some depth →
        depthBehind TokenKind.inExpression 0 (before.map (·.kind)) = some depth := by
    intro before
    induction before using List.reverseRecOn with
    | nil => exact fun _ _ _ h => h
    | append_singleton before t ih =>
      intro rest hts depth hdepth
      rw [List.append_assoc] at hts
      rw [List.map_append, depthBehind_append] at hdepth ⊢
      obtain ⟨d, hd, hstep⟩ := Option.bind_eq_some_iff.1 hdepth
      rw [ih _ hts d hd, Option.bind_some]
      by_cases hcomma : t.kind = .comma
      · have hpos := (hcommas before t rest hts hcomma).depth_pos hd
        obtain ⟨d, rfl⟩ := Nat.exists_eq_succ_of_ne_zero (Nat.ne_of_gt hpos)
        rw [List.map_singleton, hcomma] at hstep ⊢
        exact hstep
      · rw [List.map_singleton] at hstep ⊢
        rw [depthBehind, List.foldlM_cons, depthStep_inExpression hcomma]
        exact hstep
  exact hpass ts [] (List.append_nil ts).symm 0 hlevel

/-! ### Single factors -/

namespace Factor

variable {inner : Reader} {o c : Token} {as : List Token} {a : Expression} {f : Factor}

theorem splitCaret_of_level {ts : List Token} (h : Level TokenKind.inFactor (ts.map (·.kind))) :
    splitCaret 0 ts = none := by
  have hsplit := @splitCaret_append _ 0 0 ts [] rfl h
  rw [List.append_nil] at hsplit
  exact hsplit

theorem readBracket_of_closer (hc : o.kind.closer = some c.kind) (has : Token.AllComplete as)
    (ha : inner as = some a) : readBracket inner (o :: as ++ [c]) = some (.bracket a) := by
  have hcloses : closesAtEnd (o :: (as ++ [c])) 0 = true := @closesAtEnd_eq _ [] [] as o c hc has.level
  have hbetween : between (o :: (as ++ [c])) = as := between_append o c as
  rw [List.cons_append]
  simp only [readBracket, (isClose_of_closer hc).1, hcloses, hbetween, ha, Bool.and_self, if_true,
    Option.map_some]

/-- A group of either kind is read as a bracket. -/
theorem readWith_group (hc : o.kind.closer = some c.kind) (ha : Expression.read as = some a) :
    readWith Expression.read (o :: as ++ [c]) = some (.bracket a) := by
  have hcomplete := Expression.complete_of_read ha
  have hsome : readWith Expression.read (o :: as ++ [c]) ≠ none :=
    Factor.readWith_ne_none (.inr (.inr (.inr (.inl (readBracket_of_closer hc hcomplete ha)))))
  obtain ⟨f, hf⟩ := Option.ne_none_iff_exists'.1 hsome
  rw [hf]
  have hparsed := parsed_of_readWith hf
  rcases hparsed.of_open (isClose_of_closer hc).1 with hpower | ⟨as', c', a', htokens, hc', ha', rfl⟩
  · have hcaret := isPower_of_parsed hparsed (splitCaret_of_level (level_group hc hcomplete))
    exact absurd (hcaret.symm.trans hpower) Bool.false_ne_true
  · obtain ⟨-, rfl, -⟩ := eq_of_read_close ha ha' (isClose_of_closer hc).2 (isClose_of_closer hc').2
      htokens
    rfl

/-- What is read as a factor, and starts with no operator, is also an expression. -/
theorem read_of_readWith {t : Token} {ts : List Token}
    (hlevel : Level TokenKind.inItem ((t :: ts).map (·.kind))) (hmul : t.kind ≠ .mul)
    (hdiv : t.kind ≠ .div) (h : readWith Expression.read (t :: ts) = some f) :
    Expression.read (t :: ts) = some (.ofFactor f) := by
  have hinline : Inline (t :: ts) := by
    refine ⟨0, hlevel.mono ?_⟩
    intro k hk
    cases k <;> first | rfl | exact absurd hk Bool.false_ne_true
  have hlongest : IsLongest Expression.read (t :: ts) [] f := by
    refine ⟨h, ?_⟩
    intro more hne hmore
    exact absurd (List.prefix_nil.1 hmore) hne
  have hfactored : Item.Factored Expression.read false (t :: (ts ++ [])) [f] :=
    .factor hmul hdiv hlongest .nil
  rw [List.append_nil] at hfactored
  exact (Expression.read_inline hinline).2 ⟨[f], List.cons_ne_nil _ _, rfl, hfactored⟩

end Factor

theorem Expression.read_group {o c : Token} {as : List Token} {a : Expression}
    (hc : o.kind.closer = some c.kind) (ha : read as = some a) :
    read (o :: as ++ [c]) = some (.ofFactor (.bracket a)) := by
  have hopen := (isClose_of_closer hc).1
  refine Factor.read_of_readWith (level_group hc (complete_of_read ha)) ?_ ?_
    (Factor.readWith_group hc ha)
  · intro hmul
    rw [hmul] at hopen
    cases hopen
  · intro hdiv
    rw [hdiv] at hopen
    cases hopen

/-- A group in parentheses can be the base of a power. -/
theorem Expression.read_power {o c t o' c' : Token} {as bs : List Token} {a b : Expression}
    (ho : o.kind = .openParen) (hc : c.kind = .closeParen) (ht : t.kind = .caret)
    (ho' : o'.kind = .openCurly) (hc' : c'.kind = .closeCurly) (ha : read as = some a)
    (hb : read bs = some b) : read (o :: as ++ c :: t :: o' :: bs ++ [c']) =
      some (.ofFactor (.power (.ofFactor (.bracket a)) b)) := by
  have hbracket : Factor.Written (o :: as ++ [c]) (.bracket a) := .bracket ho hc ha
  have hpower : Factor.Written (o :: as ++ [c] ++ t :: o' :: bs ++ [c'])
      (.power (.ofFactor (.bracket a)) b) :=
    .power hbracket rfl (hbracket.level rfl) ht ho' hc' (hbracket.read_ofFactor rfl) hb
  have hlongest := Factor.isLongest_of_written hpower (fun hno => absurd hno.symm Bool.false_ne_true)
    Factor.Follows.nil
  have htokens : o :: as ++ c :: t :: o' :: bs ++ [c'] = o :: as ++ [c] ++ t :: o' :: bs ++ [c'] := by
    simp
  rw [htokens]
  refine Factor.read_of_readWith ?_ ?_ ?_ hlongest.reads
  · have hbase : Level TokenKind.inItem ((o :: as ++ [c]).map (·.kind)) :=
      level_group (closer_paren ho hc) (complete_of_read ha)
    have hexponent : Level TokenKind.inItem ((o' :: bs ++ [c']).map (·.kind)) :=
      level_group (closer_brace ho' hc') (complete_of_read hb)
    have hbehind := hexponent.cons_token ht rfl
    simpa using hbase.append hbehind
  · simp [ho]
  · simp [ho]

/-! ### Arguments -/

/-- At least one argument, with commas between them. -/
inductive Expression.Arguments : List Token → List Expression → Prop
  | single {as : List Token} {a : Expression} (ha : read as = some a) : Arguments as [a]
  | more {t : Token} {as rest : List Token} {a : Expression} {es : List Expression}
    (ha : read as = some a) (ht : t.kind = .comma) (hrest : Arguments rest es) :
    Arguments (as ++ t :: rest) (a :: es)

/-- Arguments are read one by one. -/
theorem Expression.Arguments.read_each {within : List Token} {es : List Expression}
    (h : Arguments within es) : (splitTopLevel .comma 0 within).mapM read = some es := by
  rw [mapM_eq_some]
  induction h with
  | @single as a ha =>
    have hsplit := @splitTopLevel_append _ 0 0 as [] .comma rfl rfl (level_of_read ha)
    rw [List.append_nil, splitTopLevel, prepend_cons, List.append_nil] at hsplit
    exact hsplit ▸ .cons ha .nil
  | @more t as rest a es ha ht _ ih =>
    have hsplit := @splitTopLevel_append _ 0 0 as (t :: rest) .comma rfl rfl (level_of_read ha)
    have hcomma : ((0 : Nat) : Int) = 0 ∧ t.kind = .comma ∧ !t.kind.isOpen ∧ !t.kind.isClose := by
      rw [ht]
      decide
    rw [splitTopLevel, if_pos hcomma, prepend_cons, List.append_nil] at hsplit
    exact hsplit ▸ .cons ha ih

/-! ### Sums -/

section Sums

open Expression

theorem addToFirst_append (t : Token) {parts : List (List Token)} (parts' : List (List Token))
    (h : parts ≠ []) : addToFirst t (parts ++ parts') = addToFirst t parts ++ parts' := by
  cases parts with
  | nil => exact absurd rfl h
  | cons part parts => rfl

theorem depthAfter_of_isSign {t : Token} (ht : t.kind.isSign = true) (depth : Int) :
    t.depthAfter depth = depth := by
  unfold Token.depthAfter
  cases hk : t.kind <;> rw [hk] at ht <;> first | rfl | exact absurd ht Bool.false_ne_true

/-- A sign behind tokens whose groups are closed starts a new item. -/
theorem splitSigns_append_sign {t : Token} (ht : t.kind.isSign = true) {as : List Token}
    (bs : List Token) {depth : Nat}
    (has : depthBehind (fun _ => true) depth (as.map (·.kind)) = some 0) :
    splitSigns depth (as ++ t :: bs) = splitSigns depth as ++ addToFirst t (splitSigns 0 bs) := by
  induction as generalizing depth with
  | nil =>
    obtain rfl : depth = 0 := Option.some.inj has
    simp [splitSigns, ht, depthAfter_of_isSign ht]
  | cons a as ih =>
    obtain ⟨d, hstep, hrest⟩ := depthBehind_cons (k := a.kind) has
    rw [List.cons_append, splitSigns, splitSigns, depthAfter_of_depthStep hstep, ih hrest,
      addToFirst_append a _ (splitSigns_ne_nil d as)]
    split <;> rfl

/-- The items of a sum are those of both sides, of which the second one gets the sign. -/
theorem splitItems_sum {t : Token} (ht : t.kind.isSign = true) {as bs : List Token} (hne : as ≠ [])
    (hne' : bs ≠ []) (has : Token.AllComplete as)
    (hsign : ∀ b ∈ bs.head?, b.kind.isSign = false) :
    splitItems (as ++ t :: bs) = splitItems as ++ addToFirst t (splitItems bs) := by
  obtain ⟨a, as, rfl⟩ := List.exists_cons_of_ne_nil hne
  obtain ⟨b, bs, rfl⟩ := List.exists_cons_of_ne_nil hne'
  obtain ⟨d, hstep, hrest⟩ := depthBehind_cons (k := a.kind) has.level
  have hafter := depthAfter_of_depthStep hstep
  rw [Int.natCast_zero] at hafter
  have hb : b.kind.isSign = false := hsign b rfl
  have hsecond : splitSigns 0 (b :: bs) = splitItems (b :: bs) := by
    rw [splitSigns, splitItems]
    simp only [hb, Bool.false_eq_true, and_false, if_false]
  have hfirst : splitItems (a :: as) = addToFirst a (splitSigns d as) := by rw [splitItems, hafter]
  rw [List.cons_append, splitItems, hafter, splitSigns_append_sign ht _ hrest,
    addToFirst_append a _ (splitSigns_ne_nil d as), hsecond, hfirst]

/-- The first item of an expression without a sign in front gets one. -/
theorem parsed_addToFirst {inner : Factor.Reader} {t : Token} (ht : t.kind = .add ∨ t.kind = .sub)
    {bs : List Token} {items : List Item} (hne : bs ≠ [])
    (hsign : ∀ b ∈ bs.head?, b.kind.isSign = false)
    (hb : List.Forall₂ (Item.Parsed inner) (splitItems bs) items) :
    List.Forall₂ (Item.Parsed inner) (addToFirst t (splitItems bs))
      (if t.kind = .add then items else items.modifyHead Item.negated) := by
  obtain ⟨b, bs, rfl⟩ := List.exists_cons_of_ne_nil hne
  have hb' : b.kind.isSign = false := hsign b rfl
  obtain ⟨first, rest, hsplit⟩ : ∃ first rest, splitItems (b :: bs) = (b :: first) :: rest := by
    rw [splitItems]
    cases splitSigns (b.depthAfter 0) bs with
    | nil => exact ⟨[], [], rfl⟩
    | cons part parts => exact ⟨part, parts, rfl⟩
  rw [hsplit] at hb ⊢
  obtain ⟨i, is, hi, his, rfl⟩ := List.forall₂_cons_left_iff.1 hb
  cases hi with
  | plus hadd => exact absurd hb' (by rw [hadd]; decide)
  | minus hsub => exact absurd hb' (by rw [hsub]; decide)
  | unsigned _ hfactors hfactored =>
    rcases ht with ht | ht
    · rw [if_pos ht]
      exact .cons (.plus ht hfactors hfactored) his
    · rw [if_neg (by rw [ht]; decide)]
      exact .cons (.minus ht hfactors hfactored) his

/-- A sum of two expressions, of which the second one starts with no sign.  Its first item gets the
sign. -/
theorem Expression.read_sum {t : Token} {as bs : List Token} {a b : Expression}
    (ht : t.kind = .add ∨ t.kind = .sub) (hsign : ∀ u ∈ bs.head?, u.kind.isSign = false)
    (ha : read as = some a) (hb : read bs = some b) : read (as ++ t :: bs) = some
      ⟨a.items ++ if t.kind = .add then b.items else b.items.modifyHead Item.negated⟩ := by
  have hkind : t.kind.isSign = true := by
    rcases ht with ht | ht <;> rw [ht] <;> rfl
  have hcomplete := complete_of_read ha
  rw [read_eq] at ha hb ⊢
  obtain ⟨items⟩ := a
  obtain ⟨items'⟩ := b
  rw [readWith_eq_some] at ha hb ⊢
  obtain ⟨hne, ha⟩ := ha
  obtain ⟨hne', hb⟩ := hb
  refine ⟨by simp, ?_⟩
  rw [splitItems_sum hkind hne hne' hcomplete hsign]
  exact List.rel_append ha (parsed_addToFirst ht hne' hsign hb)

end Sums

/-! ### Compositions -/

/-- What is composed of tokens that are read as expressions, and the tree of it. -/
inductive Expression.Composed : List Token → Expression → Prop
  | group {o c : Token} {as : List Token} {a : Expression}
    (hc : o.kind = .openParen ∧ c.kind = .closeParen ∨ o.kind = .openCurly ∧ c.kind = .closeCurly)
    (ha : read as = some a) : Composed (o :: as ++ [c]) (.ofFactor (.bracket a))
  | fraction {s o c o' c' : Token} {as bs : List Token} {a b : Expression} (hs : s.kind = .frac)
    (ho : o.kind = .openCurly) (hc : c.kind = .closeCurly) (ho' : o'.kind = .openCurly)
    (hc' : c'.kind = .closeCurly) (ha : read as = some a) (hb : read bs = some b) :
    Composed (s :: o :: as ++ c :: o' :: bs ++ [c']) (.ofFactor (.fraction a b))
  | unary {t o c : Token} {f : UnaryFunction} {as : List Token} {a : Expression}
    (ht : t.kind = .function f) (ho : o.kind = .openParen) (hc : c.kind = .closeParen)
    (ha : read as = some a) : Composed (t :: o :: as ++ [c]) (.ofFactor (.unary f a))
  | logarithm {t o c o' c' : Token} {as bs : List Token} {a b : Expression} (ht : t.kind = .logBase)
    (ho : o.kind = .openCurly) (hc : c.kind = .closeCurly) (ho' : o'.kind = .openParen)
    (hc' : c'.kind = .closeParen) (ha : read as = some a) (hb : read bs = some b) :
    Composed (t :: o :: as ++ c :: o' :: bs ++ [c']) (.ofFactor (.logarithm a b))
  | call {t o c : Token} {name : Char} {within : List Token} {arguments : List Expression}
    (ht : t.kind = .letter name) (hname : name ≠ 'e') (ho : o.kind = .openParen)
    (hc : c.kind = .closeParen) (harguments : Arguments within arguments) :
    Composed (t :: o :: within ++ [c]) (.ofFactor (.call name arguments .unlinked))
  | power {o c t o' c' : Token} {as bs : List Token} {a b : Expression} (ho : o.kind = .openParen)
    (hc : c.kind = .closeParen) (ht : t.kind = .caret) (ho' : o'.kind = .openCurly)
    (hc' : c'.kind = .closeCurly) (ha : read as = some a) (hb : read bs = some b) :
    Composed (o :: as ++ c :: t :: o' :: bs ++ [c'])
      (.ofFactor (.power (.ofFactor (.bracket a)) b))
  | sum {t : Token} {as bs : List Token} {a b : Expression} (ht : t.kind = .add)
    (hsign : ∀ u ∈ bs.head?, u.kind ≠ .add ∧ u.kind ≠ .sub) (ha : read as = some a)
    (hb : read bs = some b) : Composed (as ++ t :: bs) ⟨a.items ++ b.items⟩
  | difference {t : Token} {as bs : List Token} {a b : Expression} (ht : t.kind = .sub)
    (hsign : ∀ u ∈ bs.head?, u.kind ≠ .add ∧ u.kind ≠ .sub) (ha : read as = some a)
    (hb : read bs = some b) : Composed (as ++ t :: bs) ⟨a.items ++ b.items.modifyHead Item.negated⟩

theorem TokenKind.isSign_eq_false {k : TokenKind} (h : k ≠ .add ∧ k ≠ .sub) : k.isSign = false := by
  cases k <;> first | rfl | exact absurd rfl h.1 | exact absurd rfl h.2

/-- Tokens that are composed of expressions are read as the composition of their trees. -/
theorem Expression.read_composed {ts : List Token} {e : Expression} (h : Composed ts e) :
    read ts = some e := by
  cases h with
  | group hc ha =>
    have hcloser := hc.elim (fun h => closer_paren h.1 h.2) (fun h => closer_brace h.1 h.2)
    exact read_group hcloser ha
  | fraction hs ho hc ho' hc' ha hb =>
    exact (Factor.Written.fraction hs ho hc ho' hc' ha hb).read_ofFactor rfl
  | unary ht ho hc ha => exact (Factor.Written.unary ht ho hc ha).read_ofFactor rfl
  | logarithm ht ho hc ho' hc' ha hb =>
    exact (Factor.Written.logarithm ht ho hc ho' hc' ha hb).read_ofFactor rfl
  | call ht hname ho hc harguments =>
    exact (Factor.Written.call ht hname ho hc harguments.read_each).read_ofFactor rfl
  | power ho hc ht ho' hc' ha hb => exact read_power ho hc ht ho' hc' ha hb
  | sum ht hsign ha hb =>
    have hread := read_sum (.inl ht) (fun u hu => TokenKind.isSign_eq_false (hsign u hu)) ha hb
    rw [if_pos ht] at hread
    exact hread
  | difference ht hsign ha hb =>
    have hread := read_sum (.inr ht) (fun u hu => TokenKind.isSign_eq_false (hsign u hu)) ha hb
    rw [if_neg (by rw [ht]; decide)] at hread
    exact hread

/-- The call `f(y,2)`, and `x-f(y,2)`. -/
theorem Expression.read_composed_difference :
    let f : Factor := .call 'f' [.ofFactor (.variable 'y' none), .ofFactor (.number 2)] .unlinked
    let call : List Token := [⟨.letter 'f', ⟨2, 3⟩⟩, ⟨.openParen, ⟨3, 4⟩⟩, ⟨.letter 'y', ⟨4, 5⟩⟩,
      ⟨.comma, ⟨5, 6⟩⟩, ⟨.number 2, ⟨6, 7⟩⟩, ⟨.closeParen, ⟨7, 8⟩⟩]
    read call = some (.ofFactor f) ∧ read (⟨.letter 'x', ⟨0, 1⟩⟩ :: ⟨.sub, ⟨1, 2⟩⟩ :: call) =
      some ⟨[⟨true, [.variable 'x' none]⟩, ⟨false, [f]⟩]⟩ := by
  intro f call
  have hx : read [⟨.letter 'x', ⟨0, 1⟩⟩] = some (.ofFactor (.variable 'x' none)) :=
    (Factor.Written.variable rfl (by decide)).read_ofFactor rfl
  have hy : read [⟨.letter 'y', ⟨4, 5⟩⟩] = some (.ofFactor (.variable 'y' none)) :=
    (Factor.Written.variable rfl (by decide)).read_ofFactor rfl
  have htwo : read [⟨.number 2, ⟨6, 7⟩⟩] = some (.ofFactor (.number 2)) :=
    (Factor.Written.number rfl).read_ofFactor rfl
  have hcall : read call = some (.ofFactor f) :=
    read_composed (.call rfl (by decide) rfl rfl (.more hy rfl (.single htwo)))
  have hsign : ∀ u ∈ call.head?, u.kind ≠ .add ∧ u.kind ≠ .sub := by decide
  exact ⟨hcall, read_composed (.difference rfl hsign hx hcall)⟩

end ImplicitCurves

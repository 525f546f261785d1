import ImplicitCurves.Proofs.Notation.Complete

/-!
# The longest factor

The tokens of a factor are read as the factor, and once more tokens of its item are added they are
not read as a factor anymore: main statement `Factor.isLongest_of_written`.  A power or a group ends
at its last delimiter; a function would take more if it were not for the parenthesis at the end,
which is always taken for the one that closes the argument.
-/

namespace ImplicitCurves

namespace Factor

/-- The tokens are those of the factor, and what is inside it is read as it should be.  The base of a
power is a single factor. -/
inductive Written : List Token → Factor → Prop
  | number {t : Token} {x : Float} (ht : t.kind = .number x) : Written [t] (.number x)
  | constant {t : Token} {c : NamedConstant} (ht : t.kind = c.kind) : Written [t] (.constant c)
  | variable {t : Token} {name : Char} (ht : t.kind = .letter name) (hname : name ≠ 'e') :
    Written [t] (.variable name none)
  | fraction {s o c o' c' : Token} {as bs : List Token} {a b : Expression} (hs : s.kind = .frac)
    (ho : o.kind = .openCurly) (hc : c.kind = .closeCurly) (ho' : o'.kind = .openCurly)
    (hc' : c'.kind = .closeCurly) (ha : Expression.read as = some a)
    (hb : Expression.read bs = some b) :
    Written (s :: o :: as ++ c :: o' :: bs ++ [c']) (.fraction a b)
  | power {t o c : Token} {bases exponents : List Token} {base : Factor} {exponent : Expression}
    (hbase : Written bases base) (hpower : base.isPower = false)
    (hlevel : Level TokenKind.inFactor (bases.map (·.kind))) (ht : t.kind = .caret)
    (ho : o.kind = .openCurly) (hc : c.kind = .closeCurly)
    (hread : Expression.read bases = some (.ofFactor base))
    (hexponent : Expression.read exponents = some exponent) :
    Written (bases ++ t :: o :: exponents ++ [c]) (.power (.ofFactor base) exponent)
  | bracket {o c : Token} {as : List Token} {a : Expression} (ho : o.kind = .openParen)
    (hc : c.kind = .closeParen) (ha : Expression.read as = some a) :
    Written (o :: as ++ [c]) (.bracket a)
  | unary {t o c : Token} {f : UnaryFunction} {as : List Token} {a : Expression}
    (ht : t.kind = .function f) (ho : o.kind = .openParen) (hc : c.kind = .closeParen)
    (ha : Expression.read as = some a) : Written (t :: o :: as ++ [c]) (.unary f a)
  | logarithm {t o c o' c' : Token} {bases as : List Token} {base a : Expression}
    (ht : t.kind = .logBase) (ho : o.kind = .openCurly) (hc : c.kind = .closeCurly)
    (ho' : o'.kind = .openParen) (hc' : c'.kind = .closeParen)
    (hbase : Expression.read bases = some base) (ha : Expression.read as = some a) :
    Written (t :: o :: bases ++ c :: o' :: as ++ [c']) (.logarithm base a)
  | call {t o c : Token} {name : Char} {within : List Token} {arguments : List Expression}
    (ht : t.kind = .letter name) (hname : name ≠ 'e') (ho : o.kind = .openParen)
    (hc : c.kind = .closeParen)
    (harguments : (splitTopLevel .comma 0 within).mapM Expression.read = some arguments) :
    Written (t :: o :: within ++ [c]) (.call name arguments .unlinked)

/-- If the tokens behind an argument can belong to it, then they end with a parenthesis. -/
def StaysOutside (more : List Token) : Prop :=
  more ≠ [] → Pending.behind ⟨.nothing, []⟩ (more.map (·.kind)) = some ⟨.nothing, []⟩ →
    more.getLast?.map (·.kind) = some .closeParen

/-- The argument of a function ends where its parentheses are closed. -/
theorem ArgumentTokens.eq_of_paren {o c : Token} {as as' more : List Token}
    (h : ArgumentTokens as' (o :: as ++ c :: more)) (ho : o.kind = .openParen)
    (hc : c.kind = .closeParen) (has : Token.AllComplete as) (has' : Token.AllComplete as')
    (hmore : StaysOutside more) : as' = as ∧ more = [] := by
  generalize hrest : o :: as ++ c :: more = rest at h
  cases h with
  | paren ho' hc' =>
    obtain ⟨-, hrest⟩ := List.cons.inj hrest
    obtain ⟨heq, -, hmore⟩ := has.eq_of_close has' (by rw [hc]; rfl) (by rw [hc']; rfl) hrest
    exact ⟨heq.symm, hmore⟩
  | plain hno =>
    exfalso
    refine hno ⟨?_, ?_⟩
    · rw [← hrest, ← ho]
      rfl
    · by_cases hne : more = []
      · rw [← hrest, hne, List.getLast?_concat, ← hc]
        rfl
      · have hbehind := has' .nothing [] (by decide)
        have hgroup : Complete ((o :: as ++ [c]).map (·.kind)) :=
          complete_group (closer_paren ho hc) has
        rw [← hrest, List.append_cons, List.map_append, Pending.behind_append,
          hgroup .nothing [] (by decide)] at hbehind
        rw [← hrest, List.append_cons, List.getLast?_append_of_ne_nil _ hne]
        exact hmore hne hbehind

/-- Of tokens that start in the same way, only those up to the delimiter that closes them can be read. -/
theorem eq_of_read_close {as bs rest rest' : List Token} {a b : Expression} {c c' : Token}
    (ha : Expression.read as = some a) (hb : Expression.read bs = some b)
    (hc : c.kind.isClose = true) (hc' : c'.kind.isClose = true)
    (h : as ++ c :: rest = bs ++ c' :: rest') : as = bs ∧ a = b ∧ rest = rest' := by
  obtain ⟨rfl, -, hrest⟩ :=
    (Expression.complete_of_read ha).eq_of_close (Expression.complete_of_read hb) hc hc' h
  exact ⟨rfl, Option.some.inj (ha.symm.trans hb), hrest⟩

/-- The tokens of a factor that is no power, perhaps with more tokens behind them, are only read as a
power or as the factor itself. -/
theorem Written.eq_of_parsed {tokens more : List Token} {f g : Factor} (hf : Written tokens f)
    (hpower : f.isPower = false)
    (hvariable : ∀ name bound, f = .variable name bound →
      more.head?.map (·.kind) ≠ some .openParen)
    (hfunction : f.isFunction = true → StaysOutside more)
    (h : Parsed Expression.read (tokens ++ more) g) : g.isPower = true ∨ more = [] ∧ g = f := by
  have hcomplete : ∀ {ts : List Token} {e : Expression}, Expression.read ts = some e →
      Token.AllComplete ts := Expression.complete_of_read
  cases hf with
  | number ht => exact h.of_number ht
  | @constant t c ht =>
    cases c with
    | pi => exact h.of_pi ht
    | e =>
      rcases h.of_letter ht with hpower | ⟨hmore, rfl⟩ | ⟨hname, -⟩
      · exact .inl hpower
      · exact .inr ⟨hmore, rfl⟩
      · exact absurd rfl hname
  | @«variable» t name ht hname =>
    rcases h.of_letter ht with hpower | ⟨hmore, rfl⟩ | ⟨-, o, within, c, arguments, hmore, ho, -⟩
    · exact .inl hpower
    · exact .inr ⟨hmore, if_neg hname⟩
    · refine absurd ?_ (hvariable name none rfl)
      replace hmore : more = o :: within ++ [c] := hmore
      rw [hmore, ← ho]
      rfl
  | @fraction s o c o' c' as bs a b hs ho hc ho' hc' ha hb =>
    have hparts := h.of_frac hs
    refine hparts.imp_right ?_
    rintro ⟨o₂, as₂, c₂, o₂', bs₂, c₂', a₂, b₂, hrest, hc₂, hc₂', ha₂, hb₂, rfl⟩
    simp only [List.append_eq, List.append_assoc, List.cons_append, List.nil_append] at hrest
    obtain ⟨rfl, rfl, hrest⟩ := eq_of_read_close ha ha₂ (by rw [hc]; rfl) (by rw [hc₂]; rfl)
      (List.cons.inj hrest).2
    obtain ⟨rfl, rfl, hmore⟩ := eq_of_read_close hb hb₂ (by rw [hc']; rfl) (by rw [hc₂']; rfl)
      (List.cons.inj hrest).2
    exact ⟨hmore, rfl⟩
  | @power t o c bases exponents base exponent hbase hbasePower hlevel ht ho hc hread hexponent =>
    exact absurd hpower.symm Bool.false_ne_true
  | @bracket o c as a ho hc ha =>
    have hgroup := h.of_open (by rw [ho]; rfl)
    refine hgroup.imp_right ?_
    rintro ⟨as₂, c₂, a₂, hrest, hc₂, ha₂, rfl⟩
    simp only [List.append_eq, List.append_assoc, List.cons_append, List.nil_append] at hrest
    obtain ⟨rfl, rfl, hmore⟩ := eq_of_read_close ha ha₂ (by rw [hc]; rfl) (isClose_of_closer hc₂).2
      hrest
    exact ⟨hmore, rfl⟩
  | @unary t o c g' as a ht ho hc ha =>
    have hargument := h.of_function ht
    refine hargument.imp_right ?_
    rintro ⟨as₂, a₂, hrest, ha₂, rfl⟩
    simp only [List.append_eq, List.append_assoc, List.cons_append, List.nil_append] at hrest
    obtain ⟨rfl, hmore⟩ := hrest.eq_of_paren ho hc (hcomplete ha) (hcomplete ha₂) (hfunction rfl)
    obtain rfl := Option.some.inj (ha.symm.trans ha₂)
    exact ⟨hmore, rfl⟩
  | @logarithm t o c o' c' bases as base a ht ho hc ho' hc' hbase ha =>
    have hparts := h.of_logBase ht
    refine hparts.imp_right ?_
    rintro (⟨o₂, bases₂, c₂, rest, as₂, base₂, a₂, hrest, hc₂, hargument, hbase₂, ha₂, rfl⟩ |
      ⟨u, rest, as₂, base₂, a₂, hrest, -, hbase₂, -⟩)
    · simp only [List.append_eq, List.append_assoc, List.cons_append, List.nil_append] at hrest
      obtain ⟨rfl, rfl, rfl⟩ := eq_of_read_close hbase hbase₂ (by rw [hc]; rfl)
        (by rw [hc₂]; rfl) (List.cons.inj hrest).2
      obtain ⟨rfl, hmore⟩ := hargument.eq_of_paren ho' hc' (hcomplete ha) (hcomplete ha₂)
        (hfunction rfl)
      obtain rfl := Option.some.inj (ha.symm.trans ha₂)
      exact ⟨hmore, rfl⟩
    · simp only [List.append_eq, List.append_assoc, List.cons_append, List.nil_append] at hrest
      obtain ⟨rfl, -⟩ := List.cons.inj hrest
      exact absurd hbase₂ (Expression.read_openCurly ho base₂)
  | @call t o c name within arguments ht hname ho hc harguments =>
    rcases h.of_letter ht with hpower | ⟨hmore, -⟩ | ⟨-, o₂, within₂, c₂, arguments₂, hrest, -, hc₂, harguments₂, rfl⟩
    · exact .inl hpower
    · exact absurd hmore (List.cons_ne_nil _ _)
    · simp only [List.append_eq, List.append_assoc, List.cons_append, List.nil_append] at hrest
      have hwithin := complete_of_arguments harguments fun _ _ => hcomplete
      have hwithin₂ := complete_of_arguments harguments₂ fun _ _ => hcomplete
      obtain ⟨rfl, -, hmore⟩ := hwithin.eq_of_close hwithin₂ (by rw [hc]; rfl) (by rw [hc₂]; rfl)
        (List.cons.inj hrest).2
      obtain rfl := Option.some.inj (harguments.symm.trans harguments₂)
      exact .inr ⟨hmore, rfl⟩

section Success

variable {inner : Reader} {s t o c o' c' : Token} {as bs rest : List Token} {a b : Expression}

theorem readFraction_eq_some (hs : s.kind = .frac) (ho : o.kind = .openCurly)
    (hc : c.kind = .closeCurly) (ho' : o'.kind = .openCurly) (hc' : c'.kind = .closeCurly)
    (has : Token.AllComplete as) (hbs : Token.AllComplete bs) (ha : inner as = some a)
    (hb : inner bs = some b) :
    readFraction inner (s :: o :: as ++ c :: o' :: bs ++ [c']) = some (.fraction a b) := by
  obtain ⟨ks, span⟩ := s
  obtain ⟨ko, span'⟩ := o
  obtain ⟨ko', span''⟩ := o'
  dsimp only at hs ho ho'
  subst hs ho ho'
  have htokens : (⟨.frac, span⟩ :: ⟨.openCurly, span'⟩ :: as ++ c :: ⟨.openCurly, span''⟩ :: bs ++
      [c'] : List Token) =
      ⟨.frac, span⟩ :: ⟨.openCurly, span'⟩ :: (as ++ c :: ⟨.openCurly, span''⟩ :: (bs ++ [c'])) := by
    simp
  have hmatching : matchingClose (⟨.frac, span⟩ :: ⟨.openCurly, span'⟩ ::
      (as ++ c :: ⟨.openCurly, span''⟩ :: (bs ++ [c']))) 1 = some (as.length + 2) := by
    have hclose := @matchingClose_eq _ (⟨.openCurly, span''⟩ :: (bs ++ [c'])) [⟨.frac, span⟩] as
      ⟨.openCurly, span'⟩ c (congrArg some hc.symm) has.level
    rw [List.length_singleton] at hclose
    rw [Nat.add_comm as.length]
    exact hclose
  have hdrop : (⟨.frac, span⟩ :: ⟨.openCurly, span'⟩ ::
      (as ++ c :: ⟨.openCurly, span''⟩ :: (bs ++ [c'])) : List Token).drop (as.length + 2 + 1) =
      ⟨.openCurly, span''⟩ :: (bs ++ [c']) := by
    rw [List.append_cons]
    exact List.drop_left' (by simp)
  have hcloses : closesAtEnd (⟨.frac, span⟩ :: ⟨.openCurly, span'⟩ ::
      (as ++ c :: ⟨.openCurly, span''⟩ :: (bs ++ [c']))) (as.length + 2 + 1) = true := by
    have hclose := @closesAtEnd_eq _ [] (⟨.frac, span⟩ :: ⟨.openCurly, span'⟩ :: as ++ [c]) bs
      ⟨.openCurly, span''⟩ c' (congrArg some hc'.symm) hbs.level
    simpa using hclose
  rw [htokens]
  simp only [readFraction, hmatching, hdrop, hcloses, if_true, Nat.add_sub_cancel, List.take_left]
  rw [← List.cons_append, between_append, ha, hb]
  rfl

theorem readBracket_eq_some (ho : o.kind = .openParen) (hc : c.kind = .closeParen)
    (has : Token.AllComplete as) (ha : inner as = some a) :
    readBracket inner (o :: as ++ [c]) = some (.bracket a) := by
  have hcloses : closesAtEnd (o :: (as ++ [c])) 0 = true :=
    @closesAtEnd_eq _ [] [] as o c (closer_paren ho hc) has.level
  have hgroup : (o.kind.isOpen && closesAtEnd (o :: (as ++ [c])) 0) = true := by
    rw [hcloses, ho]
    rfl
  have hbetween : between (o :: (as ++ [c])) = as := between_append o c as
  rw [List.cons_append]
  simp only [readBracket, hgroup, if_true, hbetween, ha, Option.map_some]

theorem argumentTokens_eq_some (ho : o.kind = .openParen) (hc : c.kind = .closeParen) :
    argumentTokens (o :: as ++ [c]) = some as := by
  have hlast : (o :: (as ++ [c])).getLast?.map (·.kind) = some .closeParen := by
    rw [← List.cons_append, List.getLast?_concat, Option.map_some, hc]
  have hbetween : between (o :: (as ++ [c])) = as := between_append o c as
  rw [List.cons_append]
  simp only [argumentTokens, hlast, ho, hbetween]
  exact if_pos ⟨by simp, trivial, trivial⟩

theorem readUnary_eq_some {f : UnaryFunction} (ht : t.kind = .function f)
    (hargument : argumentTokens rest = some as) (ha : inner as = some a) :
    readUnary inner (t :: rest) = some (.unary f a) := by
  obtain ⟨k, span⟩ := t
  dsimp only at ht
  subst ht
  simp only [readUnary, hargument, bind, Option.bind_some, ha]
  rfl

theorem readLogarithm_eq_some (ht : t.kind = .logBase) (ho : o.kind = .openCurly)
    (hc : c.kind = .closeCurly) (hbs : Token.AllComplete bs) (hb : inner bs = some b)
    (hargument : argumentTokens rest = some as) (ha : inner as = some a) :
    readLogarithm inner (t :: o :: bs ++ c :: rest) = some (.logarithm b a) := by
  obtain ⟨k, span⟩ := t
  dsimp only at ht
  subst ht
  have hmatching : matchingClose (⟨.logBase, span⟩ :: o :: (bs ++ c :: rest)) 1 =
      some (bs.length + 2) := by
    have hclose := @matchingClose_eq _ rest [⟨.logBase, span⟩] bs o c (closer_brace ho hc) hbs.level
    rw [List.length_singleton] at hclose
    rw [Nat.add_comm bs.length]
    exact hclose
  have hdrop : (bs ++ c :: rest).drop (bs.length + 2 - 1) = rest := by
    rw [List.append_cons]
    exact List.drop_left' (by simp)
  rw [List.cons_append, List.cons_append]
  simp only [readLogarithm, if_pos ho, hmatching, Nat.add_sub_cancel, List.take_left, hb, hdrop,
    hargument, bind, Option.bind_some, ha]
  rfl

theorem readCall_eq_some {name : Char} {arguments : List Expression} (ht : t.kind = .letter name)
    (hname : name ≠ 'e') (ho : o.kind = .openParen) (hc : c.kind = .closeParen)
    (has : Token.AllComplete as)
    (harguments : (splitTopLevel .comma 0 as).mapM inner = some arguments) :
    readCall inner (t :: o :: as ++ [c]) = some (.call name arguments .unlinked) := by
  obtain ⟨k, span⟩ := t
  obtain ⟨k', span'⟩ := o
  dsimp only at ht ho
  subst ht ho
  have hcloses : closesAtEnd (⟨.letter name, span⟩ :: ⟨.openParen, span'⟩ :: (as ++ [c])) 1 = true :=
    @closesAtEnd_eq _ [] [⟨.letter name, span⟩] as ⟨.openParen, span'⟩ c (congrArg some hc.symm)
      has.level
  rw [List.cons_append, List.cons_append]
  simp only [readCall]
  rw [if_pos ⟨hname, hcloses⟩, List.dropLast_concat, harguments]
  rfl

theorem readPower_eq_some {base exponent : Expression} (hne : bs ≠ [])
    (hcaret : splitCaret 0 (bs ++ t :: o :: as ++ [c]) = some (bs, o :: as ++ [c]))
    (ho : o.kind = .openCurly) (hc : c.kind = .closeCurly) (has : Token.AllComplete as)
    (hbase : inner bs = some base) (hexponent : inner as = some exponent) :
    readPower inner (bs ++ t :: o :: as ++ [c]) = some (.power base exponent) := by
  have hcloses : closesAtEnd (o :: (as ++ [c])) 0 = true :=
    @closesAtEnd_eq _ [] [] as o c (closer_brace ho hc) has.level
  have hbetween : between (o :: (as ++ [c])) = as := between_append o c as
  have hexponents : exponentTokens (o :: as ++ [c]) = some as := by
    rw [List.cons_append]
    simp only [exponentTokens]
    rw [if_pos ⟨ho, hcloses⟩, hbetween]
  have hempty : bs.isEmpty = false := by simpa using hne
  simp only [readPower, hcaret, bind, Option.bind_some, hempty, hexponents, hbase, hexponent]
  rfl

/-- What one of the readers accepts is read. -/
theorem readWith_ne_none {tokens : List Token} {f : Factor} (h : readFraction inner tokens = some f ∨
    readPower inner tokens = some f ∨ readCall inner tokens = some f ∨
    readBracket inner tokens = some f ∨ readUnary inner tokens = some f ∨
    readLogarithm inner tokens = some f ∨ readVariable tokens = some f ∨
    readConstant tokens = some f) : readWith inner tokens ≠ none := by
  simp only [readWith, Option.orElse_eq_orElse, Option.orElse_eq_or, ne_eq, Option.or_eq_none_iff]
  rintro ⟨h₁, h₂, h₃, h₄, h₅, h₆, h₇, h₈⟩
  simp only [h₁, h₂, h₃, h₄, h₅, h₆, h₇, h₈, reduceCtorEq, or_self] at h

/-- Only what starts with the command for a fraction is read as a fraction. -/
theorem exists_of_readFraction {tokens : List Token} {f : Factor}
    (h : readFraction inner tokens = some f) :
    tokens.head?.map (·.kind) = some .frac ∧ ∃ a b, f = .fraction a b := by
  unfold readFraction at h
  split at h
  · refine ⟨rfl, ?_⟩
    dsimp only at h
    split at h
    · exact absurd h.symm (Option.some_ne_none _)
    · split at h
      · split at h
        · obtain ⟨a, -, h⟩ := Option.bind_eq_some_iff.1 h
          obtain ⟨b, -, h⟩ := Option.bind_eq_some_iff.1 h
          exact ⟨a, b, (Option.some.inj h).symm⟩
        · exact absurd h.symm (Option.some_ne_none _)
      · exact absurd h.symm (Option.some_ne_none _)
  · exact absurd h.symm (Option.some_ne_none _)

end Success

/-- The tokens of a factor that is no power are read. -/
theorem Written.readWith_ne_none {tokens : List Token} {f : Factor} (h : Written tokens f)
    (hpower : f.isPower = false) : readWith Expression.read tokens ≠ none := by
  have hcomplete : ∀ {ts : List Token} {e : Expression}, Expression.read ts = some e →
      Token.AllComplete ts := Expression.complete_of_read
  apply Factor.readWith_ne_none (f := f)
  cases h with
  | @number t x ht =>
    obtain ⟨k, span⟩ := t
    obtain rfl : k = .number x := ht
    simp only [readConstant, or_true]
  | @constant t c ht =>
    obtain ⟨k, span⟩ := t
    obtain rfl : k = c.kind := ht
    cases c <;> simp only [readConstant, NamedConstant.kind, if_true, or_true]
  | @«variable» t name ht hname =>
    obtain ⟨k, span⟩ := t
    obtain rfl : k = .letter name := ht
    simp only [readVariable, if_neg hname, true_or, or_true]
  | fraction hs ho hc ho' hc' ha hb =>
    exact .inl (readFraction_eq_some hs ho hc ho' hc' (hcomplete ha) (hcomplete hb) ha hb)
  | power => exact absurd hpower.symm Bool.false_ne_true
  | bracket ho hc ha =>
    exact .inr (.inr (.inr (.inl (readBracket_eq_some ho hc (hcomplete ha) ha))))
  | unary ht ho hc ha =>
    exact .inr (.inr (.inr (.inr (.inl
      (readUnary_eq_some ht (argumentTokens_eq_some ho hc) ha)))))
  | @logarithm t o c o' c' bases as base a ht ho hc ho' hc' hbase ha =>
    have hread := readLogarithm_eq_some ht ho hc (hcomplete hbase) hbase
      (argumentTokens_eq_some ho' hc') ha
    refine .inr (.inr (.inr (.inr (.inr (.inl ?_)))))
    simpa using hread
  | call ht hname ho hc harguments =>
    have hwithin := complete_of_arguments harguments fun _ _ => hcomplete
    exact .inr (.inr (.inl (readCall_eq_some ht hname ho hc hwithin harguments)))

/-- The tokens can stand behind a factor in its item. -/
structure Follows (f : Factor) (rest : List Token) : Prop where
  caretless : f.isPower = false → Level TokenKind.inFactor (rest.map (·.kind))
  noArguments : ∀ name bound, f = .variable name bound → rest.head?.map (·.kind) ≠ some .openParen
  outside : f.isOpen = true → ∀ more, more <+: rest → StaysOutside more

theorem isOpen_of_isFunction {f : Factor} (h : f.isFunction = true) : f.isOpen = true := by
  cases f <;> first | exact h | exact absurd h Bool.false_ne_true

/-- Without a caret no power is read. -/
theorem isPower_of_parsed {inner : Reader} {tokens : List Token} {g : Factor}
    (h : Parsed inner tokens g) (hcaret : splitCaret 0 tokens = none) : g.isPower = false := by
  rw [← Bool.not_eq_true]
  intro hpower
  obtain ⟨t, bases, rest, exponents, base, exponent, -, hsome, -⟩ := h.of_isPower hpower
  exact absurd (hcaret.symm.trans hsome).symm (Option.some_ne_none _)

/-- A factor that is no power is as long as it can be. -/
theorem Written.isLongest_of_not_isPower {tokens rest : List Token} {f : Factor}
    (hf : Written tokens f) (hpower : f.isPower = false)
    (hlevel : Level TokenKind.inFactor (tokens.map (·.kind))) (hrest : Follows f rest) :
    IsLongest Expression.read tokens rest f := by
  have heq : ∀ {more : List Token} {g : Factor}, more <+: rest →
      readWith Expression.read (tokens ++ more) = some g → more = [] ∧ g = f := by
    intro more g hmore hread
    have hparsed := parsed_of_readWith hread
    have hcaret : splitCaret 0 (tokens ++ more) = none := by
      obtain ⟨tail, rfl⟩ := hmore
      have hall := hlevel.append (hrest.caretless hpower)
      rw [List.map_append, ← List.append_assoc] at hall
      obtain ⟨depth, hdepth⟩ := depthBehind_of_prefix hall
      rw [← List.map_append] at hdepth
      have hsplit := @splitCaret_append _ 0 depth (tokens ++ more) [] rfl hdepth
      rw [List.append_nil] at hsplit
      exact hsplit
    refine (hf.eq_of_parsed hpower (fun name bound hname => ?_) (fun hfunction => ?_)
      hparsed).resolve_left ?_
    · intro hparen
      refine hrest.noArguments name bound hname ?_
      obtain ⟨tail, rfl⟩ := hmore
      cases more with
      | nil => exact absurd hparen.symm (Option.some_ne_none _)
      | cons t more => exact hparen
    · exact hrest.outside (isOpen_of_isFunction hfunction) more hmore
    · rw [isPower_of_parsed hparsed hcaret]
      exact Bool.false_ne_true
  constructor
  · obtain ⟨g, hg⟩ := Option.ne_none_iff_exists'.1 (hf.readWith_ne_none hpower)
    have hexact := heq List.nil_prefix (by rw [List.append_nil]; exact hg)
    rw [hg, hexact.2]
  · intro more hne hmore
    by_contra hsome
    obtain ⟨g, hg⟩ := Option.ne_none_iff_exists'.1 hsome
    exact hne (heq hmore hg).1

/-- The tokens of a function do not start like a fraction. -/
theorem Written.head_of_isFunction {tokens : List Token} {f : Factor} (h : Written tokens f)
    (hfunction : f.isFunction = true) :
    ∃ t rest, tokens = t :: rest ∧ t.kind ≠ .frac := by
  cases h with
  | @unary t o c f as a ht ho hc ha => exact ⟨t, o :: as ++ [c], rfl, by rw [ht]; simp⟩
  | @logarithm t o c o' c' bases as base a ht ho hc ho' hc' hbase ha =>
    exact ⟨t, o :: bases ++ c :: o' :: as ++ [c'], rfl, by rw [ht]; simp⟩
  | _ => exact absurd hfunction Bool.false_ne_true

/-- A power ends where the braces around its exponent are closed. -/
theorem ExponentTokens.eq_of_brace {o c : Token} {exponents exponents' more : List Token}
    (h : ExponentTokens exponents' (o :: exponents ++ c :: more)) (ho : o.kind = .openCurly)
    (hc : c.kind = .closeCurly) (hcomplete : Token.AllComplete exponents)
    (hcomplete' : Token.AllComplete exponents') : exponents' = exponents ∧ more = [] := by
  generalize hrest : o :: exponents ++ c :: more = rest at h
  cases h with
  | single =>
    have hlength := congrArg List.length hrest
    simp at hlength
  | paren ho' hc' =>
    obtain ⟨rfl, -⟩ := List.cons.inj hrest
    exact absurd (ho.symm.trans ho') (by simp)
  | brace ho' hc' =>
    obtain ⟨-, hrest⟩ := List.cons.inj hrest
    obtain ⟨heq, -, hmore⟩ := hcomplete.eq_of_close hcomplete' (by rw [hc]; rfl)
      (by rw [hc']; rfl) hrest
    exact ⟨heq.symm, hmore⟩

/-- Tokens with a caret behind a factor are not read as a fraction. -/
theorem Written.readFraction_of_caret {t : Token} {bases behind : List Token} {base : Factor}
    (hbase : Written bases base) (hpower : base.isPower = false) (ht : t.kind = .caret) :
    readFraction Expression.read (bases ++ t :: behind) = none := by
  by_contra hsome
  obtain ⟨g, hg⟩ := Option.ne_none_iff_exists'.1 hsome
  obtain ⟨hhead, a, b, rfl⟩ := exists_of_readFraction hg
  by_cases hfunction : base.isFunction = true
  · obtain ⟨t', rest', rfl, hfrac⟩ := hbase.head_of_isFunction hfunction
    exact hfrac (Option.some.inj hhead)
  · have hparsed := (parsed_of_readFraction hg).1
    rcases hbase.eq_of_parsed hpower (fun _ _ _ => by simp [ht]) (fun h => absurd h hfunction)
      hparsed with hno | ⟨hno, -⟩
    · exact absurd hno Bool.false_ne_true
    · exact absurd hno (List.cons_ne_nil _ _)

/-- What follows a power of a function is also outside of the function. -/
theorem Follows.staysOutside_exponent {t o c : Token} {exponents rest more : List Token}
    {base : Factor} {exponent : Expression} (h : Follows (.power (.ofFactor base) exponent) rest)
    (hfunction : base.isFunction = true) (ht : t.kind = .caret) (ho : o.kind = .openCurly)
    (hc : c.kind = .closeCurly) (hexponent : Expression.read exponents = some exponent)
    (hmore : more <+: rest) (hne : more ≠ []) : StaysOutside (t :: o :: exponents ++ c :: more) := by
  intro _ hbehind
  have hopen : (Factor.power (.ofFactor base) exponent).isOpen = true := hfunction
  have hgroup : Complete ((t :: (o :: exponents ++ [c])).map (·.kind)) := by
    have hbrace := complete_group (closer_brace ho hc) (Expression.complete_of_read hexponent)
    exact Complete.operation (k := t.kind) (by rw [ht]; rfl) hbrace
  have hsplit : t :: o :: exponents ++ c :: more = t :: (o :: exponents ++ [c]) ++ more := by
    simp
  rw [hsplit, List.map_append, Pending.behind_append, hgroup .nothing [] (by decide)] at hbehind
  rw [hsplit, List.getLast?_append_of_ne_nil _ hne]
  exact h.outside hopen more hmore hne hbehind

/-- A power is as long as it can be. -/
theorem Written.isLongest_power {t o c : Token} {bases exponents rest : List Token} {base : Factor}
    {exponent : Expression} (hbase : Written bases base) (hpower : base.isPower = false)
    (hlevel : Level TokenKind.inFactor (bases.map (·.kind))) (ht : t.kind = .caret)
    (ho : o.kind = .openCurly) (hc : c.kind = .closeCurly)
    (hread : Expression.read bases = some (.ofFactor base))
    (hexponent : Expression.read exponents = some exponent)
    (hrest : Follows (.power (.ofFactor base) exponent) rest) :
    IsLongest Expression.read (bases ++ t :: o :: exponents ++ [c]) rest
      (.power (.ofFactor base) exponent) := by
  have hcomplete := Expression.complete_of_read hexponent
  have hcaret : ∀ more, splitCaret 0 (bases ++ t :: more) = some (bases, more) := by
    intro more
    have hpass := @splitCaret_append _ 0 0 bases (t :: more) rfl hlevel
    refine hpass.trans ?_
    simp [splitCaret, ht]
  constructor
  · -- The power is read before a function with a power as its argument, but not before a fraction.
    have hne : bases ≠ [] := by
      rintro rfl
      exact (Expression.readWith_eq_some.1 (Expression.read_eq [] ▸ hread)).1 rfl
    have hread : readPower Expression.read (bases ++ t :: o :: exponents ++ [c]) =
        some (.power (.ofFactor base) exponent) := by
      refine readPower_eq_some hne ?_ ho hc hcomplete hread hexponent
      rw [List.append_assoc]
      exact hcaret _
    have hfraction : readFraction Expression.read (bases ++ t :: o :: exponents ++ [c]) = none := by
      rw [List.append_assoc]
      exact hbase.readFraction_of_caret hpower ht
    rw [readWith, hfraction, hread]
    rfl
  · intro more hmore hstart
    by_contra hsome
    obtain ⟨g, hg⟩ := Option.ne_none_iff_exists'.1 hsome
    have hparsed := parsed_of_readWith hg
    have htokens : bases ++ t :: o :: exponents ++ [c] ++ more =
        bases ++ t :: (o :: exponents ++ c :: more) := by
      simp
    rw [htokens] at hparsed
    have houtside : base.isFunction = true → StaysOutside (t :: (o :: exponents ++ c :: more)) :=
      fun hfunction => hrest.staysOutside_exponent hfunction ht ho hc hexponent hstart hmore
    rcases hbase.eq_of_parsed hpower (fun _ _ _ => by simp [ht]) houtside hparsed with hno | ⟨hno, -⟩
    · obtain ⟨t', bases', rest', exponents', base', exponent', -, hsplit, hexponents, -, hread', -⟩ :=
        hparsed.of_isPower hno
      obtain ⟨rfl, rfl⟩ := Prod.mk.inj (Option.some.inj ((hcaret _).symm.trans hsplit))
      exact hmore (hexponents.eq_of_brace ho hc hcomplete (Expression.complete_of_read hread')).2
    · exact absurd hno (List.cons_ne_nil _ _)

/-- The tokens of a factor are the longest ones at their place that are read as a factor. -/
theorem isLongest_of_written {tokens rest : List Token} {f : Factor} (hf : Written tokens f)
    (hlevel : f.isPower = false → Level TokenKind.inFactor (tokens.map (·.kind)))
    (hrest : Follows f rest) : IsLongest Expression.read tokens rest f := by
  by_cases hpower : f.isPower = true
  · cases hf with
    | power hbase hbasePower hbaseLevel ht ho hc hread hexponent =>
      exact Written.isLongest_power hbase hbasePower hbaseLevel ht ho hc hread hexponent hrest
    | _ => exact absurd hpower Bool.false_ne_true
  · rw [Bool.not_eq_true] at hpower
    exact hf.isLongest_of_not_isPower hpower (hlevel hpower) hrest

end Factor

end ImplicitCurves

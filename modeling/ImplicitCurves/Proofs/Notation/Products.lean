import ImplicitCurves.Proofs.Notation.ClosingParens

/-!
# Products of items

Two items with a multiplication sign between them are not always an item: a function at the end of the first
one can take the beginning of the second one as part of its argument, up to where no parenthesis ends, and
then what it leaves has to be readable.  This is the only thing that can go wrong: main statement
`Item.isSome_read_product_iff`.
-/

namespace ImplicitCurves

namespace Item

variable {started : Bool} {t : Token} {ts as bs : List Token}

/-- The tokens are read as factors. -/
theorem accepted_iff : Accepted started ts ↔ (readFactors Expression.read started ts).isSome = true := by
  rw [Option.isSome_iff_exists]
  simp only [readFactors_eq_some]
  rfl

/-- An item is read from a sign, if there is one, and factors. -/
theorem isSome_read_iff : (Item.read ts).isSome = true ↔ (splitSign ts).2 ≠ [] ∧
    Accepted false (splitSign ts).2 := by
  rw [Option.isSome_iff_exists]
  constructor
  · rintro ⟨i, hi⟩
    obtain ⟨hne, -, hfactored⟩ := readWith_eq_some_iff_factored.1 hi
    refine ⟨?_, i.factors, hfactored⟩
    intro hnil
    rw [hnil] at hfactored
    generalize i.factors = fs at hne hfactored
    cases hfactored
    exact hne rfl
  · rintro ⟨hne, fs, hfs⟩
    refine ⟨⟨(splitSign ts).1, fs⟩, readWith_eq_some_iff_factored.2 ⟨?_, rfl, hfs⟩⟩
    rintro rfl
    exact hne hfs.eq_nil

theorem splitSign_append (hne : as ≠ []) : (splitSign (as ++ bs)).2 = (splitSign as).2 ++ bs := by
  obtain ⟨a, as, rfl⟩ := List.exists_cons_of_ne_nil hne
  rw [List.cons_append]
  simp only [splitSign]
  split <;> rfl

theorem splitSign_inline (h : Inline ts) : (splitSign ts).2 = ts := by
  cases ts with
  | nil => rfl
  | cons t ts => rw [splitSign_of_unsigned h.isSign_first]

/-- Tokens without a sign are read as an item just if factors are read from them. -/
theorem isSome_read_inline (h : Inline ts) : (Item.read ts).isSome = true ↔ ts ≠ [] ∧ Accepted false ts := by
  rw [isSome_read_iff, splitSign_inline h]

/-- A function in front takes the longest beginning of these tokens that is an item and does not end with a
parenthesis, if there is one.  Factors are read from what it leaves. -/
def Severable (ts : List Token) : Prop :=
  ∀ taken left, ts = taken ++ left → (Item.read taken).isSome = true → ¬ EndsInParen taken →
    (∀ more, more ≠ [] → more <+: left → (Item.read (taken ++ more)).isSome = true →
      EndsInParen (taken ++ more)) →
    (readFactors Expression.read true left).isSome = true

/-- What is accepted in front of all factors is accepted behind others. -/
theorem Accepted.start (h : Accepted false ts) : Accepted true ts := by
  obtain ⟨fs, hfs⟩ := h
  cases hfs with
  | nil => exact ⟨[], .nil⟩
  | factor hmul hdiv hf hrest => exact ⟨_, .factor hmul hdiv hf hrest⟩

theorem inline_product (has : Inline as) (hlevel : Level (fun _ => true) (as.map (·.kind)))
    (ht : t.kind = .mul) (hbs : Inline bs) : Inline (as ++ t :: bs) := by
  have htInline : Inline [t] := ⟨0, by rw [List.map_singleton, ht]; rfl⟩
  have htLevel : Level (fun _ => true) ([t].map (·.kind)) := by
    rw [List.map_singleton, ht]
    rfl
  exact has.append hlevel (htInline.append htLevel hbs)

/-- A chain can stand behind a multiplication. -/
theorem chain_behind_mul (h : Chain false true false ts) (hne : ts ≠ []) (ht : t.kind = .mul) :
    Chain false true true (t :: ts) := by
  obtain ⟨u, us, rfl, hmul, hdiv⟩ := h.exists_first hne
  exact .separator (.inl ht) (by simp [canFollowMul, hmul, hdiv]) (h.mono id fun _ => rfl)

/-- What can be severed can stand behind a multiplication. -/
theorem Severable.accepted_product (hsever : Severable bs) (has : Accepted false as) (hasNe : as ≠ [])
    (hasInline : Inline as) (ht : t.kind = .mul) (hbs : Accepted false bs) (hbsNe : bs ≠ [])
    (hbsInline : Inline bs) : Accepted false (as ++ t :: bs) := by
  have hinline := inline_product hasInline (has.complete hasNe).level ht hbsInline
  have hchain := hbs.chain hbsInline
  have hfront := has.chain hasInline
  have hproduct := hfront.append (.inr hasNe) (chain_behind_mul hchain hbsNe ht)
  rcases alwaysInParens_or bs with hparens | ⟨taken, left, rfl, htaken, htakenEnd, hleft⟩
  · have hrest : Accepted true (t :: bs) := by
      obtain ⟨u, us, rfl, hmul, hdiv⟩ := hchain.exists_first hbsNe
      exact hbs.start.separator (.inl ht) (by simp [canFollowMul, hmul, hdiv])
    exact Chain.accepted_append has hasNe hrest ((alwaysInParens_cons (by rw [ht]; rfl)).2 hparens)
      hproduct hinline
  · obtain ⟨htakenChain, -⟩ := hchain.cut rfl htaken
    have hrest : Accepted true left := by
      refine accepted_iff.2 (hsever taken left rfl ?_ htakenEnd ?_)
      · exact (isSome_read_inline hbsInline.of_append_left).2 ⟨htaken.ne_nil,
          htakenChain.accepted hbsInline.of_append_left (.inr htakenEnd)⟩
      · intro more hne hmore hread
        have hprefix := (List.prefix_append_right_inj taken).2 hmore
        obtain ⟨hallNe, hall⟩ := (isSome_read_inline (hbsInline.of_prefix hprefix)).1 hread
        have hfinished := (Finished.append_iff htaken hne).1 (.of_complete (hall.complete hallNe))
        exact (endsInParen_append hne).2 (hleft more hmore hfinished)
    have htokens : as ++ t :: (taken ++ left) = as ++ t :: taken ++ left := by simp
    rw [htokens] at hproduct hinline ⊢
    have hstart := hfront.append (.inr hasNe) (chain_behind_mul htakenChain htaken.ne_nil ht)
    have haccepted := hstart.accepted hinline.of_append_left (.inr ?_)
    · exact Chain.accepted_append haccepted (by simp) hrest hleft hproduct hinline
    · have hend : ¬ EndsInParen (as ++ t :: taken) := by
        rw [endsInParen_append (List.cons_ne_nil t taken)]
        exact fun h => htakenEnd ((endsInParen_cons htaken.ne_nil).1 h)
      exact hend

/-- What does not end with a parenthesis is taken as a whole. -/
theorem severable_of_not_endsInParen (hread : (Item.read bs).isSome = true) (hend : ¬ EndsInParen bs) :
    Severable bs := by
  intro taken left heq _ _ hlonger
  by_cases hne : left = []
  · subst hne
    exact accepted_iff.1 ⟨[], .nil⟩
  · rw [heq] at hread hend
    exact absurd (hlonger left hne List.prefix_rfl hread) hend

/-- A call cannot be severed if what is in its parentheses is no expression: its name is taken, and its
arguments are left. -/
theorem not_severable_call {f o c : Token} {name : Char} {within : List Token} (hf : f.kind = .letter name)
    (hname : name ≠ 'e') (ho : o.kind = .openParen) (hc : c.kind = .closeParen)
    (hwithin : Token.AllComplete within) (hno : Expression.read within = none) :
    ¬ Severable (f :: (o :: within ++ [c])) := by
  intro hsever
  have hcloser := closer_paren ho hc
  have hgroup : IsUnit (o :: within ++ [c]) := .group hcloser hwithin
  have hgroupEnd : EndsInParen (o :: within ++ [c]) := by
    rw [EndsInParen, List.getLast?_concat, Option.map_some, hc]
  have hletter : IsUnit [f] := .atom (by rw [hf]; rfl)
  have hinline : Inline (f :: (o :: within ++ [c])) :=
    ⟨0, (level_group hcloser hwithin).cons_token hf rfl⟩
  have hfinline : Inline [f] := @Inline.of_append_left [f] _ hinline
  have hfread : (Item.read [f]).isSome = true := by
    obtain ⟨g, hg⟩ := Option.ne_none_iff_exists'.1 ((Factor.Written.variable hf hname).readWith_ne_none rfl)
    exact (isSome_read_inline hfinline).2 ⟨List.cons_ne_nil _ _, .single (by simp [hf]) (by simp [hf]) hg⟩
  have hfend : ¬ EndsInParen [f] := by simp [EndsInParen, hf]
  have hleft : Accepted true (o :: within ++ [c]) := by
    refine accepted_iff.2 (hsever [f] (o :: within ++ [c]) rfl hfread hfend ?_)
    intro more hne hmore hread
    have hprefix : [f] ++ more <+: f :: (o :: within ++ [c]) := (List.prefix_append_right_inj [f]).2 hmore
    obtain ⟨hallNe, hall⟩ := (isSome_read_inline (hinline.of_prefix hprefix)).1 hread
    have hfinished := (Finished.append_iff (.of_complete hletter.complete) hne).1 (.of_complete (hall.complete hallNe))
    rw [hgroup.eq_of_isPrefix hfinished hmore]
    exact (endsInParen_append (List.cons_ne_nil o _)).2 hgroupEnd
  obtain ⟨o', as, c', a, rest, heq, -, hc', ha⟩ :=
    (hleft.chain (inline_behind hinline (by rw [hf]; rfl) (by rw [hf]; rfl))).exists_paren (congrArg some ho)
  have htokens : within ++ c :: [] = as ++ c' :: rest := by simpa using (List.cons.inj heq).2
  obtain ⟨rfl, -, -⟩ := hwithin.eq_of_close (Expression.complete_of_read ha) (by rw [hc]; rfl)
    (by rw [hc']; rfl) htokens
  exact Option.some_ne_none a (ha.symm.trans hno)

/-- The tokens of `(x)^2`. -/
def squaredArgument : List Token :=
  [.openParen, .letter 'x', .closeParen, .caret, .number 2].map fun k => ⟨k, ⟨0, 0⟩⟩

/-- The tokens of `\sin(x)^2`.  As the first factor of a product, it takes as much of what follows as any
function does, because its argument goes on behind the exponent. -/
def squaredSine : List Token :=
  ⟨.function .sin, ⟨0, 0⟩⟩ :: squaredArgument

theorem chain_squaredArgument {vs : List Token} (h : Chain false true true vs) :
    Chain false true started (squaredArgument ++ vs) := by
  have hx : Expression.read [⟨.letter 'x', ⟨0, 0⟩⟩] = some (.ofFactor (.variable 'x' none)) :=
    (Factor.Written.variable rfl (by decide)).read_ofFactor rfl
  have htwo : Expression.read [⟨.number 2, ⟨0, 0⟩⟩] = some (.ofFactor (.number 2)) :=
    (Factor.Written.number rfl).read_ofFactor rfl
  have hbase : IsOperand true [⟨.openParen, ⟨0, 0⟩⟩, ⟨.letter 'x', ⟨0, 0⟩⟩, ⟨.closeParen, ⟨0, 0⟩⟩] :=
    (@Factor.Written.bracket ⟨.openParen, ⟨0, 0⟩⟩ ⟨.closeParen, ⟨0, 0⟩⟩ _ _ rfl rfl hx).isOperand rfl rfl
  have hexponent : IsExponent false [⟨.number 2, ⟨0, 0⟩⟩] :=
    ⟨_, _, by simp [Factor.exponentTokens], htwo, fun hno => absurd hno Bool.false_ne_true⟩
  exact .power (t := ⟨.caret, ⟨0, 0⟩⟩) hbase rfl hexponent h

theorem accepted_squaredSine : Accepted false squaredSine := by
  have hsine : Factor.IsHead [⟨.function .sin, ⟨0, 0⟩⟩] := .function rfl
  have hargument : Chain false true false (squaredArgument ++ []) := chain_squaredArgument .nil
  have hchain : Chain false true false squaredSine :=
    .head hsine (List.cons_ne_nil _ _) (fun hno => absurd hno Bool.false_ne_true) hargument
  refine hchain.accepted ⟨0, rfl⟩ (.inr ?_)
  simp [squaredSine, squaredArgument]

/-- No factor that goes on behind `\sin(x)^2` ends with a parenthesis. -/
theorem readWith_squaredSine (hend : EndsInParen bs) :
    Factor.readWith Expression.read (squaredSine ++ t :: bs) = none := by
  by_contra hsome
  obtain ⟨f, hf⟩ := Option.ne_none_iff_exists'.1 hsome
  cases hpower : f.isPower with
  | true =>
    -- the exponent would be more than the number
    obtain ⟨bases, c, es, base, exponent, -, -, hsplit, -, hes, -⟩ := Factor.exists_of_isPower hf hpower
    have hcaret : Factor.splitCaret 0 (squaredSine ++ t :: bs) =
        some (squaredSine.take 4, ⟨.number 2, ⟨0, 0⟩⟩ :: t :: bs) := rfl
    obtain ⟨-, rfl⟩ := Prod.mk.inj (Option.some.inj (hcaret.symm.trans hsplit))
    rcases hes.closesAtEnd_or_isAtom with hgroup | ⟨u, hsingle, -⟩
    · exact closesAtEnd_of_isAtom (List.append_nil _) rfl hgroup
    · cases (List.cons.inj hsingle).2
  | false =>
    -- the parenthesis at the end would be the one that closes the argument
    rcases (Factor.parsed_of_readWith hf).of_function rfl with hno | ⟨as, a, hargument, ha, -⟩
    · exact absurd (hpower.symm.trans hno) Bool.false_ne_true
    have hne : bs ≠ [] := by
      rintro rfl
      cases hend
    have hargument' : Factor.ArgumentTokens as (⟨.openParen, ⟨0, 0⟩⟩ :: [⟨.letter 'x', ⟨0, 0⟩⟩] ++
        ⟨.closeParen, ⟨0, 0⟩⟩ :: ⟨.caret, ⟨0, 0⟩⟩ :: ⟨.number 2, ⟨0, 0⟩⟩ :: t :: bs) := hargument
    have hlast : EndsInParen ([⟨.caret, ⟨0, 0⟩⟩, ⟨.number 2, ⟨0, 0⟩⟩, t] ++ bs) :=
      (endsInParen_append hne).2 hend
    have houtside : Factor.StaysOutside (⟨.caret, ⟨0, 0⟩⟩ :: ⟨.number 2, ⟨0, 0⟩⟩ :: t :: bs) :=
      fun _ _ => hlast
    have hx : Token.AllComplete [⟨.letter 'x', ⟨0, 0⟩⟩] := Complete.atom rfl
    cases (hargument'.eq_of_paren rfl rfl hx (Expression.complete_of_read ha) houtside).2

/-- What stands behind every item can be severed. -/
theorem Severable.of_product (h : Accepted false (squaredSine ++ t :: bs)) (ht : t.kind = .mul)
    (hbs : Accepted false bs) (hbsInline : Inline bs) : Severable bs := by
  intro taken left heq hread hend hlonger
  subst heq
  have htakenInline := hbsInline.of_append_left
  obtain ⟨htakenNe, htaken⟩ := (isSome_read_inline htakenInline).1 hread
  have hsquare : Inline squaredArgument := ⟨0, rfl⟩
  have hinline := inline_product hsquare rfl ht htakenInline
  have hlast : ¬ EndsInParen (squaredArgument ++ t :: taken) := by
    rw [endsInParen_append (List.cons_ne_nil t taken), endsInParen_cons htakenNe]
    exact hend
  have hchain : Chain false true false (squaredArgument ++ t :: taken) :=
    chain_squaredArgument (chain_behind_mul (htaken.chain htakenInline) htakenNe ht)
  -- the function takes what is taken, and more of it only if it does not end with a parenthesis
  have hsine : Factor.IsHead [⟨.function .sin, ⟨0, 0⟩⟩] := .function rfl
  have hsome := Chain.readWith_function hsine hinline (List.cons_ne_nil _ _)
    (hchain.accepted hinline (.inr hlast)) hlast
  have hfirst : Factor.readWith Expression.read (squaredSine ++ t :: taken) ≠ none := hsome
  obtain ⟨more, behind, f, rfl, hf⟩ := Factor.exists_longest hfirst left
  by_cases hne : more = []
  · subst hne
    rw [List.append_nil] at hf
    have htokens : squaredSine ++ t :: (taken ++ ([] ++ behind)) = squaredSine ++ t :: taken ++ behind := by
      simp
    exact accepted_iff.1 (h.behind (by simp) (by simp) htokens hf)
  · have hprefix : taken ++ more <+: taken ++ (more ++ behind) :=
      (List.prefix_append_right_inj taken).2 (List.prefix_append more behind)
    have hfinished : Finished (taken ++ more) := by
      obtain ⟨g, hg⟩ := Option.ne_none_iff_exists'.1 hfirst
      have hcomplete := (Factor.parsed_of_readWith hg).complete fun _ _ => Expression.complete_of_read
      have hmore := (Finished.append_iff (.of_complete hcomplete) hne).1 (.of_complete (complete_first hf))
      exact (Finished.append_iff (.of_complete (htaken.complete htakenNe)) hne).2 hmore
    have hparen : EndsInParen (taken ++ more) := by
      by_contra hno
      obtain ⟨hmoreChain, -⟩ := (hbs.chain hbsInline).cut (List.append_assoc taken more behind).symm hfinished
      have hmoreInline := hbsInline.of_prefix hprefix
      have hmore := hmoreChain.accepted hmoreInline (.inr hno)
      exact hno (hlonger more hne (List.prefix_append more behind)
        ((isSome_read_inline hmoreInline).2 ⟨hfinished.ne_nil, hmore⟩))
    have htokens : squaredSine ++ t :: taken ++ more = squaredSine ++ t :: (taken ++ more) := by simp
    rw [htokens] at hf
    exact absurd hf.reads (by rw [readWith_squaredSine hparen]; simp)

/-- An item without signs can stand behind a multiplication, whatever item is in front, just if it can be
severed.  As in the items of an expression, there are no signs outside of the groups of the one in front,
apart from one at its start. -/
theorem isSome_read_product_iff (hinline : Inline bs) (hread : (Item.read bs).isSome = true) :
    (∀ as t, Inline (splitSign as).2 → (Item.read as).isSome = true → t.kind = .mul →
      (Item.read (as ++ t :: bs)).isSome = true) ↔ Severable bs := by
  obtain ⟨hbsNe, hbs⟩ := (isSome_read_inline hinline).1 hread
  constructor
  · intro h
    have hsquare : Inline squaredSine := ⟨0, rfl⟩
    have hsquareRead := (isSome_read_inline hsquare).2 ⟨List.cons_ne_nil _ _, accepted_squaredSine⟩
    have hproduct := h squaredSine ⟨.mul, ⟨0, 0⟩⟩ hsquare hsquareRead rfl
    obtain ⟨-, haccepted⟩ := isSome_read_iff.1 hproduct
    exact Severable.of_product haccepted rfl hbs hinline
  · intro hsever as t hasInline has ht
    obtain ⟨hne, haccepted⟩ := isSome_read_iff.1 has
    have hasNe : as ≠ [] := by
      rintro rfl
      exact hne rfl
    rw [isSome_read_iff, splitSign_append hasNe]
    exact ⟨by simp, hsever.accepted_product haccepted hne hasInline ht hbs hbsNe hinline⟩

/-- The tokens of `a,b`. -/
def twoArguments : List Token :=
  [.letter 'a', .comma, .letter 'b'].map fun k => ⟨k, ⟨0, 0⟩⟩

/-- The tokens of `f(a,b)`. -/
def callOfTwo : List Token :=
  ⟨.letter 'f', ⟨0, 0⟩⟩ :: (⟨.openParen, ⟨0, 0⟩⟩ :: twoArguments ++ [⟨.closeParen, ⟨0, 0⟩⟩])

/-- A call of two arguments is an item, but it cannot stand behind every other item. -/
theorem isSome_read_product_call : Inline callOfTwo ∧ (Item.read callOfTwo).isSome = true ∧
    ¬ ∀ as t, Inline (splitSign as).2 → (Item.read as).isSome = true → t.kind = .mul →
      (Item.read (as ++ t :: callOfTwo)).isSome = true := by
  have hletter : ∀ name : Char, name ≠ 'e' →
      Expression.read [⟨.letter name, ⟨0, 0⟩⟩] = some (.ofFactor (.variable name none)) := fun name hname =>
    (Factor.Written.variable rfl hname).read_ofFactor rfl
  have harguments : Expression.Arguments twoArguments _ :=
    .more (t := ⟨.comma, ⟨0, 0⟩⟩) (hletter 'a' (by decide)) rfl (.single (hletter 'b' (by decide)))
  have hcomplete : Token.AllComplete twoArguments :=
    complete_of_arguments harguments.read_each fun _ _ => Expression.complete_of_read
  have hno : Expression.read twoArguments = none := by
    by_contra hsome
    obtain ⟨e, he⟩ := Option.ne_none_iff_exists'.1 hsome
    cases Expression.level_of_read he
  have hcall : Factor.Written callOfTwo _ :=
    @Factor.Written.call _ ⟨.openParen, ⟨0, 0⟩⟩ ⟨.closeParen, ⟨0, 0⟩⟩ 'f' _ _ rfl (by decide) rfl rfl
      harguments.read_each
  obtain ⟨g, hg⟩ := Option.ne_none_iff_exists'.1 (hcall.readWith_ne_none rfl)
  have hinline : Inline callOfTwo := ⟨0, rfl⟩
  have hread : (Item.read callOfTwo).isSome = true :=
    (isSome_read_inline hinline).2 ⟨List.cons_ne_nil _ _, .single (by simp) (by simp) hg⟩
  refine ⟨hinline, hread, ?_⟩
  intro hall
  have hsever : Severable callOfTwo := (isSome_read_product_iff hinline hread).1 hall
  exact not_severable_call rfl (by decide) rfl rfl hcomplete hno hsever

end Item

end ImplicitCurves

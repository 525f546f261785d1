import ImplicitCurves.Proofs.Notation.Cuts
import ImplicitCurves.Proofs.Notation.Composition

/-!
# Chains that end with parentheses

A function takes the tokens behind it up to where nothing is missing, but a parenthesis at their end is
taken for the one that closes its argument.  So behind a factor that ends with a parenthesis the chain goes
on, and a chain in which every beginning that misses nothing ends with a parenthesis can stand behind what is
accepted: main statements `Chain.behind_longest` and `Chain.accepted_append`.
-/

namespace ImplicitCurves

/-- The last token closes a parenthesis. -/
def EndsInParen (ts : List Token) : Prop :=
  ts.getLast?.map (·.kind) = some .closeParen

/-- Wherever nothing is missing, the last token closes a parenthesis. -/
def AlwaysInParens (ts : List Token) : Prop :=
  ∀ us, us <+: ts → Finished us → EndsInParen us

section Ends

variable {t : Token} {ts us vs rest : List Token}

theorem endsInParen_append (hne : us ≠ []) : EndsInParen (ts ++ us) ↔ EndsInParen us := by
  rw [EndsInParen, EndsInParen, List.getLast?_append_of_ne_nil _ hne]

theorem endsInParen_cons (hne : ts ≠ []) : EndsInParen (t :: ts) ↔ EndsInParen ts :=
  @endsInParen_append [t] ts hne

theorem AlwaysInParens.behind (h : AlwaysInParens (ts ++ us)) (hts : Finished ts) : AlwaysInParens us := by
  intro vs hvs hfinished
  have hall := h (ts ++ vs) ((List.prefix_append_right_inj ts).2 hvs)
    ((Finished.append_iff hts hfinished.ne_nil).2 hfinished)
  exact (endsInParen_append hfinished.ne_nil).1 hall

/-- An operation in front does not matter. -/
theorem alwaysInParens_cons (ht : t.kind.isOperation = true) :
    AlwaysInParens (t :: ts) ↔ AlwaysInParens ts := by
  constructor
  · intro h us hus hfinished
    have hall := h (t :: us) (List.cons_prefix_cons.2 ⟨rfl, hus⟩) ((Finished.cons_iff ht).2 hfinished)
    exact (endsInParen_cons hfinished.ne_nil).1 hall
  · intro h us hus hfinished
    obtain ⟨u, us, rfl⟩ := List.exists_cons_of_ne_nil hfinished.ne_nil
    obtain ⟨rfl, hprefix⟩ := List.cons_prefix_cons.1 hus
    have hbehind := (Finished.cons_iff ht).1 hfinished
    exact (endsInParen_cons hbehind.ne_nil).2 (h us hprefix hbehind)

theorem AlwaysInParens.behind_head {front : List Token} (h : AlwaysInParens (front ++ ts))
    (hfront : Factor.IsHead front) : AlwaysInParens ts := by
  intro us hus hfinished
  have hall := h (front ++ us) ((List.prefix_append_right_inj front).2 hus)
    (hfront.finished_iff.2 hfinished)
  exact (endsInParen_append hfinished.ne_nil).1 hall

/-- Tokens are cut behind the last one at which nothing is missing and that closes no parenthesis. -/
theorem alwaysInParens_or (ts : List Token) : AlwaysInParens ts ∨ ∃ us vs, ts = us ++ vs ∧ Finished us ∧
    ¬ EndsInParen us ∧ AlwaysInParens vs := by
  generalize hn : ts.length = n
  induction n using Nat.strongRecOn generalizing ts with
  | _ n ih =>
    by_cases hall : AlwaysInParens ts
    · exact .inl hall
    · rw [AlwaysInParens] at hall
      push Not at hall
      obtain ⟨us, ⟨rest, rfl⟩, hfinished, hend⟩ := hall
      have hpos := List.length_pos_iff.2 hfinished.ne_nil
      rw [List.length_append] at hn
      rcases ih rest.length (by omega) rest rfl with hrest | ⟨more, vs, rfl, hmore, hmoreEnd, hvs⟩
      · exact .inr ⟨us, rest, rfl, hfinished, hend, hrest⟩
      · refine .inr ⟨us ++ more, vs, (List.append_assoc _ _ _).symm,
          (Finished.append_iff hfinished hmore.ne_nil).2 hmore, ?_, hvs⟩
        rwa [endsInParen_append hmore.ne_nil]

theorem isOperation_separator (ht : t.kind = .mul ∨ t.kind = .div) : t.kind.isOperation = true := by
  rcases ht with ht | ht <;> rw [ht] <;> rfl

theorem inline_behind_separator (h : Inline (t :: ts)) (ht : t.kind = .mul ∨ t.kind = .div) : Inline ts := by
  rcases ht with ht | ht <;> exact inline_behind h (by rw [ht]; rfl) (by rw [ht]; rfl)

end Ends

namespace Factor

variable {first rest first' rest' vs : List Token} {f f' : Factor}

/-- There is only one longest factor at a place. -/
theorem IsLongest.eq_of_append {inner : Reader} (h : IsLongest inner first rest f)
    (h' : IsLongest inner first' rest' f') (heq : first ++ rest = first' ++ rest') :
    first = first' ∧ rest = rest' := by
  have hfound := Item.longestFactor_of_isLongest h
  rw [heq, Item.longestFactor_of_isLongest h'] at hfound
  obtain ⟨-, hlength⟩ := Prod.mk.inj (Option.some.inj hfound)
  exact List.append_inj heq hlength.symm

/-- With more tokens behind, the longest factor stays the same, or goes on up to some of the new ones. -/
theorem IsLongest.grow (h : IsLongest Expression.read first rest f) (vs : List Token) :
    IsLongest Expression.read first (rest ++ vs) f ∨ ∃ more behind g, more ≠ [] ∧ vs = more ++ behind ∧
      IsLongest Expression.read (first ++ rest ++ more) behind g := by
  have hsome : readWith Expression.read first ≠ none := by
    rw [h.reads]
    exact Option.some_ne_none f
  obtain ⟨more, behind, g, heq, hg⟩ := exists_longest hsome (rest ++ vs)
  by_cases hwithin : more <+: rest
  · -- nothing was added, because the factor was the longest one before
    have hnil : more = [] := by
      by_contra hne
      exact Option.some_ne_none g (hg.reads.symm.trans (h.longest more hne hwithin))
    subst hnil
    rw [List.append_nil] at hg
    rw [List.nil_append] at heq
    rw [heq]
    exact .inl ⟨h.reads, hg.longest⟩
  · rcases List.append_eq_append_iff.1 heq with ⟨tail, rfl, rfl⟩ | ⟨tail, rfl, -⟩
    · refine .inr ⟨tail, behind, g, ?_, rfl, ?_⟩
      · rintro rfl
        exact hwithin (by simp)
      · rwa [List.append_assoc]
    · exact absurd (List.prefix_append more tail) hwithin

/-- Nothing is taken off an argument that does not start with a parenthesis. -/
theorem argumentTokens_of_first {t : Token} {ts : List Token} (ht : t.kind ≠ .openParen) :
    argumentTokens (t :: ts) = some (t :: ts) := by
  rw [argumentTokens, if_neg]
  rintro ⟨-, hparen, -⟩
  exact ht hparen

end Factor

namespace Item.Accepted

variable {started : Bool} {t : Token} {ts first rest : List Token} {f : Factor}

theorem complete (h : Accepted started ts) (hne : ts ≠ []) : Token.AllComplete ts := by
  obtain ⟨fs, hfs⟩ := h
  exact (hfs.complete fun _ _ => Expression.complete_of_read).resolve_left hne

theorem chain (h : Accepted started ts) (hinline : Inline ts) : Chain false true started ts := by
  obtain ⟨fs, hfs⟩ := h
  exact hfs.chain hinline

/-- What stands behind the longest factor is accepted. -/
theorem behind (h : Accepted started (t :: ts)) (hmul : t.kind ≠ .mul) (hdiv : t.kind ≠ .div)
    (heq : t :: ts = first ++ rest) (hf : Factor.IsLongest Expression.read first rest f) :
    Accepted true rest := by
  obtain ⟨fs, hfs⟩ := h
  cases hfs with
  | mul ht _ _ => exact absurd ht hmul
  | div ht _ _ => exact absurd ht hdiv
  | factor _ _ hf' hrest =>
    obtain ⟨-, rfl⟩ := hf'.eq_of_append hf heq
    exact ⟨_, hrest⟩

/-- What is accepted is empty, or starts with a separator or with its longest factor. -/
theorem cases_of (h : Accepted started ts) (hinline : Inline ts) : ts = [] ∨
    (∃ t u us, ts = t :: u :: us ∧ started = true ∧ (t.kind = .mul ∨ t.kind = .div) ∧
      canFollowMul u = true ∧ Accepted true (u :: us)) ∨
    ∃ t us rest f, ts = t :: us ++ rest ∧ t.kind ≠ .mul ∧ t.kind ≠ .div ∧
      Factor.IsLongest Expression.read (t :: us) rest f ∧ Accepted true rest := by
  have hchain := h.chain hinline
  obtain ⟨fs, hfs⟩ := h
  cases hfs with
  | nil => exact .inl rfl
  | mul ht hu hrest => exact .inr (.inl ⟨_, _, _, rfl, rfl, .inl ht, hu, _, hrest⟩)
  | @div t first rest f fs ht hf hrest =>
    obtain ⟨-, u, us, heq, hu, -⟩ := hchain.behind_separator (.inr ht)
    have hfirst : u.kind ≠ .mul ∧ u.kind ≠ .div := by simpa [canFollowMul] using hu
    have haccepted : Accepted true (u :: us) := cons ⟨_, hrest⟩ heq.symm hfirst.1 hfirst.2 hf
    exact .inr (.inl ⟨t, u, us, by rw [heq], rfl, .inr ht, hu, haccepted⟩)
  | factor hmul hdiv hf hrest => exact .inr (.inr ⟨_, _, _, _, rfl, hmul, hdiv, hf, _, hrest⟩)

end Item.Accepted

namespace Chain

variable {started : Bool} {t : Token} {ts us vs es first rest : List Token} {f : Factor}

/-- A chain can be cut in front of tokens that are accepted on their own. -/
theorem behind_finished (h : Chain false true started (first ++ (rest ++ vs))) (hfirst : Finished first)
    (hrest : Item.Accepted true rest) (hne : rest ≠ []) (hinline : Inline rest) :
    Chain false true true (rest ++ vs) := by
  have hchain := hrest.chain hinline
  obtain ⟨u, us, rfl⟩ := List.exists_cons_of_ne_nil hne
  obtain ⟨-, hbehind⟩ := h.cut rfl hfirst
  generalize hall : u :: us ++ vs = all at hbehind
  cases hbehind with
  | chain h => exact h
  | exponent ht _ _ => exact absurd ((List.cons.inj hall).1 ▸ ht) hchain.first_ne_caret
  | @arguments o c name as behind hlast ho hc has h =>
    -- what is accepted starts with a group, so there is a single argument
    obtain ⟨rfl, -⟩ := List.cons.inj hall
    obtain ⟨o', as', c', a, tail, heq, -, hc', ha⟩ := hchain.exists_paren (congrArg some ho)
    rw [heq] at hall
    have htokens : as' ++ c' :: (tail ++ vs) = as ++ c :: behind := by simpa using (List.cons.inj hall).2
    obtain ⟨rfl, rfl, -⟩ := (Expression.complete_of_read ha).eq_of_close has (by rw [hc']; rfl)
      (by rw [hc]; rfl) htokens
    exact h ((Factor.Written.bracket ho hc ha).isOperand rfl rfl)

/-- Tokens are added behind what is accepted.  Either all factors stay as they are, and then what is added
has to be accepted, or one of them goes on up to some of the added tokens, and then the rest of them. -/
theorem accepted_extend (hts : Item.Accepted started ts) (hne : ts ≠ [])
    (h : Chain false true started (ts ++ vs)) (hinline : Inline (ts ++ vs))
    (hstays : ∀ last f, last <:+ ts → Chain false true true (last ++ vs) → Inline (last ++ vs) →
      Factor.IsLongest Expression.read last vs f → Item.Accepted true vs)
    (hgrows : ∀ last more rest f, last <:+ ts → vs = more ++ rest → Finished more →
      Chain false true true (last ++ more ++ rest) → Inline (last ++ more ++ rest) →
      Factor.IsLongest Expression.read (last ++ more) rest f → Item.Accepted true rest) :
    Item.Accepted started (ts ++ vs) := by
  generalize hn : ts.length = n
  induction n using Nat.strongRecOn generalizing started ts with
  | _ n ih =>
    rcases hts.cases_of hinline.of_append_left with rfl |
      ⟨s, u, us, rfl, rfl, hs, hu, hrest⟩ | ⟨s, us, rest, f, rfl, hmul, hdiv, hf, hrest⟩
    · exact absurd rfl hne
    · obtain ⟨-, v, vs', heq, -, hchain⟩ := h.behind_separator hs
      rw [← heq] at hchain
      have hsuffix : u :: us <:+ s :: u :: us := List.suffix_cons s (u :: us)
      have haccepted := ih (u :: us).length (by rw [← hn]; exact Nat.lt_succ_self _) hrest
        (List.cons_ne_nil u us) hchain (inline_behind_separator hinline hs)
        (fun last f hlast => hstays last f (hlast.trans hsuffix))
        (fun last more rest f hlast => hgrows last more rest f (hlast.trans hsuffix)) rfl
      exact haccepted.separator hs hu
    · have hcomplete := hts.complete hne
      rcases hf.grow vs with hlongest | ⟨more, behind, g, hmoreNe, rfl, hg⟩
      · by_cases hnil : rest = []
        · subst hnil
          rw [List.append_nil] at h hinline hstays ⊢
          have hvs := hstays (s :: us) f (List.suffix_refl _) (h.mono id fun _ => rfl) hinline hlongest
          exact hvs.cons rfl hmul hdiv hlongest
        · have hsuffix : rest <:+ s :: us ++ rest := List.suffix_append _ _
          rw [List.append_assoc] at h hinline
          have hrestInline := hinline.of_append_right (complete_first hf).level
          have hchain := h.behind_finished (.of_complete (complete_first hf)) hrest hnil
            hrestInline.of_append_left
          have haccepted := ih rest.length (by rw [← hn, List.length_append, List.length_cons]; omega) hrest
            hnil hchain hrestInline (fun last f hlast => hstays last f (hlast.trans hsuffix))
            (fun last more rest f hlast => hgrows last more rest f (hlast.trans hsuffix)) rfl
          exact haccepted.cons (List.append_assoc (s :: us) rest vs) hmul hdiv hlongest
      · have hfinished := (Finished.append_iff (.of_complete hcomplete) hmoreNe).1
          (.of_complete (complete_first hg))
        rw [← List.append_assoc] at h hinline
        have hbehind := hgrows _ more behind g (List.suffix_refl _) rfl hfinished (h.mono id fun _ => rfl)
          hinline hg
        exact hbehind.cons (List.append_assoc (s :: us ++ rest) more behind).symm hmul hdiv hg

/-- An exponent can stand behind accepted tokens of less than `n` that end with a parenthesis. -/
def ExponentBelow (t : Token) (es : List Token) (n : Nat) : Prop :=
  ∀ (started : Bool) (ts : List Token), ts.length < n → Item.Accepted started ts → EndsInParen ts →
    Chain false true started (ts ++ t :: es) → Inline (ts ++ t :: es) → Item.Accepted started (ts ++ t :: es)

/-- A factor that ends with a parenthesis is read together with an exponent, if the exponent is part of the
chain.  A function takes it into its argument, unless the argument is a group. -/
theorem readWith_exponent_of_below (hbelow : ExponentBelow t es ts.length)
    (h : Chain false true started (ts ++ t :: es)) (hinline : Inline (ts ++ t :: es))
    (hread : Factor.readWith Expression.read ts = some f) (hpower : f.isPower = false)
    (hend : EndsInParen ts) (ht : t.kind = .caret) (hes : IsExponent false es) :
    Factor.readWith Expression.read (ts ++ t :: es) ≠ none := by
  cases hfunction : f.isFunction with
  | false =>
    have hoperand : IsOperand true ts :=
      ⟨f, hread, by rw [Factor.isOperand, hfunction, hpower]; rfl, rfl⟩
    exact hoperand.readWith_power ht hes
  | true =>
    obtain ⟨front, as, argument, a, rfl, hfront, hargument, ha⟩ :=
      Factor.exists_of_isFunction hread hfunction
    cases hargument with
    | @paren o c ho hc =>
      have hlevel : Level TokenKind.inFactor ((front ++ (o :: as ++ [c])).map (·.kind)) := by
        rw [List.map_append]
        exact hfront.level.append (level_group (closer_paren ho hc) (Expression.complete_of_read ha))
      obtain ⟨u, us, rfl, -⟩ := hfront.exists_first
      have haccepted : Item.Accepted false (u :: us ++ (o :: as ++ [c])) :=
        .single hfront.first_ne.1 hfront.first_ne.2 hread
      obtain ⟨base, hbase⟩ := haccepted.exists_read hinline.of_append_left (List.cons_ne_nil _ _)
      exact Factor.readWith_power hlevel hbase ht hes
    | plain hno =>
      rw [List.append_assoc] at h hinline ⊢
      have hbehind : Inline (as ++ t :: es) := hinline.of_append_right (hfront.level.mono fun _ _ => rfl)
      obtain ⟨fs, -, -, hfs⟩ := (Expression.read_inline hbehind.of_append_left).1 ha
      obtain ⟨u, us, rfl⟩ := List.exists_cons_of_ne_nil (Finished.of_complete (Expression.complete_of_read ha)).ne_nil
      have hasEnd : EndsInParen (u :: us) := (endsInParen_append (List.cons_ne_nil u us)).1 hend
      have hu : u.kind ≠ .openParen := fun hopen => hno ⟨congrArg some hopen, hasEnd⟩
      have hlength : (u :: us).length < (front ++ u :: us).length := by
        have hpos : front ≠ [] := by
          obtain ⟨v, vs, rfl, -⟩ := hfront.exists_first
          exact List.cons_ne_nil v vs
        have := List.length_pos_iff.2 hpos
        rw [List.length_append]
        omega
      have haccepted := hbelow false (u :: us) hlength ⟨fs, hfs⟩ hasEnd (h.behind_head hfront) hbehind
      obtain ⟨b, hb⟩ := haccepted.exists_read hbehind (List.cons_ne_nil _ _)
      exact hfront.readWith_ne_none (Factor.argumentTokens_of_first hu) hb

/-- An exponent can stand behind what is accepted and ends with a parenthesis, if it is part of the
chain. -/
theorem accepted_exponent (hts : Item.Accepted started ts) (hend : EndsInParen ts)
    (h : Chain false true started (ts ++ t :: es)) (hinline : Inline (ts ++ t :: es))
    (ht : t.kind = .caret) (hes : IsExponent false es) : Item.Accepted started (ts ++ t :: es) := by
  generalize hn : ts.length = n
  induction n using Nat.strongRecOn generalizing started ts with
  | _ n ih =>
    have hne : ts ≠ [] := by
      rintro rfl
      cases hend
    refine accepted_extend hts hne h hinline ?_ ?_
    · -- the last factor does not stay as it is, but takes the exponent
      rintro last f ⟨front, rfl⟩ hchain hlastInline hlongest
      have hbelow : ExponentBelow t es last.length := by
        intro started us hus husAccepted husEnd husChain husInline
        refine ih us.length ?_ husAccepted husEnd husChain husInline rfl
        rw [← hn, List.length_append]
        omega
      have hlastEnd := (endsInParen_append (Factor.parsed_of_readWith hlongest.reads).ne_nil).1 hend
      refine absurd (hlongest.longest _ (List.cons_ne_nil t es) List.prefix_rfl) ?_
      cases hpower : f.isPower with
      | true => exact absurd ht (hchain.behind_power hlongest.reads hpower).first_ne_caret
      | false =>
        exact hchain.readWith_exponent_of_below hbelow hlastInline hlongest.reads hpower hlastEnd ht hes
    · -- it goes on behind the caret, so up to the end of the exponent
      intro last more rest f _ heq hfinished _ _ _
      obtain ⟨u, more, rfl⟩ := List.exists_cons_of_ne_nil hfinished.ne_nil
      obtain ⟨rfl, hes'⟩ := List.cons.inj heq
      have hmore := (Finished.cons_iff (by rw [ht]; rfl)).1 hfinished
      obtain rfl := hes.unit.eq_of_isPrefix hmore ⟨rest, hes'.symm⟩
      obtain rfl : rest = [] := List.append_cancel_left (hes'.symm.trans (List.append_nil more).symm)
      exact ⟨[], .nil⟩

/-- A factor that ends with a parenthesis is read together with an exponent behind it. -/
theorem readWith_exponent (h : Chain false true started (ts ++ t :: es)) (hinline : Inline (ts ++ t :: es))
    (hread : Factor.readWith Expression.read ts = some f) (hpower : f.isPower = false)
    (hend : EndsInParen ts) (ht : t.kind = .caret) (hes : IsExponent false es) :
    Factor.readWith Expression.read (ts ++ t :: es) ≠ none := by
  have hbelow : ExponentBelow t es ts.length := fun started us _ hus husEnd h hinline =>
    accepted_exponent hus husEnd h hinline ht hes
  exact h.readWith_exponent_of_below hbelow hinline hread hpower hend ht hes

/-- Behind a longest factor that ends with a parenthesis the chain goes on. -/
theorem behind_longest (h : Chain false true started (first ++ rest)) (hinline : Inline (first ++ rest))
    (hf : Factor.IsLongest Expression.read first rest f) (hend : EndsInParen first) :
    Chain false true true rest := by
  have hfinished : Finished first := .of_complete (complete_first hf)
  obtain ⟨-, hbehind⟩ := h.cut rfl hfinished
  cases hbehind with
  | chain h => exact h
  | arguments hlast _ _ _ _ => exact absurd (hend.symm.trans hlast) (by simp)
  | @exponent t es behind ht hes _ =>
    -- the factor would have gone on up to the end of the exponent
    have htokens : first ++ (t :: es ++ behind) = first ++ t :: es ++ behind :=
      (List.append_assoc _ _ _).symm
    obtain ⟨hchain, -⟩ := h.cut htokens
      ((Finished.append_iff hfinished (List.cons_ne_nil t es)).2
        ((Finished.cons_iff (by rw [ht]; rfl)).2 (.of_complete hes.complete)))
    rw [htokens] at hinline
    refine absurd (hf.longest _ (List.cons_ne_nil t es) (List.prefix_append _ behind)) ?_
    cases hpower : f.isPower with
    | true => exact absurd ht (hchain.behind_power hf.reads hpower).first_ne_caret
    | false => exact hchain.readWith_exponent hinline.of_append_left hf.reads hpower hend ht hes

/-- A chain that always ends with a parenthesis starts with a factor, if shorter ones are accepted. -/
theorem exists_beginning (h : Chain false true false ts) (hne : ts ≠ []) (hinline : Inline ts)
    (hparens : AlwaysInParens ts) (hbelow : ∀ us : List Token, us.length < ts.length →
      Chain false true false us → Inline us → AlwaysInParens us → Item.Accepted false us) :
    ∃ first rest, ts = first ++ rest ∧ Factor.readWith Expression.read first ≠ none := by
  cases h with
  | nil => exact absurd rfl hne
  | @operand _ _ ts rest hts _ =>
    obtain ⟨f, hf, -⟩ := hts
    exact ⟨ts, rest, rfl, by rw [hf]; exact Option.some_ne_none f⟩
  | @power _ _ t ts es rest hts _ _ _ =>
    obtain ⟨f, hf, -⟩ := hts
    exact ⟨ts, t :: es ++ rest, rfl, by rw [hf]; exact Option.some_ne_none f⟩
  | @head _ _ front rest hfront hrest _ hchain =>
    by_cases hopen : rest.head?.map (·.kind) = some .openParen
    · obtain ⟨o, as, c, a, tail, rfl, ho, hc, ha⟩ := hchain.exists_paren hopen
      refine ⟨front ++ (o :: as ++ [c]), tail, (List.append_assoc _ _ _).symm, ?_⟩
      exact hfront.readWith_ne_none (Factor.argumentTokens_eq_some ho hc) ha
    · -- the function takes the first factor of its argument
      have hrestInline : Inline rest := hinline.of_append_right (hfront.level.mono fun _ _ => rfl)
      have hlength : rest.length < (front ++ rest).length := by
        obtain ⟨v, vs, rfl, -⟩ := hfront.exists_first
        rw [List.length_append, List.length_cons]
        omega
      have haccepted := hbelow rest hlength hchain hrestInline (hparens.behind_head hfront)
      rcases haccepted.cases_of hrestInline with rfl | ⟨_, _, _, _, hno, _⟩ |
        ⟨u, us, behind, f, rfl, hmul, hdiv, hf, -⟩
      · exact absurd rfl hrest
      · exact absurd hno Bool.false_ne_true
      · have hu : u.kind ≠ .openParen := fun hparen => hopen (congrArg some hparen)
        have hfirst : Item.Accepted false (u :: us) := .single hmul hdiv hf.reads
        obtain ⟨a, ha⟩ := hfirst.exists_read hrestInline.of_append_left (List.cons_ne_nil u us)
        refine ⟨front ++ u :: us, behind, (List.append_assoc _ _ _).symm, ?_⟩
        exact hfront.readWith_ne_none (Factor.argumentTokens_of_first hu) ha

/-- A chain that always ends with a parenthesis is accepted. -/
theorem accepted_of_alwaysInParens (h : Chain false true started ts) (hinline : Inline ts)
    (hparens : AlwaysInParens ts) : Item.Accepted started ts := by
  generalize hn : ts.length = n
  induction n using Nat.strongRecOn generalizing started ts with
  | _ n ih =>
    rcases h.separator_or with ⟨s, u, us, rfl, rfl, hs, hu, hrest⟩ | hchain
    · have haccepted := ih (u :: us).length (by rw [← hn]; exact Nat.lt_succ_self _) hrest
        (inline_behind_separator hinline hs) ((alwaysInParens_cons (isOperation_separator hs)).1 hparens) rfl
      exact haccepted.separator hs hu
    · by_cases hne : ts = []
      · subst hne
        exact ⟨[], .nil⟩
      obtain ⟨t, us, hts, hmul, hdiv⟩ := hchain.exists_first hne
      obtain ⟨first, rest, rfl, hread⟩ := hchain.exists_beginning hne hinline hparens
        fun us hus husChain husInline husParens => ih us.length (hn ▸ hus) husChain husInline husParens rfl
      obtain ⟨more, behind, f, rfl, hf⟩ := Factor.exists_longest hread rest
      rw [← List.append_assoc] at h hinline hparens hts hn
      have hend := hparens _ (List.prefix_append _ behind) (.of_complete (complete_first hf))
      have hrest := h.behind_longest hinline hf hend
      have hpos := List.length_pos_iff.2 (Factor.parsed_of_readWith hf.reads).ne_nil
      have haccepted := ih behind.length (by rw [← hn, List.length_append]; omega) hrest
        (hinline.of_append_right (complete_first hf).level)
        (hparens.behind (.of_complete (complete_first hf))) rfl
      rw [← List.append_assoc, hts]
      exact haccepted.cons hts.symm hmul hdiv hf

/-- What always ends with a parenthesis can stand behind what is accepted. -/
theorem accepted_append (hts : Item.Accepted started ts) (hne : ts ≠ []) (hvs : Item.Accepted true vs)
    (hparens : AlwaysInParens vs) (h : Chain false true started (ts ++ vs)) (hinline : Inline (ts ++ vs)) :
    Item.Accepted started (ts ++ vs) := by
  refine accepted_extend hts hne h hinline (fun _ _ _ _ _ _ => hvs) ?_
  rintro last more rest f _ rfl hfinished hchain hlastInline hf
  have hend := hparens more (List.prefix_append _ _) hfinished
  have hrest := hchain.behind_longest hlastInline hf ((endsInParen_append hfinished.ne_nil).2 hend)
  exact hrest.accepted_of_alwaysInParens (hlastInline.of_append_right (complete_first hf).level)
    (hparens.behind hfinished)

end Chain

end ImplicitCurves

import ImplicitCurves.Proofs.Notation.Longest
import ImplicitCurves.Proofs.Notation.Parens

/-!
# What is read

The trees that come out of the readers: main statement `Expression.produced_of_read`.  They can be
written once there are brackets around the bases of their powers.  A power does not stand right behind
a factor without a caret, because it would have taken that factor into its base.
-/

namespace ImplicitCurves

/-- Whether the token is no caret. -/
def TokenKind.isCaretless (k : TokenKind) : Bool :=
  k ≠ .caret

namespace Item

variable {inner : Factor.Reader} {started : Bool} {tokens first rest : List Token} {f g : Factor}
  {fs gs : List Factor}

/-- Without factors there are no tokens. -/
theorem Factored.eq_nil (h : Factored inner started tokens []) : tokens = [] := by
  generalize hfs : ([] : List Factor) = fs at h
  induction h with
  | nil => rfl
  | mul _ _ _ ih => exact absurd (ih hfs) (List.cons_ne_nil _ _)
  | div _ _ _ _ => cases hfs
  | factor _ _ _ _ _ => cases hfs

/-- What is read at the start of an item can also be read further behind. -/
theorem Factored.behind (h : Factored inner false tokens fs) : Factored inner true tokens fs := by
  cases h with
  | nil => exact .nil
  | factor hmul hdiv hf h => exact .factor hmul hdiv hf h

/-- The first factor, and what can be read in its place. -/
theorem Factored.exists_head (h : Factored inner true tokens (g :: gs)) :
    (∃ f : Factor, g = f.reciprocal) ∨ ∃ front first rest, tokens = front ++ first ++ rest ∧
      Factor.IsLongest inner first rest g ∧
      (∀ allowed : TokenKind → Bool, allowed .mul = true → Level allowed (front.map (·.kind))) ∧
      ∀ us us' hs, us ≠ [] → first = us ++ us' → Factored inner false us hs →
        Factored inner true (front ++ us) hs := by
  cases h with
  | div ht hf h => exact .inl ⟨_, rfl⟩
  | @factor _ t first rest _ _ hmul hdiv hf h =>
    refine .inr ⟨[], t :: first, rest, rfl, hf, fun _ _ => Level.nil, ?_⟩
    intro us us' hs _ _ hus
    exact hus.behind
  | @mul m u us _ hm hu h =>
    cases h with
    | div ht hf h => simp [canFollowMul, ht] at hu
    | mul ht _ _ => simp [canFollowMul, ht] at hu
    | @factor _ _ first rest _ _ hmul hdiv hf h =>
      refine .inr ⟨[m], u :: first, rest, rfl, hf, fun allowed hallowed => ?_, ?_⟩
      · exact Level.nil.cons (k := m.kind) (by rw [hm]; rfl) (by rw [hm]; rfl) (by rw [hm]; exact hallowed)
      · intro us us' hs hne hfirst hus
        obtain ⟨v, vs, rfl⟩ := List.exists_cons_of_ne_nil hne
        obtain ⟨rfl, -⟩ := List.cons.inj hfirst
        exact .mul hm hu hus.behind

end Item

/-- An expression that is a single factor is read from the tokens of the factor. -/
theorem Expression.readWith_of_read_ofFactor {ts : List Token} {f : Factor} (hinline : Inline ts)
    (h : read ts = some (.ofFactor f)) : Factor.readWith read ts = some f := by
  obtain ⟨fs, -, heq, hfactored⟩ := (read_inline hinline).1 h
  obtain rfl : [f] = fs := (Item.mk.inj (List.cons.inj (Expression.mk.inj heq)).1).2
  cases hfactored with
  | @factor _ t first rest _ _ hmul hdiv hf hnothing =>
    obtain rfl := hnothing.eq_nil
    rw [List.append_nil]
    exact hf.reads

namespace Factor

variable {inner : Reader} {tokens first rest : List Token} {f : Factor}

theorem IsLongest.of_prefix {rest' : List Token} (h : IsLongest inner first rest f) (hrest : rest' <+: rest) :
    IsLongest inner first rest' f :=
  ⟨h.reads, fun more hne hmore => h.longest more hne (hmore.trans hrest)⟩

/-- The tokens of a base have no caret outside of groups. -/
theorem splitCaret_base {depth : Int} {bases : List Token} (h : splitCaret depth tokens = some (bases, rest)) :
    splitCaret depth bases = none := by
  induction tokens generalizing depth bases with
  | nil => cases h
  | cons t ts ih =>
    rw [splitCaret] at h
    split at h
    · obtain ⟨rfl, -⟩ := Prod.mk.inj (Option.some.inj h)
      rfl
    · next hcaret =>
      obtain ⟨⟨bases', rest'⟩, h', heq⟩ := Option.map_eq_some_iff.1 h
      obtain ⟨rfl, rfl⟩ := Prod.mk.inj heq
      rw [splitCaret, if_neg hcaret, ih h']
      rfl

/-- A power does not stand right behind a factor without a caret, because the factor would belong to
its base. -/
theorem IsLongest.not_isPower {t : Token} {g : Factor} {gs : List Factor} (hmul : t.kind ≠ .mul)
    (hdiv : t.kind ≠ .div) (hf : IsLongest Expression.read (t :: first) rest f)
    (hcaret : Level TokenKind.isCaretless ((t :: first).map (·.kind)))
    (hinline : Inline (t :: first ++ rest)) (hrest : Item.Factored Expression.read true rest (g :: gs)) :
    g.isPower = false := by
  rw [← Bool.not_eq_true]
  intro hpower
  rcases hrest.exists_head with ⟨f', rfl⟩ | ⟨front, second, rest', rfl, hg, hfront, hplace⟩
  · exact Bool.false_ne_true hpower
  have hread := readPower_of_isPower hg.reads hpower
  unfold readPower at hread
  obtain ⟨⟨bases, behind⟩, hsplit, hread⟩ := Option.bind_eq_some_iff.1 hread
  dsimp only at hread
  split at hread
  · cases hread
  next hne =>
  obtain ⟨exponents, hexponents, hread⟩ := Option.bind_eq_some_iff.1 hread
  obtain ⟨base, hbase, hread⟩ := Option.bind_eq_some_iff.1 hread
  obtain ⟨exponent, hexponent, -⟩ := Option.bind_eq_some_iff.1 hread
  obtain ⟨c, hc, rfl⟩ := exists_of_splitCaret hsplit
  have hmore : front ++ (bases ++ c :: behind) <+: front ++ (bases ++ c :: behind) ++ rest' :=
    List.prefix_append _ _
  -- The factor and the base together are read as a base.
  have hstart : Inline (t :: first ++ (front ++ bases)) := by
    refine hinline.of_prefix ?_
    simp
  have hbaseInline : Inline bases := by
    rw [← List.append_assoc] at hstart
    refine hstart.of_append_right ?_
    rw [List.map_append]
    exact (hcaret.mono fun _ _ => rfl).append (hfront _ rfl)
  obtain ⟨hs, hsne, -, hbases⟩ := (Expression.read_inline hbaseInline).1 hbase
  have hbasesNe : bases ≠ [] := fun hnil => hne (by rw [hnil]; rfl)
  have hall : Item.Factored Expression.read false (t :: first ++ (front ++ bases)) (f :: hs) := by
    refine .factor hmul hdiv (hf.of_prefix ?_) (hplace bases (c :: behind) hs hbasesNe rfl hbases)
    simp
  have hlonger := (Expression.read_inline hstart).2 ⟨f :: hs, List.cons_ne_nil _ _, rfl, hall⟩
  have hcarets : splitCaret 0 (t :: first ++ (front ++ (bases ++ c :: behind))) =
      some (t :: first ++ (front ++ bases), behind) := by
    have hpass : Level TokenKind.isCaretless ((t :: first ++ front).map (·.kind)) := by
      rw [List.map_append]
      exact hcaret.append (hfront _ rfl)
    have happend := @splitCaret_append _ 0 0 _ (bases ++ c :: behind) rfl hpass
    rw [Int.natCast_zero, hsplit] at happend
    rw [← List.append_assoc, happend]
    simp
  refine Factor.readWith_ne_none (f := .power ⟨[⟨true, f :: hs⟩]⟩ exponent) (.inr (.inl ?_))
    (hf.longest _ ?_ hmore)
  · simp only [readPower, hcarets, bind, Option.bind_some, hexponents, hlonger, hexponent]
    rfl
  · simp

/-- Numbers and variables are single tokens. -/
theorem Parsed.caretless_of_isPlain (h : Parsed inner tokens f) (hf : f.isPlain = true) :
    Level TokenKind.isCaretless (tokens.map (·.kind)) := by
  cases h with
  | @number t x ht => exact .of_token ht rfl
  | @«variable» t name ht _ =>
    exact .of_token ht rfl
  | _ => exact absurd hf Bool.false_ne_true

/-- The base of a power is not read as a power. -/
theorem isPower_base {bases : List Token} {g : Factor} (hcaret : splitCaret 0 tokens = some (bases, rest))
    (hg : readWith inner bases = some g) : g.isPower = false := by
  rw [← Bool.not_eq_true]
  intro hpower
  have hread := readPower_of_isPower hg hpower
  rw [readPower, splitCaret_base hcaret] at hread
  cases hread

/-- What is read as a factor is as the readers make it. -/
theorem Parsed.produced (h : Parsed Expression.read tokens f) (hinline : Inline tokens)
    (hspellable : ∀ t ∈ tokens, t.kind.Spellable) : f.Produced := by
  cases h with
  | @number t x ht =>
    have hnumber := hspellable t List.mem_cons_self
    rw [ht] at hnumber
    exact hnumber
  | @«variable» t name ht hname =>
    have hletter := hspellable t List.mem_cons_self
    rw [ht] at hletter
    exact ⟨⟨hletter, hname⟩, rfl⟩
  | @call t o c name within arguments ht hname ho hc harguments =>
    have hletter := hspellable t List.mem_cons_self
    rw [ht] at hletter
    refine ⟨⟨hletter, hname⟩, rfl, ?_⟩
    rintro rfl
    have hlength := (mapM_eq_some.1 harguments).length_eq
    exact splitTopLevel_ne_nil _ _ _ (List.length_eq_zero_iff.1 hlength)
  | @power t bases rest exponents base exponent hcaret ht hrest hbase hexponent =>
    rintro g rfl
    exact isPower_base hcaret (Expression.readWith_of_read_ofFactor hinline.of_append_left hbase)
  | _ => trivial

end Factor

section Items

variable {started : Bool} {tokens : List Token} {fs : List Factor}

theorem complete_first {first rest : List Token} {f : Factor}
    (h : Factor.IsLongest Expression.read first rest f) : Token.AllComplete first :=
  (Factor.parsed_of_readWith h.reads).complete fun _ _ => Expression.complete_of_read

/-- Each factor of an item is read from some of the tokens, or is the reciprocal of one that is. -/
theorem Item.Factored.exists_parsed (h : Factored Expression.read started tokens fs)
    (hinline : Inline tokens) : ∀ f ∈ fs, ∃ first g, first <:+: tokens ∧ Inline first ∧
      Factor.Parsed Expression.read first g ∧ (f = g ∨ f = g.reciprocal) := by
  induction h with
  | nil => exact fun f hf => by cases hf
  | @mul t u us fs ht hu _ ih =>
    intro f hf
    obtain ⟨first, g, hfirst, hg⟩ := ih (inline_behind hinline (by rw [ht]; rfl) (by rw [ht]; rfl)) f hf
    exact ⟨first, g, hfirst.trans (List.suffix_cons t _).isInfix, hg⟩
  | @div t first rest f fs ht hf _ ih =>
    have hbehind := inline_behind hinline (by rw [ht]; rfl) (by rw [ht]; rfl)
    intro f' hf'
    rcases List.mem_cons.1 hf' with rfl | hf'
    · exact ⟨first, f, ⟨[t], rest, rfl⟩, hbehind.of_append_left, Factor.parsed_of_readWith hf.reads,
        .inr rfl⟩
    · obtain ⟨first', g, hfirst, hg⟩ := ih (hbehind.of_append_right (complete_first hf).level) f' hf'
      exact ⟨first', g, hfirst.trans ⟨t :: first, [], by simp⟩, hg⟩
  | @factor _ t first rest f fs hmul hdiv hf _ ih =>
    intro f' hf'
    rcases List.mem_cons.1 hf' with rfl | hf'
    · exact ⟨t :: first, f', ⟨[], rest, rfl⟩, @Inline.of_append_left (t :: first) rest hinline,
        Factor.parsed_of_readWith hf.reads, .inl rfl⟩
    · obtain ⟨first', g, hfirst, hg⟩ :=
        ih (@Inline.of_append_right (t :: first) rest hinline (complete_first hf).level) f' hf'
      exact ⟨first', g, hfirst.trans ⟨t :: first, [], by simp⟩, hg⟩

/-- No power stands right behind a number or a variable. -/
theorem Item.Factored.spaced (h : Factored Expression.read started tokens fs) (hinline : Inline tokens) :
    fs.IsChain fun f g => (f.isPlain && g.isPower) = false := by
  induction h with
  | nil => exact List.isChain_nil
  | @mul t u us fs ht hu _ ih => exact ih (inline_behind hinline (by rw [ht]; rfl) (by rw [ht]; rfl))
  | @div t first rest f fs ht hf _ ih =>
    have hbehind := inline_behind hinline (by rw [ht]; rfl) (by rw [ht]; rfl)
    exact List.isChain_cons.2 ⟨fun g _ => rfl, ih (hbehind.of_append_right (complete_first hf).level)⟩
  | @factor _ t first rest f fs hmul hdiv hf hrest ih =>
    refine List.isChain_cons.2 ⟨fun g hg => ?_,
      ih (@Inline.of_append_right (t :: first) rest hinline (complete_first hf).level)⟩
    obtain ⟨gs, rfl⟩ : ∃ gs, fs = g :: gs := by
      cases fs with
      | nil => cases hg
      | cons g' gs => exact ⟨gs, by rw [Option.some.inj hg]⟩
    cases hplain : f.isPlain with
    | false => rfl
    | true =>
      have hcaret := (Factor.parsed_of_readWith hf.reads).caretless_of_isPlain hplain
      rw [Bool.true_and]
      exact hf.not_isPower hmul hdiv hcaret hinline hrest

end Items

namespace Expression

theorem items_ne_nil {tokens : List Token} {e : Expression} (h : read tokens = some e) :
    e.items ≠ [] := by
  obtain ⟨items⟩ := e
  rw [read_eq, readWith_eq_some] at h
  rintro rfl
  have hparts := List.forall₂_nil_right_iff.1 h.2
  have hflatten := flatten_splitItems tokens
  rw [hparts] at hflatten
  exact h.1 hflatten.symm

/-- A single factor is as the readers make it. -/
theorem produced_single {positive : Bool} {f : Factor} (hf : f.Produced)
    (hinside : ∀ c ∈ f.children, c.Produced) : Produced ⟨[⟨positive, [f]⟩]⟩ := by
  refine .intro ⟨List.cons_ne_nil _ _, fun i hi => ?_, fun i hi => ?_, fun i hi g hg => ?_⟩
    fun i hi g hg => ?_
  all_goals obtain rfl := List.mem_singleton.1 hi
  · exact List.cons_ne_nil _ _
  · exact List.isChain_singleton _
  · obtain rfl := List.mem_singleton.1 hg
    exact hf
  · obtain rfl := List.mem_singleton.1 hg
    exact hinside

/-- What is read is as the readers make it. -/
theorem produced_of_read {tokens : List Token} {e : Expression} (h : read tokens = some e)
    (hspellable : ∀ t ∈ tokens, t.kind.Spellable) : e.Produced := by
  have hone : Decimal.ReadsBack 1 := by decide +kernel
  revert hspellable
  refine read_shorter_induction (P := fun ts e => (∀ t ∈ ts, t.kind.Spellable) → e.Produced) ?_ h
  intro ts e h ih hspellable
  have hall : ∀ i ∈ e.items, i.factors ≠ [] ∧ i.Spaced ∧
      ∀ f ∈ i.factors, f.Produced ∧ ∀ c ∈ f.children, c.Produced := by
    intro i hi
    obtain ⟨us, hus, hinline, hne, hfactored⟩ := exists_factored h i hi
    refine ⟨hne, hfactored.spaced hinline, fun f hf => ?_⟩
    obtain ⟨first, g, hfirst, hfirstInline, hparsed, hfg⟩ := hfactored.exists_parsed hinline f hf
    have hwithin := hfirst.trans hus
    have hg := hparsed.produced hfirstInline fun t ht => hspellable t (hwithin.subset ht)
    have hinside : ∀ c ∈ g.children, c.Produced := by
      intro c hc
      obtain ⟨vs, hvs, hlength, hread⟩ := hparsed.exists_inside c hc
      have hle := hwithin.length_le
      exact ih vs c (by omega) hread fun t ht => hspellable t (hwithin.subset (hvs.subset ht))
    rcases hfg with rfl | rfl
    · exact ⟨hg, hinside⟩
    · refine ⟨trivial, fun c hc => ?_⟩
      rcases List.mem_pair.1 hc with rfl | rfl
      · exact produced_single hone fun c hc => by cases hc
      · exact produced_single hg hinside
  obtain ⟨items⟩ := e
  refine .intro ⟨?_, fun i hi => (hall i hi).1, fun i hi => (hall i hi).2.1,
    fun i hi f hf => ((hall i hi).2.2 f hf).1⟩ fun i hi f hf => ((hall i hi).2.2 f hf).2
  exact items_ne_nil h

end Expression

end ImplicitCurves

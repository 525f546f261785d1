import ImplicitCurves.Proofs.Notation.Reading
import ImplicitCurves.Proofs.Notation.Tidy

/-!
# What a function takes

What is read from tokens as they are written stands in order: main statement
`Expression.orderly_of_read`.  If a factor stood behind a function that does not end with a parenthesis,
then the function would have taken everything up to there as its argument.
-/

namespace ImplicitCurves

namespace Factor

variable {tokens : List Token} {f : Factor}

/-- If the tokens do not end with a parenthesis, then all of them are the argument of a function. -/
theorem argumentTokens_eq_self {rest : List Token} (hne : rest ≠ [])
    (hlast : rest.getLast?.map (·.kind) ≠ some .closeParen) : argumentTokens rest = some rest := by
  obtain ⟨t, ts, rfl⟩ := List.exists_cons_of_ne_nil hne
  rw [argumentTokens, if_neg]
  rintro ⟨-, -, hparen⟩
  exact hlast hparen

/-- A part at the start of a factor that is not closed, which is read as a factor and does not end with
a parenthesis.  A call is cut down to its name. -/
theorem Written.exists_start (h : Written tokens f) (hread : readWith Expression.read tokens ≠ none)
    (hclosed : f.isClosed = false) : ∃ us, us ≠ [] ∧ us <+: tokens ∧
      readWith Expression.read us ≠ none ∧ us.getLast?.map (·.kind) ≠ some .closeParen ∧
      (f.isPower = false → Level TokenKind.inFactor (us.map (·.kind))) := by
  have hwhole : tokens.getLast?.map (·.kind) ≠ some .closeParen → ∃ us, us ≠ [] ∧ us <+: tokens ∧
      readWith Expression.read us ≠ none ∧ us.getLast?.map (·.kind) ≠ some .closeParen ∧
      (f.isPower = false → Level TokenKind.inFactor (us.map (·.kind))) := by
    intro hlast
    obtain ⟨t, rest, rfl, -⟩ := h.exists_first
    exact ⟨t :: rest, List.cons_ne_nil _ _, List.prefix_rfl, hread, hlast, h.level⟩
  cases h with
  | number ht | «variable» ht _ => exact hwhole (by simp [ht])
  | @constant t c ht => cases c <;> exact hwhole (by simp [ht, NamedConstant.kind])
  | fraction hs ho hc ho' hc' ha hb =>
    refine hwhole ?_
    rw [List.getLast?_concat, Option.map_some, hc']
    simp
  | power hbase hpower hlevel ht ho hc hbaseRead hexponent =>
    refine hwhole ?_
    rw [List.getLast?_concat, Option.map_some, hc]
    simp
  | bracket | unary | logarithm => exact absurd hclosed.symm Bool.false_ne_true
  | @call t o c name within arguments ht hname ho hc harguments =>
    have hvariable : Written [t] (.variable name none) := .variable ht hname
    refine ⟨[t], List.cons_ne_nil _ _, ⟨o :: within ++ [c], rfl⟩, hvariable.readWith_ne_none rfl, ?_,
      fun _ => hvariable.level rfl⟩
    simp [ht]

theorem Follows.nil : Follows f [] := by
  refine ⟨fun _ => Level.nil, fun _ _ _ => by simp, fun _ more hmore => ?_⟩
  obtain rfl := List.prefix_nil.1 hmore
  exact fun hne _ => absurd rfl hne

/-- A factor that is no power is also an expression. -/
theorem Written.read_ofFactor (h : Written tokens f) (hpower : f.isPower = false) :
    Expression.read tokens = some (.ofFactor f) := by
  have hinline : Inline tokens := by
    refine ⟨0, (h.level hpower).mono fun k hk => ?_⟩
    cases k <;> first | rfl | exact absurd hk Bool.false_ne_true
  have hlongest := isLongest_of_written h h.level Follows.nil
  obtain ⟨t, rest, rfl, hmul, hdiv, -⟩ := h.exists_first
  have hfactored : Item.Factored Expression.read false (t :: (rest ++ [])) [f] :=
    .factor hmul hdiv hlongest .nil
  rw [List.append_nil] at hfactored
  exact (Expression.read_inline hinline).2 ⟨[f], List.cons_ne_nil _ _, rfl, hfactored⟩

/-- The tokens of a function without its argument. -/
inductive IsHead : List Token → Prop
  | function {t : Token} {f : UnaryFunction} (ht : t.kind = .function f) : IsHead [t]
  | logarithm {t o c : Token} {bases : List Token} {base : Expression} (ht : t.kind = .logBase)
    (ho : o.kind = .openCurly) (hc : c.kind = .closeCurly) (hbase : Expression.read bases = some base) :
    IsHead (t :: o :: bases ++ [c])
  | logarithmOfToken {t u : Token} {base : Expression} (ht : t.kind = .logBase)
    (hbase : Expression.read [u] = some base) : IsHead [t, u]

theorem readLogarithm_of_token {inner : Reader} {t u : Token} {rest as : List Token} {base a : Expression}
    (ht : t.kind = .logBase) (hu : u.kind ≠ .openCurly) (hbase : inner [u] = some base)
    (hargument : argumentTokens rest = some as) (ha : inner as = some a) :
    readLogarithm inner (t :: u :: rest) = some (.logarithm base a) := by
  obtain ⟨k, span⟩ := t
  obtain rfl : k = .logBase := ht
  simp only [readLogarithm, if_neg hu, hbase, hargument, bind, Option.bind_some, ha]
  rfl

namespace IsHead

variable {front : List Token}

/-- Outside of groups there is neither an operation nor a sign. -/
theorem level (h : IsHead front) : Level TokenKind.inFactor (front.map (·.kind)) := by
  cases h with
  | @function t f ht => exact .of_token ht rfl
  | @logarithm t o c bases base ht ho hc hbase =>
    exact (level_group (closer_brace ho hc) (Expression.complete_of_read hbase)).cons_token ht rfl
  | @logarithmOfToken t u base ht hbase =>
    have hatom := Expression.isAtom_of_read hbase
    have hu : Level TokenKind.inFactor ([u].map (·.kind)) := by
      rw [List.map_singleton]
      cases hk : u.kind <;> rw [hk] at hatom <;> first | rfl | exact absurd hatom Bool.false_ne_true
    exact hu.cons_token ht rfl

/-- With any argument behind, a function is read. -/
theorem readWith_ne_none {rest as : List Token} {a : Expression} (h : IsHead front)
    (hrest : argumentTokens rest = some as) (ha : Expression.read as = some a) :
    readWith Expression.read (front ++ rest) ≠ none := by
  cases h with
  | function ht =>
    exact Factor.readWith_ne_none (.inr (.inr (.inr (.inr (.inl (readUnary_eq_some ht hrest ha))))))
  | logarithm ht ho hc hbase =>
    have hread := readLogarithm_eq_some ht ho hc (Expression.complete_of_read hbase) hbase hrest ha
    rw [List.append_assoc, List.singleton_append]
    exact Factor.readWith_ne_none (.inr (.inr (.inr (.inr (.inr (.inl hread))))))
  | @logarithmOfToken t u base ht hbase =>
    have hu : u.kind ≠ .openCurly := fun hopen => Expression.read_openCurly hopen base hbase
    have hread := readLogarithm_of_token ht hu hbase hrest ha
    exact Factor.readWith_ne_none (.inr (.inr (.inr (.inr (.inr (.inl hread))))))

end IsHead

theorem Written.exists_argument (h : Written tokens f) (hfunction : f.isFunction = true) :
    ∃ front o as c a, tokens = front ++ (o :: as ++ [c]) ∧ IsHead front ∧
      Written (o :: as ++ [c]) (.bracket a) := by
  cases h with
  | @unary t o c f as a ht ho hc ha => exact ⟨[t], o, as, c, a, rfl, .function ht, .bracket ho hc ha⟩
  | @logarithm t o c o' c' bases as base a ht ho hc ho' hc' hbase ha =>
    exact ⟨t :: o :: bases ++ [c], o', as, c', a, by simp, .logarithm ht ho hc hbase, .bracket ho' hc' ha⟩
  | _ => exact absurd hfunction Bool.false_ne_true

/-- What stands behind the head of a function, or of a power of one, is a bracket, or a power of
one. -/
theorem Written.exists_head (h : Written tokens f) (hopen : f.isOpen = true) :
    ∃ front second g, tokens = front ++ second ∧ IsHead front ∧ Written second g ∧
      g.isPower = f.isPower ∧ g.isOpen = false ∧ ∀ name bound, g ≠ .variable name bound := by
  by_cases hpower : f.isPower = true
  · cases h with
    | @power t o c bases exponents base exponent hbase hbasePower hlevel ht ho hc hread hexponent =>
      obtain ⟨front, o', as, c', a, rfl, hhead, hbracket⟩ := hbase.exists_argument hopen
      have hsecond : Written (o' :: as ++ [c'] ++ t :: o :: exponents ++ [c])
          (.power (.ofFactor (.bracket a)) exponent) :=
        .power hbracket rfl (hbracket.level rfl) ht ho hc (hbracket.read_ofFactor rfl) hexponent
      refine ⟨front, _, _, by simp, hhead, hsecond, rfl, rfl, ?_⟩
      intro name bound
      simp
    | _ => exact absurd hpower Bool.false_ne_true
  · rw [Bool.not_eq_true] at hpower
    have hfunction : f.isFunction = true := by
      cases f <;> first | exact hopen | exact absurd hpower.symm Bool.false_ne_true
    obtain ⟨front, o, as, c, a, rfl, hhead, hbracket⟩ := h.exists_argument hfunction
    refine ⟨front, o :: as ++ [c], .bracket a, rfl, hhead, hbracket, hpower.symm, rfl, ?_⟩
    intro name bound
    simp

/-- Behind a function, or a power of one, there are no more factors that could be its argument. -/
theorem IsLongest.not_taken {first rest us : List Token} {hs : List Factor} (hf : Written first f)
    (hlongest : IsLongest Expression.read first rest f) (hopen : f.isOpen = true)
    (hinline : Inline (first ++ rest)) (hus : us <+: rest) (hne : us ≠ [])
    (hfactored : Item.Factored Expression.read true us hs)
    (hlevel : f.isPower = false → Level TokenKind.inFactor (us.map (·.kind))) :
    us.getLast?.map (·.kind) = some .closeParen := by
  by_contra hlast
  obtain ⟨front, second, g, rfl, hhead, hsecond, hpower, hgOpen, hgVariable⟩ := hf.exists_head hopen
  -- The rest of the function and the factors behind it are read as a single argument.
  have hfollows : Follows g us := by
    refine ⟨fun hno => hlevel (hpower.symm.trans hno), fun name bound hname => ?_, fun hyes => ?_⟩
    · exact absurd hname (hgVariable name bound)
    · exact absurd (hgOpen.symm.trans hyes) Bool.false_ne_true
  have hsecondLongest := isLongest_of_written hsecond hsecond.level hfollows
  have hargumentInline : Inline (second ++ us) := by
    have hstart := hinline.of_prefix ((List.prefix_append_right_inj (front ++ second)).2 hus)
    rw [List.append_assoc] at hstart
    exact hstart.of_append_right (hhead.level.mono fun _ _ => rfl)
  obtain ⟨t, tail, rfl, hmul, hdiv, -⟩ := hsecond.exists_first
  have hargument : Item.Factored Expression.read false (t :: (tail ++ us)) (g :: hs) :=
    .factor hmul hdiv hsecondLongest hfactored
  have hread := (Expression.read_inline hargumentInline).2
    ⟨g :: hs, List.cons_ne_nil _ _, rfl, hargument⟩
  have htaken : argumentTokens (t :: tail ++ us) = some (t :: tail ++ us) := by
    refine argumentTokens_eq_self (List.cons_ne_nil _ _) ?_
    rw [List.getLast?_append_of_ne_nil _ hne]
    exact hlast
  refine hhead.readWith_ne_none htaken hread ?_
  rw [← List.append_assoc]
  exact hlongest.longest us hne hus

end Factor

namespace Item

variable {started : Bool} {tokens : List Token} {f : Factor} {fs : List Factor}

/-- The tokens of factors that are read one after another as they are written. -/
inductive Written : Bool → List Token → List Factor → Prop
  | nil {started : Bool} : Written started [] []
  | mul {t u : Token} {us : List Token} {fs : List Factor} (ht : t.kind = .mul)
    (hu : canFollowMul u = true) (h : Written true (u :: us) fs) : Written true (t :: u :: us) fs
  | factor {started : Bool} {t : Token} {first rest : List Token} {f : Factor} {fs : List Factor}
    (hmul : t.kind ≠ .mul) (hdiv : t.kind ≠ .div)
    (hlongest : Factor.IsLongest Expression.read (t :: first) rest f)
    (hf : Factor.Written (t :: first) f) (h : Written true rest fs) :
    Written started (t :: (first ++ rest)) (f :: fs)

theorem Written.factored (h : Written started tokens fs) : Factored Expression.read started tokens fs := by
  induction h with
  | nil => exact .nil
  | mul ht hu _ ih => exact .mul ht hu ih
  | factor hmul hdiv hlongest hf _ ih => exact .factor hmul hdiv hlongest ih

/-- Factors are read as they are written if the tokens are tidy and no more parentheses are written
than there are.  The same is true of the parentheses inside them. -/
theorem Factored.written (h : Factored Expression.read started tokens fs) (hinline : Inline tokens)
    (htidy : Tidy (tokens.map (·.kind)))
    (hsnug : parens (tokens.map (·.kind)) = parensOfFactors fs) : Written started tokens fs ∧
      ∀ f ∈ fs, ∀ c ∈ f.children, ∃ us, us <:+: tokens ∧ us.length < tokens.length ∧
        Expression.read us = some c ∧ c.Snug us := by
  induction h with
  | nil => exact ⟨.nil, fun f hf => by cases hf⟩
  | @mul t u us fs ht hu _ ih =>
    have hbehind := inline_behind hinline (by rw [ht]; rfl) (by rw [ht]; rfl)
    rw [List.map_cons, ht, parens_cons_of_ne (by simp)] at hsnug
    have hsuffix := List.suffix_cons t (u :: us)
    obtain ⟨hwritten, hinside⟩ := ih hbehind (htidy.of_isInfix (hsuffix.map _).isInfix) hsnug
    refine ⟨.mul ht hu hwritten, fun f hf c hc => ?_⟩
    obtain ⟨vs, hvs, hlength, hread⟩ := hinside f hf c hc
    exact ⟨vs, hvs.trans hsuffix.isInfix, Nat.lt_succ_of_lt hlength, hread⟩
  | @div t first rest f fs ht hf _ ih =>
    have hwritten := htidy.written t.kind List.mem_cons_self
    rw [ht] at hwritten
    exact absurd hwritten Bool.false_ne_true
  | @factor _ t first rest f fs hmul hdiv hf hrest ih =>
    have hparsed := Factor.parsed_of_readWith hf.reads
    have hfirstLe := hparsed.parens_le fun us c => Expression.covers_of_read
    have hrestLe := hrest.parens_le fun us c => Expression.covers_of_read
    rw [← List.cons_append, List.map_append, parens_append, parensOfFactors_cons] at hsnug
    have hstart : t :: first <+: t :: first ++ rest := List.prefix_append _ _
    have hend : rest <:+ t :: first ++ rest := List.suffix_append _ _
    have hfirstInline := @Inline.of_append_left (t :: first) rest hinline
    have hrestInline := @Inline.of_append_right (t :: first) rest hinline (complete_first hf).level
    have hwritten := hparsed.written hfirstInline (htidy.of_isInfix (hstart.map _).isInfix) (by omega)
    have hfirstInside := hparsed.exists_snug (by omega)
    obtain ⟨hwrittenRest, hinside⟩ :=
      ih hrestInline (htidy.of_isInfix (hend.map _).isInfix) (by omega)
    refine ⟨.factor hmul hdiv hf hwritten hwrittenRest, List.forall_mem_cons.2 ⟨?_, ?_⟩⟩
    · intro c hc
      obtain ⟨us, hus, hlength, hread⟩ := hfirstInside c hc
      exact ⟨us, hus.trans hstart.isInfix, Nat.lt_of_lt_of_le hlength hstart.length_le, hread⟩
    · intro g hg c hc
      obtain ⟨us, hus, hlength, hread⟩ := hinside g hg c hc
      exact ⟨us, hus.trans hend.isInfix, Nat.lt_of_lt_of_le hlength hend.length_le, hread⟩

/-- If one of the factors is not closed, then some are read from tokens that do not end with a
parenthesis. -/
theorem Written.exists_start (h : Written started tokens fs) (hclosed : ∃ g ∈ fs, g.isClosed = false) :
    ∃ us hs, us ≠ [] ∧ us <+: tokens ∧ Factored Expression.read started us hs ∧
      us.getLast?.map (·.kind) ≠ some .closeParen ∧
      ((∀ g ∈ fs, g.isPower = false) → Level TokenKind.inFactor (us.map (·.kind))) := by
  induction h with
  | nil =>
    obtain ⟨g, hg, -⟩ := hclosed
    cases hg
  | @mul t u us fs ht hu _ ih =>
    obtain ⟨vs, hs, hne, hvs, hfactored, hlast, hlevel⟩ := ih hclosed
    obtain ⟨v, vs, rfl⟩ := List.exists_cons_of_ne_nil hne
    obtain ⟨rfl, -⟩ := List.cons_prefix_cons.1 hvs
    refine ⟨t :: v :: vs, hs, List.cons_ne_nil _ _, List.cons_prefix_cons.2 ⟨rfl, hvs⟩,
      .mul ht hu hfactored, hlast, fun hpowers => ?_⟩
    exact (hlevel hpowers).cons_token ht rfl
  | @factor started t first rest f fs hmul hdiv hlongest hf _ ih =>
    cases hfClosed : f.isClosed with
    | false =>
      have hread : Factor.readWith Expression.read (t :: first) ≠ none := by
        rw [hlongest.reads]
        exact Option.some_ne_none f
      obtain ⟨us, hne, hus, husRead, hlast, hlevel⟩ := hf.exists_start hread hfClosed
      obtain ⟨g, hg⟩ := Option.ne_none_iff_exists'.1 husRead
      obtain ⟨u, us, rfl⟩ := List.exists_cons_of_ne_nil hne
      obtain ⟨rfl, -⟩ := List.cons_prefix_cons.1 hus
      have hall : Factor.IsLongest Expression.read (u :: us) [] g := by
        refine ⟨hg, fun more hne hmore => ?_⟩
        exact absurd (List.prefix_nil.1 hmore) hne
      have hfactored : Factored Expression.read started (u :: (us ++ [])) [g] :=
        .factor hmul hdiv hall .nil
      rw [List.append_nil] at hfactored
      refine ⟨u :: us, [g], hne, hus.trans (List.prefix_append (u :: first) rest), hfactored, hlast,
        fun hpowers => hlevel (hpowers f List.mem_cons_self)⟩
    | true =>
      have hothers : ∃ g ∈ fs, g.isClosed = false := by
        obtain ⟨g, hg, hgClosed⟩ := hclosed
        rcases List.mem_cons.1 hg with rfl | hg
        · exact absurd (hgClosed.symm.trans hfClosed) Bool.false_ne_true
        · exact ⟨g, hg, hgClosed⟩
      obtain ⟨us, hs, hne, hus, hfactored, hlast, hlevel⟩ := ih hothers
      refine ⟨t :: (first ++ us), f :: hs, List.cons_ne_nil _ _,
        (List.prefix_append_right_inj (t :: first)).2 hus,
        .factor hmul hdiv (hlongest.of_prefix hus) hfactored, ?_, fun hpowers => ?_⟩
      · rw [← List.cons_append, List.getLast?_append_of_ne_nil _ hne]
        exact hlast
      · obtain ⟨hpower, hpowers⟩ := List.forall_mem_cons.1 hpowers
        rw [← List.cons_append, List.map_append]
        exact (hf.level hpower).append (hlevel hpowers)

/-- Behind a factor that is no power there are no powers. -/
theorem Written.isPower_behind (h : Written started tokens (f :: fs)) (hinline : Inline tokens)
    (hpower : f.isPower = false) : ∀ g ∈ fs, g.isPower = false := by
  generalize hgs : f :: fs = gs at h
  induction h generalizing f fs with
  | nil => cases hgs
  | mul ht hu _ ih => exact ih (inline_behind hinline (by rw [ht]; rfl) (by rw [ht]; rfl)) hpower hgs
  | @factor _ t first rest _ _ hmul hdiv hlongest hf hrest ih =>
    obtain ⟨rfl, rfl⟩ := List.cons.inj hgs
    cases fs with
    | nil => exact fun g hg => by cases hg
    | cons g gs =>
      have hcaret : Level TokenKind.isCaretless ((t :: first).map (·.kind)) := by
        refine (hf.level hpower).mono fun k hk => ?_
        cases k <;> first | rfl | exact absurd hk Bool.false_ne_true
      have hg := hlongest.not_isPower hmul hdiv hcaret hinline hrest.factored
      have hrestInline := @Inline.of_append_right (t :: first) rest hinline (complete_first hlongest).level
      exact List.forall_mem_cons.2 ⟨hg, ih hrestInline hg rfl⟩

/-- Factors that are read as they are written stand in order. -/
theorem Written.ordered (h : Written started tokens fs) (hinline : Inline tokens) :
    fs.Pairwise fun f g => f.mayPrecede g = true := by
  induction h with
  | nil => exact .nil
  | mul ht hu _ ih => exact ih (inline_behind hinline (by rw [ht]; rfl) (by rw [ht]; rfl))
  | @factor started t first rest f fs hmul hdiv hlongest hf hrest ih =>
    have hrestInline := @Inline.of_append_right (t :: first) rest hinline (complete_first hlongest).level
    have hpowers : f.isPower = false → ∀ g ∈ fs, g.isPower = false := by
      have hall : Written started (t :: (first ++ rest)) (f :: fs) :=
        .factor hmul hdiv hlongest hf hrest
      exact hall.isPower_behind hinline
    have hclosed : f.isOpen = true → ∀ g ∈ fs, g.isClosed = true := by
      intro hopen
      by_contra hno
      have hsome : ∃ g ∈ fs, g.isClosed = false := by simpa using hno
      obtain ⟨us, hs, hne, hus, hfactored, hlast, hlevel⟩ := hrest.exists_start hsome
      exact hlast (Factor.IsLongest.not_taken hf hlongest hopen hinline hus hne hfactored
        fun hpower => hlevel (hpowers hpower))
    refine .cons (fun g hg => ?_) (ih hrestInline)
    rw [Factor.mayPrecede, Bool.and_eq_true, Bool.or_eq_true, Bool.or_eq_true, Bool.not_eq_true',
      Bool.not_eq_true']
    constructor
    · cases hpower : f.isPower with
      | true => exact .inr rfl
      | false => exact .inl (hpowers hpower g hg)
    · cases hopen : f.isOpen with
      | true => exact .inr (hclosed hopen g hg)
      | false => exact .inl rfl

end Item

/-- What is read from tidy tokens without more parentheses being written than there are stands in
order. -/
theorem Expression.orderly_of_read {tokens : List Token} {e : Expression} (h : read tokens = some e)
    (htidy : Tidy (tokens.map (·.kind))) (hsnug : e.Snug tokens) : e.Orderly := by
  revert htidy hsnug
  refine read_shorter_induction (P := fun ts e => Tidy (ts.map (·.kind)) → e.Snug ts → e.Orderly) ?_ h
  intro ts e h ih htidy hsnug
  have hitems : ∀ i ∈ e.items, i.Ordered ∧ ∀ f ∈ i.factors, ∀ c ∈ f.children, c.Orderly := by
    intro i hi
    obtain ⟨us, hus, hinline, hfactored, hparens⟩ := exists_snug h hsnug i hi
    have husTidy := htidy.of_isInfix (hus.map _)
    obtain ⟨hwritten, hinside⟩ := hfactored.written hinline husTidy hparens
    refine ⟨hwritten.ordered hinline, fun f hf c hc => ?_⟩
    obtain ⟨vs, hvs, hlength, hread, hcSnug⟩ := hinside f hf c hc
    have hle := hus.length_le
    exact ih vs c (by omega) hread (husTidy.of_isInfix (hvs.map _)) hcSnug
  obtain ⟨items⟩ := e
  exact .intro (fun i hi => (hitems i hi).1) fun i hi => (hitems i hi).2

end ImplicitCurves

import ImplicitCurves.Parser.Expression

/-!
# Nested readers

A factor only ever reads expressions with fewer tokens than it has itself.  So two readers that
agree on all shorter lists of tokens read the same factors, items and expressions, any depth that is
not smaller than the number of tokens gives the same result, and the reader of expressions solves
the equation that describes it: main statement `Expression.read_eq`.
-/

namespace ImplicitCurves

/-- Two readers agree on all lists of fewer than `n` tokens. -/
def Factor.AgreeBelow (n : Nat) (inner inner' : Factor.Reader) : Prop :=
  ∀ tokens : List Token, tokens.length < n → inner tokens = inner' tokens

theorem Factor.AgreeBelow.mono {m n : Nat} {inner inner' : Factor.Reader}
    (h : AgreeBelow n inner inner') (hmn : m ≤ n) : AgreeBelow m inner inner' :=
  fun tokens ht => h tokens (Nat.lt_of_lt_of_le ht hmn)

theorem length_le_of_splitTopLevel {separator : TokenKind} {depth : Int} {tokens part : List Token}
    (h : part ∈ splitTopLevel separator depth tokens) : part.length ≤ tokens.length := by
  induction tokens generalizing depth part with
  | nil => simp_all [splitTopLevel]
  | cons t ts ih =>
    simp only [splitTopLevel] at h
    split at h
    · rcases List.mem_cons.1 h with rfl | h
      · simp
      · have := ih h
        simp only [List.length_cons]; omega
    · have hs : ∀ {part}, part ∈ splitTopLevel separator (t.depthAfter depth) ts →
          part.length ≤ ts.length := ih
      cases hp : splitTopLevel separator (t.depthAfter depth) ts with
      | nil => simp_all [addToFirst]
      | cons first parts =>
        rw [hp] at h hs
        rcases List.mem_cons.1 h with rfl | h
        · simpa using hs List.mem_cons_self
        · have := hs (List.mem_cons_of_mem _ h)
          simp only [List.length_cons]; omega

theorem mapM_congr_option {α β : Type} {f g : α → Option β} {xs : List α}
    (h : ∀ x ∈ xs, f x = g x) : xs.mapM f = xs.mapM g := by
  induction xs with
  | nil => rfl
  | cons x xs ih =>
    simp only [List.mapM_cons, h x List.mem_cons_self,
      ih fun y hy => h y (List.mem_cons_of_mem _ hy)]

namespace Factor

theorem length_between (tokens : List Token) : (between tokens).length = tokens.length - 2 := by
  simp [between]; omega

theorem length_of_splitCaret {depth : Int} {tokens base rest : List Token}
    (h : splitCaret depth tokens = some (base, rest)) :
    base.length + rest.length + 1 = tokens.length := by
  induction tokens generalizing depth base rest with
  | nil => simp [splitCaret] at h
  | cons t ts ih =>
    simp only [splitCaret] at h
    split at h
    · simp only [Option.some.injEq, Prod.mk.injEq] at h
      obtain ⟨rfl, rfl⟩ := h
      simp
    · obtain ⟨⟨base', rest'⟩, h', he⟩ := Option.map_eq_some_iff.1 h
      simp only [Prod.mk.injEq] at he
      obtain ⟨rfl, rfl⟩ := he
      have := ih h'
      simp only [List.length_cons]; omega

theorem length_le_of_exponentTokens {rest exponent : List Token}
    (h : exponentTokens rest = some exponent) : exponent.length ≤ rest.length := by
  unfold exponentTokens at h
  split at h
  · simp at h
  · split at h
    · simp only [Option.some.injEq] at h
      rw [← h, length_between]; omega
    · split at h
      · simp_all
      · split at h <;> simp_all

theorem length_le_of_argumentTokens {rest argument : List Token}
    (h : argumentTokens rest = some argument) : argument.length ≤ rest.length := by
  unfold argumentTokens at h
  split at h
  · simp at h
  · split at h
    · simp only [Option.some.injEq] at h
      rw [← h, length_between]; omega
    · simp_all

variable {inner inner' : Reader} {tokens : List Token}

theorem readFraction_congr (h : AgreeBelow tokens.length inner inner') :
    readFraction inner tokens = readFraction inner' tokens := by
  unfold readFraction
  split
  · next span span' rest =>
    dsimp only
    split
    · rfl
    · next stop _ =>
      split
      · next after hd =>
        have hlen := congrArg List.length hd
        simp only [List.length_drop, List.length_cons] at hlen
        have h1 : inner (rest.take (stop - 2)) = inner' (rest.take (stop - 2)) :=
          h _ (by simp only [List.length_take, List.length_cons]; omega)
        have h2 : ∀ t, inner (between (t :: after)) = inner' (between (t :: after)) := fun t =>
          h _ (by simp only [length_between, List.length_cons]; omega)
        simp only [h1, h2]
      · rfl
  · rfl

theorem readPower_congr (h : AgreeBelow tokens.length inner inner') :
    readPower inner tokens = readPower inner' tokens := by
  unfold readPower
  cases hc : splitCaret 0 tokens with
  | none => rfl
  | some p =>
    obtain ⟨base, rest⟩ := p
    have hlen := length_of_splitCaret hc
    cases he : exponentTokens rest with
    | none => simp [he]
    | some exponent =>
      have := length_le_of_exponentTokens he
      have h1 : inner base = inner' base := h _ (by omega)
      have h2 : inner exponent = inner' exponent := h _ (by omega)
      simp [he, h1, h2]

theorem readCall_congr (h : AgreeBelow tokens.length inner inner') :
    readCall inner tokens = readCall inner' tokens := by
  unfold readCall
  split
  · next rest =>
    have : (splitTopLevel .comma 0 rest.dropLast).mapM inner =
        (splitTopLevel .comma 0 rest.dropLast).mapM inner' := by
      refine mapM_congr_option fun part hp => h _ ?_
      have := length_le_of_splitTopLevel hp
      simp only [List.length_dropLast, List.length_cons] at this ⊢
      omega
    rw [this]
  · rfl

theorem readBracket_congr (h : AgreeBelow tokens.length inner inner') :
    readBracket inner tokens = readBracket inner' tokens := by
  unfold readBracket
  split
  · rfl
  · next t ts =>
    rw [h (between (t :: ts)) (by simp only [length_between, List.length_cons]; omega)]

theorem readUnary_congr (h : AgreeBelow tokens.length inner inner') :
    readUnary inner tokens = readUnary inner' tokens := by
  unfold readUnary
  split
  · next rest =>
    cases ha : argumentTokens rest with
    | none => rfl
    | some argument =>
      have := length_le_of_argumentTokens ha
      have : inner argument = inner' argument := h _ (by simp only [List.length_cons]; omega)
      simp [this]
  · rfl

theorem readLogarithm_congr (h : AgreeBelow tokens.length inner inner') :
    readLogarithm inner tokens = readLogarithm inner' tokens := by
  unfold readLogarithm
  split
  · next span t rest =>
    have harg : ∀ us : List Token, us.length ≤ rest.length →
        ((argumentTokens us).bind inner) = ((argumentTokens us).bind inner') := by
      intro us hus
      cases ha : argumentTokens us with
      | none => rfl
      | some argument =>
        have := length_le_of_argumentTokens ha
        exact h _ (by simp only [List.length_cons]; omega)
    have hbind : ∀ (r : Reader) (us : List Token) (k : Expression → Option Factor),
        ((argumentTokens us).bind fun argument => (r argument).bind k) =
          ((argumentTokens us).bind r).bind k := fun r us k => by
      cases argumentTokens us <;> rfl
    split
    · split
      · rfl
      · next stop _ =>
        have h1 : inner (rest.take (stop - 2)) = inner' (rest.take (stop - 2)) :=
          h _ (by simp only [List.length_take, List.length_cons]; omega)
        have h2 := harg (rest.drop (stop - 1)) (by simp)
        simp only [bind, hbind, h1, h2]
    · have h1 : inner [t] = inner' [t] := h _ (by simp)
      have h2 := harg rest (Nat.le_refl _)
      simp only [bind, hbind, h1, h2]
  · rfl

/-- Readers that agree on shorter lists of tokens read the same factor. -/
theorem readWith_congr (h : AgreeBelow tokens.length inner inner') :
    readWith inner tokens = readWith inner' tokens := by
  simp only [readWith, readFraction_congr h, readPower_congr h, readCall_congr h,
    readBracket_congr h, readUnary_congr h, readLogarithm_congr h]

end Factor

namespace Item

variable {inner inner' : Factor.Reader} {tokens : List Token}

theorem longestFactor_congr (h : Factor.AgreeBelow tokens.length inner inner') (length : Nat) :
    longestFactor inner tokens length = longestFactor inner' tokens length := by
  induction length with
  | zero => rfl
  | succ length ih =>
    simp only [longestFactor, ih,
      Factor.readWith_congr (h.mono (List.length_take_le' (length + 1) tokens))]

theorem readFactors_congr (h : Factor.AgreeBelow tokens.length inner inner') (started : Bool) :
    readFactors inner started tokens = readFactors inner' started tokens := by
  fun_induction readFactors inner started tokens with
  | case1 => simp [readFactors]
  | case2 started t hk => simp [readFactors, hk]
  | case3 started t hk u us hs ih =>
    rw [ih (h.mono (by simp)), readFactors.eq_def inner' started (t :: u :: us)]
    simp [hk, hs]
  | case4 started t hk u us hs => simp [readFactors, hk, hs]
  | case5 t ts hk hf =>
    rw [longestFactor_congr (h.mono (by simp))] at hf
    rw [readFactors.eq_def]
    simp [hk, hf]
  | case6 t ts hk f length hf ih =>
    rw [longestFactor_congr (h.mono (by simp))] at hf
    rw [ih (h.mono (by simp; omega)), readFactors.eq_def inner' true (t :: ts)]
    simp [hk, hf]
  | case7 started t ts hk hs =>
    rw [readFactors.eq_def]
    simp [hk, hs]
  | case8 started t ts hf hmul hdiv =>
    rw [longestFactor_congr h] at hf
    rw [readFactors.eq_def]
    simp [hf]
  | case9 started t ts f length hf hmul hdiv ih =>
    rw [longestFactor_congr h] at hf
    rw [ih (h.mono (by simp; omega)), readFactors.eq_def inner' started (t :: ts)]
    simp [hf]

theorem length_splitSign_le (tokens : List Token) : (splitSign tokens).2.length ≤ tokens.length := by
  unfold splitSign
  split
  · simp
  · split <;> simp

/-- Readers that agree on shorter lists of tokens read the same item. -/
theorem readWith_congr (h : Factor.AgreeBelow tokens.length inner inner') :
    readWith inner tokens = readWith inner' tokens := by
  simp only [readWith, readFactors_congr (h.mono (length_splitSign_le tokens))]

end Item

namespace Expression

theorem length_le_of_addToFirst {t : Token} {parts : List (List Token)} {n : Nat}
    (h : ∀ part ∈ parts, part.length ≤ n) : ∀ part ∈ addToFirst t parts, part.length ≤ n + 1 := by
  cases parts with
  | nil => simp [addToFirst]
  | cons first parts =>
    simp only [addToFirst, List.forall_mem_cons, List.length_cons] at h ⊢
    exact ⟨by omega, fun part hp => Nat.le_succ_of_le (h.2 part hp)⟩

theorem length_le_of_splitSigns {depth : Int} {tokens : List Token} :
    ∀ part ∈ splitSigns depth tokens, part.length ≤ tokens.length := by
  induction tokens generalizing depth with
  | nil => simp [splitSigns]
  | cons t ts ih =>
    have hparts : ∀ part ∈ splitSigns (t.depthAfter depth) ts, part.length ≤ ts.length := ih
    have hfirst := length_le_of_addToFirst (t := t) hparts
    simp only [splitSigns]
    split <;> simpa using hfirst

theorem length_le_of_splitItems {tokens : List Token} :
    ∀ part ∈ splitItems tokens, part.length ≤ tokens.length := by
  cases tokens with
  | nil => simp [splitItems]
  | cons t ts => exact length_le_of_addToFirst length_le_of_splitSigns

/-- Readers that agree on shorter lists of tokens read the same expression. -/
theorem readWith_congr {inner inner' : Factor.Reader} {tokens : List Token}
    (h : Factor.AgreeBelow tokens.length inner inner') :
    readWith inner tokens = readWith inner' tokens := by
  simp only [readWith]
  rw [mapM_congr_option fun part hp =>
    Item.readWith_congr (h.mono (length_le_of_splitItems part hp))]

/-- Two depths that are not smaller than the number of tokens give the same result. -/
theorem readNested_eq {d d' : Nat} {tokens : List Token} (h : tokens.length ≤ d)
    (h' : tokens.length ≤ d') : readNested d tokens = readNested d' tokens := by
  induction d generalizing d' tokens with
  | zero =>
    obtain rfl := List.length_eq_zero_iff.1 (Nat.le_zero.1 h)
    cases d' <;> rfl
  | succ d ih =>
    cases d' with
    | zero =>
      obtain rfl := List.length_eq_zero_iff.1 (Nat.le_zero.1 h')
      rfl
    | succ d' => exact readWith_congr fun us hus => ih (by omega) (by omega)

/-- An expression is read by reading the expressions inside it in the same way. -/
theorem read_eq (tokens : List Token) : read tokens = readWith read tokens := by
  have h : read tokens = readNested (tokens.length + 1) tokens :=
    readNested_eq (Nat.le_refl _) (Nat.le_succ _)
  rw [h]
  exact readWith_congr fun us hus => readNested_eq (Nat.le_of_lt hus) (Nat.le_refl _)

end Expression

end ImplicitCurves

import ImplicitCurves.Proofs.Notation.Explanations
import ImplicitCurves.Proofs.Notation.ParseErrors

/-!
# Where errors of texts point

A text that cannot be read has an error, and every span of it is a part of the text in whole
characters.  Parts are told by their ends, which are places between characters.
-/

namespace ImplicitCurves

/-! ### Parts of texts -/

/-- The number of bytes in front of some place between two characters, or at either end. -/
def Text.IsBoundary (cs : List Char) (offset : Nat) : Prop :=
  ∃ front back, cs = front ++ back ∧ offset = byteLength front

namespace Text

variable {cs front back : List Char} {offset : Nat}

theorem IsBoundary.le (h : IsBoundary cs offset) : offset ≤ byteLength cs := by
  obtain ⟨front, back, rfl, rfl⟩ := h
  rw [byteLength_append]
  exact Nat.le_add_right _ _

theorem isBoundary_zero (cs : List Char) : IsBoundary cs 0 :=
  ⟨[], cs, rfl, rfl⟩

theorem isBoundary_byteLength (cs : List Char) : IsBoundary cs (byteLength cs) :=
  ⟨cs, [], (List.append_nil cs).symm, rfl⟩

/-- A place in a text is one in a longer text, behind what stands in front. -/
theorem IsBoundary.shift (h : IsBoundary cs offset) (front back : List Char) :
    IsBoundary (front ++ cs ++ back) (offset + byteLength front) := by
  obtain ⟨before, after, rfl, rfl⟩ := h
  refine ⟨front ++ before, after ++ back, ?_, ?_⟩
  · simp only [List.append_assoc]
  · rw [byteLength_append, Nat.add_comm]

end Text

/-- The span goes from one place between characters of the text to the same or a later one. -/
structure Span.IsPartOf (s : Span) (cs : List Char) : Prop where
  ordered : s.start ≤ s.stop
  start : Text.IsBoundary cs s.start
  stop : Text.IsBoundary cs s.stop

theorem Span.isPartOf_whole (cs : List Char) : (⟨0, Text.byteLength cs⟩ : Span).IsPartOf cs where
  ordered := Nat.zero_le _
  start := Text.isBoundary_zero cs
  stop := Text.isBoundary_byteLength cs

theorem Span.isPartOf_middle (front part back : List Char) :
    (⟨Text.byteLength front, Text.byteLength (front ++ part)⟩ : Span).IsPartOf
      (front ++ part ++ back) where
  ordered := by
    rw [Text.byteLength_append]
    exact Nat.le_add_right _ _
  start := ⟨front, part ++ back, List.append_assoc .., rfl⟩
  stop := ⟨front ++ part, back, rfl, rfl⟩

/-- A part of a text is a part of a longer one, behind what stands in front. -/
theorem Span.IsPartOf.shift {s : Span} {cs : List Char} (h : s.IsPartOf cs) (front back : List Char) :
    (s.shift (Text.byteLength front)).IsPartOf (front ++ cs ++ back) where
  ordered := Nat.add_le_add_right h.ordered _
  start := h.start.shift front back
  stop := h.stop.shift front back

/-- All spans of the error are parts of the text. -/
def Error.PointsIntoText (cs : List Char) (e : Error) : Prop :=
  ∀ s ∈ e.spans, s.IsPartOf cs

/-- An error without a place points into any text. -/
theorem Error.pointsIntoText_of_spans_nil {e : Error} {cs : List Char} (h : e.spans = []) :
    e.PointsIntoText cs := by
  intro s hs
  rw [h] at hs
  cases hs

theorem Error.pointsIntoText_of_spans_singleton {e : Error} {s : Span} {cs : List Char}
    (h : e.spans = [s]) (hs : s.IsPartOf cs) : e.PointsIntoText cs := by
  intro s' hs'
  rw [h] at hs'
  rwa [List.mem_singleton.1 hs']

/-! ### Tokens -/

section Tokens

variable {cs : List Char} {tokens : List Token}

theorem Token.isPartOf_of_tokenize (h : tokenize cs = .ok tokens) {t : Token} (ht : t ∈ tokens) :
    t.span.IsPartOf cs := by
  obtain ⟨hpoints, -⟩ := pointsInto_of_tokensOfLexemes (List.nil_append _).symm rfl h
  obtain ⟨lexeme, -, front, typed, back, rfl, hspan, -⟩ := exists_of_forall₂ hpoints ht
  rw [hspan]
  exact Span.isPartOf_middle front typed back

/-- Some tokens of a text reach over a part of it. -/
theorem isPartOf_of_spanOf (h : tokenize cs = .ok tokens) {part : List Token}
    (hpart : part.Sublist tokens) {s : Span} (hs : spanOf part = some s) : s.IsPartOf cs := by
  have hwithin := (Token.inOrder_of_tokenize h).within hpart hs
  obtain ⟨first, last, hfirst, hlast, rfl⟩ := spanOf_eq_some.1 hs
  refine ⟨Nat.le_of_lt hwithin.nonempty, ?_, ?_⟩
  · exact (Token.isPartOf_of_tokenize h (hpart.subset (List.mem_of_mem_head? hfirst))).start
  · exact (Token.isPartOf_of_tokenize h (hpart.subset (List.mem_of_mem_getLast? hlast))).stop

theorem Error.Covers.pointsIntoText {e : Error} (he : e.Covers tokens) (h : tokenize cs = .ok tokens) :
    e.PointsIntoText cs := by
  obtain ⟨part, s, hpart, hs, hspans⟩ := he
  exact pointsIntoText_of_spans_singleton hspans (isPartOf_of_spanOf h hpart hs)

/-- A text that has no tokens is unreadable in a part of it. -/
theorem failsOnly_tokenize (cs : List Char) : FailsOnly (Error.PointsIntoText cs) (tokenize cs) := by
  intro e he
  obtain ⟨front, c, back, hcs, -, rfl⟩ := pointsAtUnreadable_of_tokenize he
  refine Error.pointsIntoText_of_spans_singleton rfl ?_
  have hparts : cs = front ++ [c] ++ back := by rw [hcs, List.append_assoc, List.singleton_append]
  rw [hparts]
  exact Span.isPartOf_middle front [c] back

end Tokens

/-! ### Texts -/

/-- Tokens that are rejected are explained by some of them. -/
def ExplainsByTokens (node : Type) [Readable node] : Prop :=
  ∀ tokens : List Token, tokens ≠ [] → (Readable.read tokens : Option node) = none →
    (Readable.explain node tokens).Covers tokens

theorem Expression.explainsByTokens : ExplainsByTokens Expression :=
  fun _ hne hread => (explain_blames hne hread).covers (.refl _)

theorem Equation.explainsByTokens : ExplainsByTokens Equation :=
  fun _ hne hread => (explain_blames hne hread).covers

theorem Statement.explainsByTokens : ExplainsByTokens Statement := by
  intro tokens hne hread
  have hrejected := Statement.read_eq_none_iff.1 hread
  show (Statement.explain tokens).Covers tokens
  unfold Statement.explain
  split
  · next hassign =>
    rw [if_pos hassign] at hrejected
    exact Equation.explainsByTokens tokens hne hrejected
  · next hassign =>
    rw [if_neg hassign] at hrejected
    exact Expression.explainsByTokens tokens hne hrejected

/-- What is wrong with a text points into it, if tokens that are rejected are explained by some of
them. -/
theorem ParseError.pointsIntoText {node : Type} [Readable node] {source : List Char} {e : Error}
    (h : ParseError node source e) (hexplain : ExplainsByTokens node) : e.PointsIntoText source := by
  cases h with
  | tokens he => exact failsOnly_tokenize source e he
  | unclosed htokens ht => exact (Error.covers_of_mem ht rfl).pointsIntoText htokens
  | empty => exact Error.pointsIntoText_of_spans_singleton rfl (Span.isPartOf_whole source)
  | rejected htokens hne hread => exact (hexplain _ hne hread).pointsIntoText htokens

end ImplicitCurves

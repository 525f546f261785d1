import ImplicitCurves.Curve
import ImplicitCurves.Proofs.Failing

/-!
# How curves are prepared

A curve is prepared in stages: its text is read as an equation, the defined variables are replaced and
the calls are linked, and then the functions and the variables of the linked equation are checked.
What comes out is told by the linked equation alone.
-/

namespace ImplicitCurves.Curve

variable {source : List Char} {d : Definitions} {tokens : List Token} {linked : Equation} {c : Curve}

/-- The text has the given tokens and is read as an equation, which is linked once the defined variables
are replaced. -/
structure Links (source : List Char) (d : Definitions) (tokens : List Token) (linked : Equation) :
    Prop where
  tokenized : tokenize source = .ok tokens
  read : ∃ eq, readEquation source tokens = .ok eq ∧
    (eq.substitute d.bindings).linked d.functions = .ok linked

/-- The curve of a linked equation. -/
def ofLinked (d : Definitions) (linked : Equation) : Curve where
  equation := linked.form
  program := linked.form.program
  environment := d.values
  usesX := linked.freeVariablesLinked.contains 'x'
  usesY := linked.freeVariablesLinked.contains 'y'

/-- The checks that are left after linking. -/
theorem ofText_of_links (h : Links source d tokens linked) : ofText source d =
    match linked.functions.find? fun key => !d.functions.contains key with
    | some key =>
      .error ⟨.undefinedFunction key, letterSpans key.name (· = some .openParen) tokens⟩
    | none =>
      match linked.freeVariablesLinked.find? fun name => !isSupported d name with
      | some name =>
        .error ⟨.unsupportedVariable name, letterSpans name (fun _ => true) tokens⟩
      | none => .ok (ofLinked d linked) := by
  obtain ⟨htokens, eq, hread, hlinked⟩ := h
  unfold ofText
  rw [htokens]
  dsimp only [bind, Except.bind]
  rw [hread]
  dsimp only
  rw [hlinked]
  rfl

/-- A curve is prepared only from what can be read and linked. -/
theorem links_of_ofText (h : ofText source d = .ok c) :
    ∃ tokens linked, Links source d tokens linked := by
  obtain ⟨tokens, htokens, h⟩ := bind_eq_ok.1 h
  obtain ⟨eq, hread, h⟩ := bind_eq_ok.1 h
  obtain ⟨linked, hlinked, -⟩ := bind_eq_ok.1 h
  exact ⟨tokens, linked, htokens, eq, hread, hlinked⟩

theorem find?_not_eq_none {β : Type} {p : β → Bool} {xs : List β} :
    (xs.find? fun x => !p x) = none ↔ ∀ x ∈ xs, p x = true := by
  simp

/-- A text is prepared as a curve just if all functions that the linked equation calls are defined, and
all variables that it reads are coordinates or have a value. -/
theorem ofText_eq_ok_iff : ofText source d = .ok c ↔ ∃ tokens linked, Links source d tokens linked ∧
    (∀ key ∈ linked.functions, d.functions.contains key = true) ∧
    (∀ name ∈ linked.freeVariablesLinked, isSupported d name = true) ∧ c = ofLinked d linked := by
  constructor
  · intro h
    obtain ⟨tokens, linked, hlinks⟩ := links_of_ofText h
    rw [ofText_of_links hlinks] at h
    split at h
    · cases h
    · next hfunctions =>
      split at h
      · cases h
      · next hvariables =>
        exact ⟨tokens, linked, hlinks, find?_not_eq_none.1 hfunctions,
          find?_not_eq_none.1 hvariables, (Except.ok.inj h).symm⟩
  · rintro ⟨tokens, linked, hlinks, hfunctions, hvariables, rfl⟩
    rw [ofText_of_links hlinks, find?_not_eq_none.2 hfunctions, find?_not_eq_none.2 hvariables]

end ImplicitCurves.Curve

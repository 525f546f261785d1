import ImplicitCurves.Parser.Source
import ImplicitCurves.Proofs.Failing

/-!
# What can be wrong with a text

A text that is read as a node fails where it is cut into tokens, where a delimiter has no partner, if it
has no tokens, or where its tokens are rejected.
-/

namespace ImplicitCurves

/-- A delimiter without a partner is one of the tokens or was open before them. -/
theorem failsOnly_checkBalancedFrom (pending tokens : List Token) :
    FailsOnly (fun e => ∃ t ∈ pending ++ tokens, ∃ opening, e = unclosed t opening)
      (checkBalancedFrom pending tokens) := by
  induction tokens generalizing pending with
  | nil =>
    unfold checkBalancedFrom
    split
    · exact .ok ()
    · exact .error ⟨_, by simp, _, rfl⟩
  | cons t ts ih =>
    unfold checkBalancedFrom
    split
    · refine (ih _).imp fun e ⟨u, hu, herror⟩ => ⟨u, ?_, herror⟩
      simpa [or_left_comm] using hu
    · split
      · split
        · exact .error ⟨t, by simp, _, rfl⟩
        · split
          · refine (ih _).imp fun e ⟨u, hu, herror⟩ => ⟨u, ?_, herror⟩
            rw [List.mem_append] at hu ⊢
            exact hu.imp (List.mem_cons_of_mem _) (List.mem_cons_of_mem _)
          · exact .error ⟨_, by simp, _, rfl⟩
      · refine (ih _).imp fun e ⟨u, hu, herror⟩ => ⟨u, ?_, herror⟩
        rw [List.mem_append] at hu ⊢
        exact hu.imp_right (List.mem_cons_of_mem _)

/-- What can be wrong with a text that is read as a node. -/
inductive ParseError (node : Type) [Readable node] (source : List Char) : Error → Prop
  | tokens {e : Error} (h : tokenize source = .error e) : ParseError node source e
  | unclosed {tokens : List Token} (htokens : tokenize source = .ok tokens) {t : Token} (ht : t ∈ tokens)
    (opening : Bool) : ParseError node source (unclosed t opening)
  | empty : ParseError node source ⟨.emptyExpression, [⟨0, Text.byteLength source⟩]⟩
  | rejected {tokens : List Token} (htokens : tokenize source = .ok tokens) (hne : tokens ≠ [])
    (hread : (Readable.read tokens : Option node) = none) :
    ParseError node source (Readable.explain node tokens)

variable {node : Type} [Readable node] {source : List Char}

theorem failsOnly_balancedTokens : FailsOnly (ParseError node source) (balancedTokens source) := by
  refine FailsOnly.bind (fun _ => .tokens) fun tokens htokens => ?_
  refine FailsOnly.bind ?_ fun _ _ => .ok tokens
  rintro e he
  obtain ⟨t, ht, opening, rfl⟩ := failsOnly_checkBalancedFrom [] tokens e he
  exact .unclosed htokens ht opening

theorem failsOnly_parse : FailsOnly (ParseError node source) (parse node source) := by
  refine failsOnly_balancedTokens.bind fun tokens hbalanced => ?_
  have htokens : tokenize source = .ok tokens := by
    obtain ⟨read, hread, hrest⟩ := bind_eq_ok.1 hbalanced
    obtain ⟨-, -, hsame⟩ := bind_eq_ok.1 hrest
    rw [hread, Except.ok.inj hsame]
  unfold readTokens
  split
  · exact .error .empty
  · next hempty =>
    split
    · exact .ok _
    · next hread => exact .error (.rejected htokens (by simpa using hempty) hread)

/-! ### Causes -/

/-- Whether the cause is that a text cannot be read. -/
def Cause.isReading : Cause → Bool
  | unrecognizedToken _ | unclosedGroup _ _ | emptyExpression | invalidTerm | missingEquals
  | invalidDefinition _ => true
  | _ => false

theorem Item.isReading_explain (tokens : List Token) : (explain tokens).cause.isReading = true := by
  unfold explain
  split
  · split <;> rfl
  · rfl

theorem Expression.isReading_explain (tokens : List Token) :
    (explain tokens).cause.isReading = true := by
  unfold explain
  split
  · rfl
  · split
    · exact Item.isReading_explain _
    · rfl

theorem Equation.isReading_explain (tokens : List Token) :
    (explain tokens).cause.isReading = true := by
  have hside : ∀ (side : List Token) (sign : Token), (if side.isEmpty then
      (⟨.emptyExpression, [sign.span]⟩ : Error) else Expression.explain side).cause.isReading =
        true := by
    intro side sign
    split
    · rfl
    · exact Expression.isReading_explain side
  unfold explain
  split
  · rfl
  · exact hside _ _

theorem Statement.isReading_explain (tokens : List Token) :
    (explain tokens).cause.isReading = true := by
  unfold explain
  split
  · exact Equation.isReading_explain tokens
  · exact Expression.isReading_explain tokens

theorem isReading_tokensOfLexemes (offsets : Array Nat) (ls : List (Lexeme × Span)) :
    FailsOnly (fun e => e.cause.isReading = true) (tokensOfLexemes offsets ls) := by
  induction ls with
  | nil => exact .ok []
  | cons l ls ih =>
    rw [tokensOfLexemes]
    split
    · exact ih.map _
    · exact .error rfl

theorem isReading_of_tokenize {e : Error} (h : tokenize source = .error e) :
    e.cause.isReading = true :=
  isReading_tokensOfLexemes _ _ e h

/-- What can be wrong with a text that is read as a node is that it cannot be read. -/
theorem ParseError.isReading {e : Error} (he : ParseError node source e)
    (hexplain : ∀ tokens, (Readable.explain node tokens).cause.isReading = true) :
    e.cause.isReading = true := by
  cases he with
  | tokens he => exact isReading_of_tokenize he
  | unclosed | empty => rfl
  | rejected => exact hexplain _

end ImplicitCurves

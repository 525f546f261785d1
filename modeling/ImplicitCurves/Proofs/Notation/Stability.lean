import ImplicitCurves.Proofs.Notation.AsEquations
import ImplicitCurves.Proofs.Notation.Negation
import ImplicitCurves.Proofs.Notation.Rereading
import ImplicitCurves.Proofs.Scalar.Unsigned
import ImplicitCurves.Tree.Equality

/-!
# Stable texts

The text of a tree that was parsed is always parsed again, and as a tree with the same text just if the
factors of each item stand in order: main statement `stable_iff_orderly`.  They do not after a quotient
such as `\sin(x)/(y)`, since a function takes the fraction that it is written with into its argument.

A definition is written like an equation, and is read as one if there is no reader for definitions, so
everything about definitions and statements follows from equations.
-/

namespace ImplicitCurves

/-- A single factor is written behind its sign. -/
theorem Expression.text_single (positive : Bool) (f : Factor) :
    Expression.text ⟨[⟨positive, [f]⟩]⟩ = signText true positive ++ f.text := by
  simp [Expression.text, textOfItems, Item.factorsText, textOfFactors]

theorem Expression.text_ofFactor (f : Factor) : (Expression.ofFactor f).text = f.text :=
  text_single true f

namespace VariableDefinition

variable {tokens : List Token} {d : VariableDefinition}

/-- The definition of a variable can also be read as an equation, which is written in the same way. -/
theorem exists_equation (h : read tokens = some d) (hspellable : ∀ t ∈ tokens, t.kind.Spellable) :
    ∃ eq, Equation.read tokens = some eq ∧ eq.text = d.text ∧ eq.Orderly := by
  obtain ⟨positive, x, heq, hmem, hvalue⟩ := read_asEquation h
  have hnumber : Decimal.ReadsBack x := by
    obtain ⟨t, ht, hkind⟩ := List.mem_map.1 hmem
    have hspelled := hspellable t ht
    rw [hkind] at hspelled
    exact hspelled
  have hrhs : Expression.text ⟨[⟨positive, [.number x]⟩]⟩ = Decimal.text d.value := by
    rw [Expression.text_single, hvalue]
    cases positive with
    | true => exact numberText_of_readsBack hnumber
    | false =>
      obtain ⟨hnan, hsign⟩ := hnumber.isNaN_and_isNegative
      exact (congrArg _ (numberText_of_readsBack hnumber)).trans (Decimal.text_neg hnan hsign).symm
  have hsingle : ∀ positive f, f.children = [] → (Expression.mk [⟨positive, [f]⟩]).Orderly := by
    intro positive f hf
    refine Expression.orderly_single fun c hc => ?_
    rw [hf] at hc
    cases hc
  refine ⟨_, heq, ?_, hsingle true _ rfl, hsingle positive _ rfl⟩
  rw [VariableDefinition.text, ← hrhs]
  rfl

end VariableDefinition

namespace FunctionDefinition

variable {tokens : List Token} {d : FunctionDefinition} {name : Char} {parameters : List Char}

/-- Parameters are written like the arguments of a call. -/
theorem text_parameters (parameters : List Char) :
    textOfArguments true (parameters.map fun p => .ofFactor (.variable p none)) =
      List.intercalate [','] (parameters.map fun p => [p]) := by
  have hvariable : ∀ p, (Expression.ofFactor (.variable p none)).text = [p] :=
    fun p => Expression.text_ofFactor (.variable p none)
  have hbehind : ∀ ps : List Char, textOfArguments false (ps.map fun p => .ofFactor (.variable p none)) =
      ps.flatMap fun p => [',', p] := by
    intro ps
    induction ps with
    | nil => rfl
    | cons p ps ih => simp [textOfArguments, hvariable, ih]
  have hjoined : ∀ (p : Char) (ps : List Char), List.intercalate [','] ((p :: ps).map fun p => [p]) =
      p :: ps.flatMap fun p => [',', p] := by
    intro p ps
    induction ps generalizing p with
    | nil => rfl
    | cons q ps ih => simpa [List.intercalate] using ih q
  cases parameters with
  | nil => rfl
  | cons p ps =>
    rw [hjoined, List.map_cons, textOfArguments, hbehind, hvariable]
    rfl

/-- A definition is written like the equation. -/
theorem text_asEquation (d : FunctionDefinition) : d.asEquation.text = d.text := by
  have hhead : (Expression.ofFactor (head d.name d.parameters)).text =
      d.name :: parenthesized (List.intercalate [','] (d.parameters.map fun p => [p])) := by
    rw [← text_parameters, Expression.text_ofFactor]
    rfl
  rw [Equation.text, FunctionDefinition.text, ← hhead]
  rfl

/-- There are no bases in front of the body. -/
theorem bracketed_head (name : Char) (parameters : List Char) :
    (head name parameters).bracketed = head name parameters := by
  have hvariable : ∀ p, (Expression.ofFactor (.variable p none)).bracketed = .ofFactor (.variable p none) :=
    fun _ => rfl
  have harguments : ∀ ps : List Char,
      mapExpressions Factor.withBracketedBase (ps.map fun p => .ofFactor (.variable p none)) =
        ps.map fun p => .ofFactor (.variable p none) := by
    intro ps
    rw [mapExpressions_eq_map, List.map_map]
    exact List.map_congr_left fun p _ => hvariable p
  simp only [head, Factor.bracketed, Factor.mapInner, harguments]
  rfl

theorem orderly_asEquation (d : FunctionDefinition) : d.asEquation.Orderly ↔ d.body.Orderly := by
  have hhead : (Expression.ofFactor (head d.name d.parameters)).Orderly := by
    refine Expression.orderly_single fun c hc => ?_
    obtain ⟨p, -, rfl⟩ := List.mem_map.1 hc
    exact Expression.orderly_single fun c hc => by cases hc
  constructor
  · rintro ⟨-, hbody⟩
    exact hbody
  · intro hbody
    exact ⟨hhead, hbody⟩

/-- The tokens of a definition that was read are read as a definition once those of the body are. -/
theorem exists_body {source : List Token} (h : read source = some d)
    (htokens : tokens.map (·.kind) = d.asEquation.kinds) : ∃ body,
      body.map (·.kind) = d.body.bracketed.kinds ∧
        ∀ e, Expression.read body = some e → read tokens = some (make d.name d.parameters e) := by
  obtain ⟨-, -, -, -, -, -, -, -, hadmissible, -⟩ := read_eq_some.1 h
  obtain ⟨hs, s, body, rfl, hassign, -, hhead, hbody⟩ := Equation.exists_of_kinds htokens
  refine ⟨body, hbody, fun e he => ?_⟩
  have hbracketed : (Expression.ofFactor (head d.name d.parameters)).bracketed.kinds =
      (head d.name d.parameters).kinds := by
    rw [Expression.bracketed_ofFactor, bracketed_head, Expression.kinds_ofFactor]
  exact read_eq_some.2 ⟨hs, s, body, e, rfl, hhead.trans hbracketed, hassign, he, hadmissible, rfl⟩

/-- The tokens of a definition that was read are read again. -/
theorem exists_read_kinds {source : List Token} (h : read source = some d)
    (hspellable : ∀ t ∈ source, t.kind.Spellable)
    (htokens : tokens.map (·.kind) = d.asEquation.kinds) : ∃ d', read tokens = some d' := by
  obtain ⟨body, hbody, hread⟩ := exists_body h htokens
  obtain ⟨hs, s, es, e, rfl, -, -, he, -, hd⟩ := read_eq_some.1 h
  obtain ⟨-, hbehind⟩ := List.forall_mem_append.1 hspellable
  have heq : d.body = e := by rw [hd]; rfl
  rw [heq] at hbody
  obtain ⟨e', he'⟩ := Expression.exists_read_kinds he (List.forall_mem_cons.1 hbehind).2 hbody
  exact ⟨_, hread e' he'⟩

/-- The tokens of a definition that was read are read as one with the same text just if the factors of
the body stand in order. -/
theorem rereads_iff {source : List Token} (h : read source = some d)
    (hspellable : ∀ t ∈ source, t.kind.Spellable)
    (htokens : tokens.map (·.kind) = d.asEquation.kinds) :
    (∃ d', read tokens = some d' ∧ d'.text = d.text) ↔ d.body.Orderly := by
  have hproduced := Equation.produced_of_read (read_asEquation h) hspellable
  constructor
  · rintro ⟨d', hread, htext⟩
    rw [← orderly_asEquation]
    refine (hproduced.rereads_iff htokens).1 ⟨d'.asEquation, read_asEquation hread, ?_⟩
    rw [text_asEquation, text_asEquation, htext]
  · intro hbody
    obtain ⟨body, hkinds, hread⟩ := exists_body h htokens
    obtain ⟨e, he, htext⟩ := (hproduced.2.rereads_iff hkinds).2 hbody
    refine ⟨_, hread e he, ?_⟩
    have hbodyText : e.text = d.body.text := htext
    rw [FunctionDefinition.text, FunctionDefinition.text, ← hbodyText]
    rfl

end FunctionDefinition

namespace Statement

variable {tokens : List Token} {s : Statement}

/-- The factors of all expressions in the statement stand in an order in which they can be read. -/
def Orderly : Statement → Prop
  | «variable» _ => True
  | function d => d.body.Orderly
  | equation eq => eq.Orderly
  | expression e => e.Orderly

/-- With an equals sign, what is read as a statement is also read as an equation, which is written in the
same way. -/
theorem exists_equation (h : read tokens = some s) (hspellable : ∀ t ∈ tokens, t.kind.Spellable)
    (hassign : hasAssign tokens = true) : ∃ eq, Equation.read tokens = some eq ∧ eq.text = s.text ∧
      (eq.Orderly ↔ s.Orderly) := by
  unfold read at h
  split at h
  · next d hd =>
    cases h
    obtain ⟨eq, heq, htext, horderly⟩ := VariableDefinition.exists_equation hd hspellable
    exact ⟨eq, heq, htext, fun _ => trivial, fun _ => horderly⟩
  · split at h
    · next d hd =>
      cases h
      exact ⟨d.asEquation, FunctionDefinition.read_asEquation hd, d.text_asEquation,
        d.orderly_asEquation⟩
    · rw [if_pos hassign] at h
      obtain ⟨eq, heq, rfl⟩ := Option.map_eq_some_iff.1 h
      exact ⟨eq, heq, rfl, Iff.rfl⟩

end Statement

section Parsing

variable {source : List Char} {tokens : List Token}

/-- The numbers that are written in a text. -/
def literals (source : List Char) : List Float :=
  match tokenize source with
  | .ok tokens => tokens.filterMap fun t => match t.kind with
    | .number x => some x
    | _ => none
  | .error _ => []

theorem mem_literals (h : tokenize source = .ok tokens) {t : Token} (ht : t ∈ tokens) {x : Float}
    (hx : t.kind = .number x) : x ∈ literals source := by
  rw [literals, h]
  exact List.mem_filterMap.2 ⟨t, ht, by rw [hx]⟩

/-- The tokens of a text can be written if its numbers are finite and the text of a finite number without
a sign is read as the number. -/
theorem spellable_of_tokenize (h : tokenize source = .ok tokens)
    (hfinite : ∀ x ∈ literals source, x.isFinite = true)
    (hdisplay : ∀ x ∈ literals source, x.isFinite = true → Decimal.isNegative x = false →
      Decimal.ReadsBack x) : ∀ t ∈ tokens, t.kind.Spellable := by
  intro t ht
  have hlexed := isLexed_of_tokenize h t ht
  cases hkind : t.kind with
  | number x =>
    rw [hkind] at hlexed
    obtain ⟨whole, fraction, hx⟩ := hlexed
    have hmem := mem_literals h ht hkind
    exact hdisplay x hmem (hfinite x hmem) (hx ▸ Decimal.isNegative_ofDigits whole fraction)
  | letter c =>
    rw [hkind] at hlexed
    exact hlexed
  | _ => trivial

variable {node : Type} [Readable node] {value : node}

/-- The text of the value is parsed. -/
def IsParsable (value : node) : Prop :=
  ∃ again : node, parse node (Readable.text value) = .ok again

/-- The text of the value is parsed as a value with the same text. -/
def IsStable (value : node) : Prop :=
  ∃ again : node, parse node (Readable.text value) = .ok again ∧
    Readable.text again = Readable.text value

/-- The tokens of the text of a value are read again, and as a value with the same text if the value is
orderly.  Nothing is read from tokens with groups that are not closed. -/
structure Rereads (value : node) (orderly : Prop) (tokens : List Token) : Prop where
  cut : tokenize (Readable.text value) = .ok tokens
  complete : ∀ again : node, Readable.read tokens = some again → Token.AllComplete tokens
  accepted : ∃ again : node, Readable.read tokens = some again
  stable : (∃ again : node, Readable.read tokens = some again ∧ Readable.text again = Readable.text value) ↔
    orderly

/-- The text is parsed as what its tokens are read as. -/
theorem Rereads.parse_iff {orderly : Prop} (h : Rereads value orderly tokens) (again : node) :
    parse node (Readable.text value) = .ok again ↔ Readable.read tokens = some again := by
  constructor
  · intro hparse
    obtain ⟨tokens', htokens', -, -, hread⟩ := parse_eq_ok.1 hparse
    cases h.cut.symm.trans htokens'
    exact hread
  · intro hread
    have hall := h.complete again hread
    refine parse_eq_ok.2 ⟨tokens, h.cut, hall.checkBalanced_eq, ?_, hread⟩
    rintro rfl
    exact absurd (hall .operand [] (by simp)) (by simp [Pending.behind])

theorem Rereads.isParsable {orderly : Prop} (h : Rereads value orderly tokens) : IsParsable value :=
  h.accepted.imp fun again hread => (h.parse_iff again).2 hread

theorem Rereads.isStable_iff {orderly : Prop} (h : Rereads value orderly tokens) :
    IsStable value ↔ orderly := by
  rw [← h.stable, IsStable]
  exact exists_congr fun again => and_congr_left' (h.parse_iff again)

end Parsing

section Stable

variable {source : List Token}

/-- An expression that was read is read again, and is stable just if its factors stand in order. -/
theorem Expression.exists_rereads {e : Expression} (h : read source = some e)
    (hspellable : ∀ t ∈ source, t.kind.Spellable) : ∃ tokens, Rereads e e.Orderly tokens := by
  have hproduced := produced_of_read h hspellable
  obtain ⟨tokens, htokens, hkinds⟩ := hproduced.isCutInto
  exact ⟨tokens, htokens, fun _ => complete_of_read, exists_read_kinds h hspellable hkinds,
    hproduced.rereads_iff hkinds⟩

theorem Equation.exists_rereads {eq : Equation} (h : read source = some eq)
    (hspellable : ∀ t ∈ source, t.kind.Spellable) : ∃ tokens, Rereads eq eq.Orderly tokens := by
  have hproduced := produced_of_read h hspellable
  obtain ⟨tokens, htokens, hkinds⟩ := hproduced.isCutInto
  exact ⟨tokens, htokens, fun _ => complete_of_read, exists_read_kinds h hspellable hkinds,
    hproduced.rereads_iff hkinds⟩

theorem FunctionDefinition.exists_rereads {d : FunctionDefinition} (h : read source = some d)
    (hspellable : ∀ t ∈ source, t.kind.Spellable) : ∃ tokens, Rereads d d.body.Orderly tokens := by
  have hproduced := Equation.produced_of_read (read_asEquation h) hspellable
  obtain ⟨tokens, htokens, hkinds⟩ := hproduced.isCutInto
  rw [text_asEquation] at htokens
  exact ⟨tokens, htokens, fun d' hd' => Equation.complete_of_read (read_asEquation hd'),
    exists_read_kinds h hspellable hkinds, rereads_iff h hspellable hkinds⟩

/-- A statement with an equals sign is read again as an equation is. -/
theorem Statement.exists_rereads_of_hasAssign {s : Statement} (h : read source = some s)
    (hspellable : ∀ t ∈ source, t.kind.Spellable) (hassign : hasAssign source = true) :
    ∃ tokens, Rereads s s.Orderly tokens := by
  obtain ⟨eq, heq, htext, horderly⟩ := exists_equation h hspellable hassign
  have hproduced := Equation.produced_of_read heq hspellable
  obtain ⟨tokens, htokens, hkinds⟩ := hproduced.isCutInto
  rw [htext] at htokens
  have htokensSpellable := spellable_of_kinds hkinds hproduced.spells.spellable
  have htokensAssign : hasAssign tokens = true := by
    rw [hasAssign_iff, hkinds, Equation.kinds]
    simp
  have hread : ∀ s', read tokens = some s' → ∃ eq', Equation.read tokens = some eq' ∧
      eq'.text = s'.text := fun s' hs' => by
    obtain ⟨eq', heq', htext', -⟩ := exists_equation hs' htokensSpellable htokensAssign
    exact ⟨eq', heq', htext'⟩
  refine ⟨tokens, htokens, fun s' hs' => ?_, ?_, ?_⟩
  · obtain ⟨eq', heq', -⟩ := hread s' hs'
    exact Equation.complete_of_read heq'
  · obtain ⟨eq', heq'⟩ := Equation.exists_read_kinds heq hspellable hkinds
    exact exists_of_equation heq'
  rw [← horderly, ← hproduced.rereads_iff hkinds, htext]
  constructor
  · rintro ⟨s', hs', htext'⟩
    obtain ⟨eq', heq', htext''⟩ := hread s' hs'
    exact ⟨eq', heq', htext''.trans htext'⟩
  · rintro ⟨eq', heq', htext'⟩
    obtain ⟨s', hs'⟩ := exists_of_equation heq'
    obtain ⟨eq'', heq'', htext''⟩ := hread s' hs'
    cases heq'.symm.trans heq''
    exact ⟨s', hs', htext''.symm.trans htext'⟩

/-- A statement without an equals sign is read again as an expression is. -/
theorem Statement.exists_rereads_of_not_hasAssign {s : Statement} (h : read source = some s)
    (hspellable : ∀ t ∈ source, t.kind.Spellable) (hassign : hasAssign source = false) :
    ∃ tokens, Rereads s s.Orderly tokens := by
  rw [read_of_not_hasAssign hassign] at h
  obtain ⟨e, he, rfl⟩ := Option.map_eq_some_iff.1 h
  have hproduced := Expression.produced_of_read he hspellable
  obtain ⟨tokens, htokens, hkinds⟩ := hproduced.isCutInto
  have htokensAssign : hasAssign tokens = false := by
    rw [← Bool.not_eq_true, hasAssign_iff, hkinds]
    exact Expression.assign_not_mem_kinds _
  have hread : ∀ s', read tokens = some s' ↔ ∃ e', Expression.read tokens = some e' ∧
      .expression e' = s' := fun s' => by
    rw [read_of_not_hasAssign htokensAssign]
    exact Option.map_eq_some_iff
  refine ⟨tokens, htokens, fun s' hs' => ?_, ?_, ?_⟩
  · obtain ⟨e', he', -⟩ := (hread s').1 hs'
    exact Expression.complete_of_read he'
  · obtain ⟨e', he'⟩ := Expression.exists_read_kinds he hspellable hkinds
    exact ⟨_, (hread _).2 ⟨e', he', rfl⟩⟩
  rw [Orderly, ← hproduced.rereads_iff hkinds]
  constructor
  · rintro ⟨s', hs', htext⟩
    obtain ⟨e', he', rfl⟩ := (hread s').1 hs'
    exact ⟨e', he', htext⟩
  · rintro ⟨e', he', htext⟩
    exact ⟨.expression e', (hread _).2 ⟨e', he', rfl⟩, htext⟩

theorem Statement.exists_rereads {s : Statement} (h : read source = some s)
    (hspellable : ∀ t ∈ source, t.kind.Spellable) : ∃ tokens, Rereads s s.Orderly tokens := by
  cases hassign : hasAssign source with
  | true => exact exists_rereads_of_hasAssign h hspellable hassign
  | false => exact exists_rereads_of_not_hasAssign h hspellable hassign

end Stable

/-- What is parsed from a text is written as a text that is parsed again, and as something with the same
text just if the factors of each item stand in order. -/
theorem stable_iff_orderly {source : List Char}
    (hfinite : ∀ x ∈ literals source, x.isFinite = true)
    (hdisplay : ∀ x ∈ literals source, x.isFinite = true → Decimal.isNegative x = false →
      Decimal.ReadsBack x) :
    (∀ e : Expression, parse Expression source = .ok e → IsParsable e ∧ (IsStable e ↔ e.Orderly)) ∧
    (∀ eq : Equation, parse Equation source = .ok eq → IsParsable eq ∧ (IsStable eq ↔ eq.Orderly)) ∧
    (∀ d : FunctionDefinition, parse FunctionDefinition source = .ok d →
      IsParsable d ∧ (IsStable d ↔ d.body.Orderly)) ∧
    ∀ s : Statement, parse Statement source = .ok s → IsParsable s ∧ (IsStable s ↔ s.Orderly) := by
  have hread : ∀ {node : Type} [Readable node] {orderly : node → Prop},
      (∀ {tokens : List Token} {value : node}, Readable.read tokens = some value →
        (∀ t ∈ tokens, t.kind.Spellable) → ∃ tokens', Rereads value (orderly value) tokens') →
      ∀ value : node, parse node source = .ok value →
        IsParsable value ∧ (IsStable value ↔ orderly value) := by
    intro node _ orderly hrereads value h
    obtain ⟨tokens, htokens, -, -, hvalue⟩ := parse_eq_ok.1 h
    obtain ⟨tokens', hagain⟩ := hrereads hvalue (spellable_of_tokenize htokens hfinite hdisplay)
    exact ⟨hagain.isParsable, hagain.isStable_iff⟩
  exact ⟨hread Expression.exists_rereads, hread Equation.exists_rereads,
    hread FunctionDefinition.exists_rereads, hread Statement.exists_rereads⟩

/-- A function takes a quotient by a number into its argument when it is read, so `f(x)=\sin(x)/2` has a
stable text.  The text of `\sin(x)/(2)` is `\sin(x)\frac{1}{(2)}`, of which the function takes
the fraction only when it is read again, so this text is parsed, but is not stable. -/
theorem stable_iff_orderly_quotient :
    (∃ d : FunctionDefinition, literals "f(x)=\\sin(x)/2".toList = [2] ∧
      parse FunctionDefinition "f(x)=\\sin(x)/2".toList = .ok d ∧
      d.text = "f(x)=\\sin((x)\\frac\x7b1\x7d\x7b2\x7d)".toList ∧ IsStable d) ∧
    ∃ e : Expression, literals "\\sin(x)/(2)".toList = [2] ∧
      parse Expression "\\sin(x)/(2)".toList = .ok e ∧
      e.text = "\\sin(x)\\frac\x7b1\x7d\x7b(2)\x7d".toList ∧ IsParsable e ∧ ¬ IsStable e := by
  have hfinite : ∀ source, literals source = [2] → ∀ x ∈ literals source, x.isFinite = true := by
    intro source h x hx
    rw [h, List.mem_singleton] at hx
    subst hx
    decide +kernel
  have hdisplay : ∀ source, literals source = [2] → ∀ x ∈ literals source, x.isFinite = true →
      Decimal.isNegative x = false → Decimal.ReadsBack x := by
    intro source h x hx _ _
    rw [h, List.mem_singleton] at hx
    subst hx
    decide +kernel
  constructor
  · have hliterals : literals "f(x)=\\sin(x)/2".toList = [2] := by decide +kernel
    let body : Expression := .ofFactor (.unary .sin ⟨[⟨true, [.bracket (.ofFactor (.variable 'x' none)),
      Factor.reciprocal (.number 2)]⟩]⟩)
    have hparse : parse FunctionDefinition "f(x)=\\sin(x)/2".toList = .ok (.make 'f' ['x'] body) := by
      decide +kernel
    have horderly : body.Orderly := by
      simp [body, Expression.Orderly, Expression.everywhere_iff, Expression.ofFactor, Expression.ofNumber,
        Factor.reciprocal, Factor.children, Item.Ordered, Factor.mayPrecede, Factor.isPower, Factor.isOpen,
        Factor.isFunction]
    have hstable := (stable_iff_orderly (hfinite _ hliterals) (hdisplay _ hliterals)).2.2.1 _ hparse
    exact ⟨_, hliterals, hparse, by decide +kernel, hstable.2.2 horderly⟩
  · have hliterals : literals "\\sin(x)/(2)".toList = [2] := by decide +kernel
    let e : Expression := ⟨[⟨true, [.unary .sin (.ofFactor (.variable 'x' none)),
      Factor.reciprocal (.bracket (.ofNumber 2))]⟩]⟩
    have hparse : parse Expression "\\sin(x)/(2)".toList = .ok e := by decide +kernel
    have hdisorderly : ¬ e.Orderly := by
      intro h
      have hpair := h.here _ List.mem_cons_self
      exact Bool.false_ne_true (List.rel_of_pairwise_cons hpair List.mem_cons_self)
    have hstable := (stable_iff_orderly (hfinite _ hliterals) (hdisplay _ hliterals)).1 _ hparse
    exact ⟨_, hliterals, hparse, by decide +kernel, hstable.1, fun h => hdisorderly (hstable.2.1 h)⟩

end ImplicitCurves

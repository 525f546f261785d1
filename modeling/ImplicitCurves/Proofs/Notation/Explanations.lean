import ImplicitCurves.Parser.Source
import ImplicitCurves.Proofs.Notation.AsEquations
import ImplicitCurves.Proofs.Notation.TokenSpans

/-!
# Explanations of rejected tokens

Readers say only that they reject their tokens, and what is wrong with these is found out afterwards by
functions that read nothing themselves.  They find something whenever a reader rejects, at a place that
the reader could not get over: main statement `rejections_explained`.
-/

namespace ImplicitCurves

/-! ### Spans of parts -/

/-- No token is empty, and each one starts behind those in front of it. -/
structure Token.InOrder (tokens : List Token) : Prop where
  nonempty : ∀ t ∈ tokens, t.span.start < t.span.stop
  pairwise : tokens.Pairwise fun t t' => t.span.stop ≤ t'.span.start

/-- The span is not empty, and lies between the start of the first of the tokens and the end of the
last. -/
structure Span.Within (s : Span) (tokens : List Token) : Prop where
  nonempty : s.start < s.stop
  starts : ∃ first, tokens.head? = some first ∧ first.span.start ≤ s.start
  ends : ∃ last, tokens.getLast? = some last ∧ s.stop ≤ last.span.stop

theorem spanOf_eq_some {tokens : List Token} {s : Span} : spanOf tokens = some s ↔
    ∃ first last, tokens.head? = some first ∧ tokens.getLast? = some last ∧
      s = ⟨first.span.start, last.span.stop⟩ := by
  unfold spanOf
  constructor
  · intro h
    split at h
    · next first last hfirst hlast => exact ⟨first, last, hfirst, hlast, (Option.some.inj h).symm⟩
    · cases h
  · rintro ⟨first, last, hfirst, hlast, rfl⟩
    rw [hfirst, hlast]

theorem exists_spanOf {tokens : List Token} (h : tokens ≠ []) : ∃ s, spanOf tokens = some s := by
  have hfirst := List.head?_eq_some_head h
  have hlast := List.getLast?_eq_some_getLast h
  exact ⟨_, spanOf_eq_some.2 ⟨_, _, hfirst, hlast, rfl⟩⟩

namespace Token

variable {cs : List Char} {tokens part : List Token} {s : Span}

theorem inOrder_of_tokenize (h : tokenize cs = .ok tokens) : InOrder tokens := by
  obtain ⟨hpoints, hpairwise, -⟩ := pointsInto_of_tokensOfLexemes (List.nil_append _).symm rfl h
  refine ⟨fun t ht => ?_, hpairwise⟩
  obtain ⟨lexeme, -, front, typed, back, -, -, hlt, -⟩ := exists_of_forall₂ hpoints ht
  exact hlt

theorem InOrder.sublist (h : InOrder tokens) (hpart : part.Sublist tokens) : InOrder part :=
  ⟨fun t ht => h.nonempty t (hpart.subset ht), h.pairwise.sublist hpart⟩

theorem InOrder.start_le {first t : Token} (h : InOrder tokens) (hfirst : tokens.head? = some first)
    (ht : t ∈ tokens) : first.span.start ≤ t.span.start := by
  obtain ⟨rest, rfl⟩ := List.head?_eq_some_iff.1 hfirst
  rcases List.mem_cons.1 ht with rfl | hrest
  · exact Nat.le_refl _
  · have hlt := h.nonempty first List.mem_cons_self
    exact Nat.le_trans (Nat.le_of_lt hlt) ((List.pairwise_cons.1 h.pairwise).1 t hrest)

theorem InOrder.le_stop {last t : Token} (h : InOrder tokens) (hlast : tokens.getLast? = some last)
    (ht : t ∈ tokens) : t.span.stop ≤ last.span.stop := by
  obtain ⟨front, rfl⟩ := List.getLast?_eq_some_iff.1 hlast
  rcases List.mem_append.1 ht with hfront | ht
  · have hlt := h.nonempty last (List.mem_append_right _ List.mem_cons_self)
    have hle := (List.pairwise_append.1 h.pairwise).2.2 t hfront last List.mem_cons_self
    exact Nat.le_trans hle (Nat.le_of_lt hlt)
  · rw [List.mem_singleton.1 ht]

/-- Some of the tokens reach from the start of the first of them to the end of the last. -/
theorem InOrder.within (h : InOrder tokens) (hpart : part.Sublist tokens) (hs : spanOf part = some s) :
    s.Within tokens := by
  obtain ⟨first, last, hfirst, hlast, rfl⟩ := spanOf_eq_some.1 hs
  have hfirstMem := List.mem_of_mem_head? hfirst
  have hlastMem := List.mem_of_mem_getLast? hlast
  obtain ⟨s, hs⟩ := exists_spanOf (List.ne_nil_of_mem (hpart.subset hfirstMem))
  obtain ⟨first', last', hfirst', hlast', -⟩ := spanOf_eq_some.1 hs
  refine ⟨?_, ⟨first', hfirst', ?_⟩, ⟨last', hlast', ?_⟩⟩
  · have hlt := h.nonempty first (hpart.subset hfirstMem)
    exact Nat.lt_of_lt_of_le hlt ((h.sublist hpart).le_stop hlast hfirstMem)
  · exact h.start_le hfirst' (hpart.subset hfirstMem)
  · exact h.le_stop hlast' (hpart.subset hlastMem)

end Token

namespace Error

/-- The error has one span, which lies within the tokens. -/
def PointsInside (e : Error) (tokens : List Token) : Prop :=
  ∃ s, e.spans = [s] ∧ s.Within tokens

/-- The error has one span, which reaches from one of the tokens to a later one or to itself. -/
def Covers (e : Error) (tokens : List Token) : Prop :=
  ∃ part s, part.Sublist tokens ∧ spanOf part = some s ∧ e.spans = [s]

theorem Covers.pointsInside {e : Error} {tokens : List Token} (h : e.Covers tokens)
    (horder : Token.InOrder tokens) : e.PointsInside tokens := by
  obtain ⟨part, s, hpart, hs, hspans⟩ := h
  exact ⟨s, hspans, horder.within hpart hs⟩

theorem covers_of_mem {e : Error} {tokens : List Token} {t : Token} (ht : t ∈ tokens)
    (hspans : e.spans = [t.span]) : e.Covers tokens :=
  ⟨[t], t.span, List.singleton_sublist.2 ht, rfl, hspans⟩

end Error

/-! ### Expressions -/

theorem exists_first_of_mapM_eq_none {α β : Type} {f : α → Option β} {xs : List α}
    (h : xs.mapM f = none) : ∃ before x after, xs = before ++ x :: after ∧
      (∀ y ∈ before, (f y).isSome = true) ∧ f x = none := by
  induction xs with
  | nil => cases h
  | cons x xs ih =>
    cases hx : f x with
    | none => exact ⟨[], x, xs, rfl, fun y hy => absurd hy List.not_mem_nil, hx⟩
    | some y =>
      have hrest : xs.mapM f = none := by
        cases hxs : xs.mapM f with
        | none => rfl
        | some ys =>
          rw [List.mapM_cons, hx, hxs] at h
          cases h
      obtain ⟨before, x', after, rfl, hbefore, hx'⟩ := ih hrest
      refine ⟨x :: before, x', after, rfl, List.forall_mem_cons.2 ⟨?_, hbefore⟩, hx'⟩
      rw [hx, Option.isSome_some]

/-- The error is the one of the first item that cannot be read, and its span is that of the item. -/
def Error.BlamesItem (e : Error) (tokens : List Token) : Prop :=
  ∃ before item after s, Expression.splitItems tokens = before ++ item :: after ∧
    (∀ part ∈ before, (Item.read part).isSome = true) ∧ Item.read item = none ∧
    spanOf item = some s ∧ e = Item.explain item ∧ e.spans = [s]

/-- The error of an item has the span of the item, also if the item is just a sign. -/
theorem Item.spans_explain {item : List Token} {s : Span} (h : spanOf item = some s) :
    (Item.explain item).spans = [s] := by
  unfold Item.explain
  split
  · next t =>
    obtain rfl : t.span = s := Option.some.inj h
    split
    · rfl
    · rfl
  · rw [errorAt, h]
    rfl

namespace Expression

variable {tokens : List Token}

theorem ne_nil_of_mem_addToFirst {t : Token} {parts : List (List Token)}
    (h : ∀ part ∈ parts.tail, part ≠ []) : ∀ part ∈ addToFirst t parts, part ≠ [] := by
  intro part hpart
  cases parts with
  | nil =>
    rw [List.mem_singleton.1 hpart]
    exact List.cons_ne_nil _ _
  | cons first parts =>
    rcases List.mem_cons.1 hpart with rfl | hpart
    · exact List.cons_ne_nil _ _
    · exact h part hpart

/-- No part behind the first one is empty, since it starts with a sign. -/
theorem ne_nil_of_mem_splitSigns (tokens : List Token) (depth : Int) :
    ∀ part ∈ (splitSigns depth tokens).tail, part ≠ [] := by
  induction tokens generalizing depth with
  | nil =>
    intro part hpart
    cases hpart
  | cons t ts ih =>
    have hparts := ne_nil_of_mem_addToFirst (t := t) (ih (t.depthAfter depth))
    simp only [splitSigns]
    split
    · exact hparts
    · exact fun part hpart => hparts part (List.mem_of_mem_tail hpart)

theorem ne_nil_of_mem_splitItems (hne : tokens ≠ []) : ∀ part ∈ splitItems tokens, part ≠ [] := by
  obtain ⟨t, ts, rfl⟩ := List.exists_cons_of_ne_nil hne
  exact ne_nil_of_mem_addToFirst (ne_nil_of_mem_splitSigns ts (t.depthAfter 0))

/-- If tokens are no expression then one of their items is to blame. -/
theorem explain_blames (hne : tokens ≠ []) (h : read tokens = none) :
    (explain tokens).BlamesItem tokens := by
  have hempty : tokens.isEmpty = false := by simpa using hne
  have hitems : (splitItems tokens).mapM Item.read = none := by
    rw [read_eq, readWith, hempty] at h
    exact Option.map_eq_none_iff.1 h
  obtain ⟨before, item, after, hsplit, hbefore, hitem⟩ := exists_first_of_mapM_eq_none hitems
  have hfind : (splitItems tokens).find? (fun part => (Item.read part).isNone) = some item := by
    refine List.find?_eq_some_iff_append.2 ⟨by rw [hitem, Option.isNone_none], before, after, hsplit, ?_⟩
    intro part hpart
    rw [Option.not_isNone]
    exact hbefore part hpart
  have hexplain : explain tokens = Item.explain item := by
    rw [explain, hempty, hfind]
    rfl
  have hmem : item ∈ splitItems tokens := List.mem_of_find?_eq_some hfind
  obtain ⟨s, hs⟩ := exists_spanOf (ne_nil_of_mem_splitItems hne item hmem)
  refine ⟨before, item, after, s, hsplit, hbefore, hitem, hs, hexplain, ?_⟩
  rw [hexplain, Item.spans_explain hs]

end Expression

theorem Error.BlamesItem.covers {e : Error} {tokens part : List Token} (h : e.BlamesItem part)
    (hpart : part.Sublist tokens) : e.Covers tokens := by
  obtain ⟨before, item, after, s, hsplit, -, -, hs, -, hspans⟩ := h
  have hitem : item.Sublist part := by
    rw [← Expression.flatten_splitItems part, hsplit]
    exact List.sublist_flatten_of_mem (by simp)
  exact ⟨item, s, hitem.trans hpart, hs, hspans⟩

theorem Error.BlamesItem.pointsInside {e : Error} {tokens part : List Token} (h : e.BlamesItem part)
    (horder : Token.InOrder tokens) (hpart : part.Sublist tokens) : e.PointsInside tokens :=
  (h.covers hpart).pointsInside horder

/-! ### Equations -/

/-- The error is about a side of an equation that cannot be read: about one of its items, or about the
equals sign if there are no tokens. -/
structure Error.BlamesSide (e : Error) (sign : Token) (side : List Token) : Prop where
  rejected : Expression.read side = none
  missing : side = [] → e = ⟨.emptyExpression, [sign.span]⟩
  faulty : side ≠ [] → e.BlamesItem side

/-- The error is about what is wrong with tokens that are no equation: there is no equals sign, or the
left side cannot be read, or else the right side cannot. -/
inductive Error.BlamesEquation (e : Error) : List Token → Prop
  | missingEquals {tokens : List Token} {s : Span} (hnone : ∀ t ∈ tokens, t.kind ≠ .assign)
    (hs : spanOf tokens = some s) (he : e = ⟨.missingEquals, [s]⟩) : BlamesEquation e tokens
  | left {ls rs : List Token} {sign : Token} (hls : ∀ t ∈ ls, t.kind ≠ .assign)
    (hsign : sign.kind = .assign) (h : e.BlamesSide sign ls) : BlamesEquation e (ls ++ sign :: rs)
  | right {ls rs : List Token} {sign : Token} {lhs : Expression} (hls : ∀ t ∈ ls, t.kind ≠ .assign)
    (hsign : sign.kind = .assign) (hlhs : Expression.read ls = some lhs) (h : e.BlamesSide sign rs) :
    BlamesEquation e (ls ++ sign :: rs)

namespace Equation

variable {tokens : List Token}

theorem splitAssign_eq_none (h : splitAssign tokens = none) : ∀ t ∈ tokens, t.kind ≠ .assign := by
  induction tokens with
  | nil =>
    intro t ht
    cases ht
  | cons t ts ih =>
    rw [splitAssign] at h
    split at h
    · cases h
    · next hassign => exact List.forall_mem_cons.2 ⟨hassign, ih (Option.map_eq_none_iff.1 h)⟩

/-- The side that is explained is to blame if it cannot be read. -/
theorem explain_blames_side {ls rs side : List Token} {sign : Token}
    (hsplit : splitAssign tokens = some (ls, sign, rs))
    (hside : (if (Expression.read ls).isNone then ls else rs) = side)
    (h : Expression.read side = none) : (explain tokens).BlamesSide sign side := by
  have hexplain : explain tokens =
      if side.isEmpty then ⟨.emptyExpression, [sign.span]⟩ else Expression.explain side := by
    rw [explain, hsplit, ← hside]
  refine ⟨h, ?_, ?_⟩
  · intro hempty
    rw [hexplain, hempty]
    rfl
  · intro hne
    rw [hexplain, if_neg (by simpa using hne)]
    exact Expression.explain_blames hne h

/-- If tokens are no equation then something is to blame for it. -/
theorem explain_blames (hne : tokens ≠ []) (h : read tokens = none) :
    (explain tokens).BlamesEquation tokens := by
  cases hsplit : splitAssign tokens with
  | none =>
    obtain ⟨s, hs⟩ := exists_spanOf hne
    apply Error.BlamesEquation.missingEquals (splitAssign_eq_none hsplit) hs
    rw [explain, hsplit]
    simp only [errorAt, hs, Option.toList_some]
  | some parts =>
    obtain ⟨ls, sign, rs⟩ := parts
    obtain ⟨rfl, hsign, hls⟩ := splitAssign_eq_some.1 hsplit
    cases hlhs : Expression.read ls with
    | none => exact .left hls hsign (explain_blames_side hsplit (by simp [hlhs]) hlhs)
    | some lhs =>
      apply Error.BlamesEquation.right hls hsign hlhs
      apply explain_blames_side hsplit
      · simp [hlhs]
      · cases hrhs : Expression.read rs with
        | none => rfl
        | some rhs => cases h.symm.trans ((read_sides hsign hls).2 ⟨lhs, rhs, hlhs, hrhs, rfl⟩)

end Equation

theorem Error.BlamesSide.covers {e : Error} {tokens side : List Token} {sign : Token}
    (h : e.BlamesSide sign side) (hsign : sign ∈ tokens) (hside : side.Sublist tokens) :
    e.Covers tokens := by
  by_cases hempty : side = []
  · exact covers_of_mem hsign (by rw [h.missing hempty])
  · exact (h.faulty hempty).covers hside

theorem Error.BlamesEquation.covers {e : Error} {tokens : List Token} (h : e.BlamesEquation tokens) :
    e.Covers tokens := by
  cases h with
  | missingEquals _ hs he => exact ⟨tokens, _, .refl _, hs, by rw [he]⟩
  | @left ls rs sign _ _ h => exact h.covers (by simp) (List.sublist_append_left ls _)
  | @right ls rs sign _ _ _ _ h =>
    exact h.covers (by simp)
      ((List.sublist_cons_self sign rs).trans (List.sublist_append_right ls _))

theorem Error.BlamesEquation.pointsInside {e : Error} {tokens : List Token} (h : e.BlamesEquation tokens)
    (horder : Token.InOrder tokens) : e.PointsInside tokens :=
  h.covers.pointsInside horder

/-! ### Definitions -/

section Definitions

variable {tokens : List Token}

/-- The error of a definition is that of some token. -/
theorem definitionError_pointsInside (horder : Token.InOrder tokens) (hne : tokens ≠ []) (index : Nat)
    (fault : DefinitionFault) : (definitionError tokens index fault).PointsInside tokens := by
  unfold definitionError
  cases hindex : tokens[index]? with
  | some t => exact (Error.covers_of_mem (List.mem_of_getElem? hindex) rfl).pointsInside horder
  | none =>
    have hlast := List.getLast?_eq_some_getLast hne
    refine (Error.covers_of_mem (List.getLast_mem hne) ?_).pointsInside horder
    rw [hlast]
    rfl

/-- The error is one of a definition. -/
def Error.IsDefinitionError (e : Error) (tokens : List Token) : Prop :=
  ∃ index fault, e = definitionError tokens index fault

namespace VariableDefinition

theorem isDefinitionError_of_readOrExplain {e : Error} (h : readOrExplain tokens = .error e) :
    e.IsDefinitionError tokens := by
  unfold readOrExplain at h
  split at h
  · split at h
    · exact ⟨_, _, (Except.error.inj h).symm⟩
    split at h
    · exact ⟨_, _, (Except.error.inj h).symm⟩
    split at h
    · exact ⟨_, _, (Except.error.inj h).symm⟩
    split at h
    · cases h
    · exact ⟨_, _, (Except.error.inj h).symm⟩
  · exact ⟨_, _, (Except.error.inj h).symm⟩

/-- If tokens are no definition of a variable then the reader itself has an error. -/
theorem readOrExplain_eq_error (h : read tokens = none) :
    readOrExplain tokens = .error (explain tokens) := by
  unfold read at h
  unfold explain
  cases hd : readOrExplain tokens with
  | error e => rfl
  | ok d =>
    rw [hd] at h
    cases h

end VariableDefinition

namespace FunctionDefinition

theorem isDefinitionError_of_readParameters {parameters : List Char} {index : Nat} {ts : List Token}
    {e : Error} (h : readParameters tokens parameters index ts = .error e) :
    e.IsDefinitionError tokens := by
  fun_induction readParameters tokens parameters index ts with
  | case1 => exact ⟨_, _, (Except.error.inj h).symm⟩
  | case2 => exact ⟨_, _, (Except.error.inj h).symm⟩
  | case3 parameters index name span he hnew span' rest ih => exact ih h
  | case4 => cases h
  | case5 => exact ⟨_, _, (Except.error.inj h).symm⟩
  | case6 => exact ⟨_, _, (Except.error.inj h).symm⟩

theorem isDefinitionError_of_readHeader {e : Error} (h : readHeader tokens = .error e) :
    e.IsDefinitionError tokens := by
  unfold readHeader at h
  split at h
  · split at h
    · exact ⟨_, _, (Except.error.inj h).symm⟩
    split at h
    · exact ⟨_, _, (Except.error.inj h).symm⟩
    split at h
    · next e' hparameters =>
      obtain rfl := Except.error.inj h
      exact isDefinitionError_of_readParameters hparameters
    split at h
    · split at h
      · exact ⟨_, _, (Except.error.inj h).symm⟩
      · cases h
    · exact ⟨_, _, (Except.error.inj h).symm⟩
  · exact ⟨_, _, (Except.error.inj h).symm⟩

end FunctionDefinition

/-- The error is about what is wrong with tokens that are no definition of a function: what stands in
front of the body, or else an item of the body. -/
inductive Error.BlamesFunction (e : Error) (tokens : List Token) : Prop
  | header (h : FunctionDefinition.readHeader tokens = .error e)
  | body {header : FunctionDefinition.Header} (hheader : FunctionDefinition.readHeader tokens = .ok header)
    (hread : Expression.read header.body = none) (h : e.BlamesItem header.body)

/-- If tokens are no definition of a function then something is to blame for it. -/
theorem FunctionDefinition.explain_blames (h : read tokens = none) :
    (explain tokens).BlamesFunction tokens := by
  unfold read at h
  unfold explain
  cases hheader : readHeader tokens with
  | error e => exact .header hheader
  | ok header =>
    rw [hheader] at h
    obtain ⟨-, -, -, -, -, hne, -⟩ := exists_of_readHeader hheader
    have hbody := Option.map_eq_none_iff.1 h
    exact .body hheader hbody (Expression.explain_blames hne hbody)

theorem Error.BlamesFunction.pointsInside {e : Error} (h : e.BlamesFunction tokens)
    (horder : Token.InOrder tokens) (hne : tokens ≠ []) : e.PointsInside tokens := by
  cases h with
  | header h =>
    obtain ⟨index, fault, rfl⟩ := FunctionDefinition.isDefinitionError_of_readHeader h
    exact definitionError_pointsInside horder hne index fault
  | body hheader hread h =>
    obtain ⟨hs, s, htokens, -⟩ := FunctionDefinition.exists_of_readHeader hheader
    refine h.pointsInside horder ?_
    rw [htokens]
    exact (List.sublist_cons_self s _).trans (List.sublist_append_right hs _)

end Definitions

/-! ### Texts -/

/-- Tokens of a text are explained only if the reader rejects them. -/
theorem read_eq_none_of_parse {node : Type} [Readable node] {cs : List Char} {tokens : List Token}
    {e : Error} (h : tokenize cs = .ok tokens) (hne : tokens ≠ [])
    (hbalanced : checkBalanced tokens = .ok ()) (hparse : parse node cs = .error e) :
    (Readable.read tokens : Option node) = none ∧ e = Readable.explain node tokens := by
  have htokens : balancedTokens cs = .ok tokens := by
    rw [balancedTokens, h]
    simp only [bind, Except.bind, hbalanced]
    rfl
  rw [parse, htokens] at hparse
  simp only [bind, Except.bind, readTokens, List.isEmpty_iff, if_neg hne] at hparse
  split at hparse
  · cases hparse
  · next hread => exact ⟨hread, (Except.error.inj hparse).symm⟩

/-- Rejections are explained where they happen.  The error for tokens of a text that are rejected has one
span, which is not empty and lies within the tokens.  In an expression it is that of the first item that
cannot be read: in the whole input, in the first side of an equation that cannot be read, or in the body
behind what is read in front of it; an empty side is told by its equals sign.  Statements are rejected
just if they are rejected as an equation or, without an equals sign, as an expression, which is what they
are explained as.  Tokens that are read are never explained. -/
theorem rejections_explained {cs : List Char} {tokens : List Token} (h : tokenize cs = .ok tokens)
    (hne : tokens ≠ []) :
    (Expression.read tokens = none → (Expression.explain tokens).PointsInside tokens ∧
      (Expression.explain tokens).BlamesItem tokens) ∧
    (Equation.read tokens = none → (Equation.explain tokens).PointsInside tokens ∧
      (Equation.explain tokens).BlamesEquation tokens) ∧
    (VariableDefinition.read tokens = none → (VariableDefinition.explain tokens).PointsInside tokens ∧
      VariableDefinition.readOrExplain tokens = .error (VariableDefinition.explain tokens)) ∧
    (FunctionDefinition.read tokens = none → (FunctionDefinition.explain tokens).PointsInside tokens ∧
      (FunctionDefinition.explain tokens).BlamesFunction tokens) ∧
    (Statement.read tokens = none → (Statement.explain tokens).PointsInside tokens ∧
      if Statement.hasAssign tokens then (Statement.explain tokens).BlamesEquation tokens
      else (Statement.explain tokens).BlamesItem tokens) ∧
    (∀ ts : List Token, Statement.read ts = none ↔
      if Statement.hasAssign ts then Equation.read ts = none else Expression.read ts = none) ∧
    ∀ (node : Type) [Readable node] (e : Error), checkBalanced tokens = .ok () →
      parse node cs = .error e →
        (Readable.read tokens : Option node) = none ∧ e = Readable.explain node tokens := by
  have horder := Token.inOrder_of_tokenize h
  have hexpression : Expression.read tokens = none →
      (Expression.explain tokens).PointsInside tokens ∧
        (Expression.explain tokens).BlamesItem tokens := by
    intro hread
    have hblames := Expression.explain_blames hne hread
    exact ⟨hblames.pointsInside horder (List.Sublist.refl _), hblames⟩
  have hequation : Equation.read tokens = none → (Equation.explain tokens).PointsInside tokens ∧
      (Equation.explain tokens).BlamesEquation tokens := by
    intro hread
    have hblames := Equation.explain_blames hne hread
    exact ⟨hblames.pointsInside horder, hblames⟩
  refine ⟨hexpression, hequation, ?_, ?_, ?_, fun ts => Statement.read_eq_none_iff, ?_⟩
  · intro hread
    have herror := VariableDefinition.readOrExplain_eq_error hread
    obtain ⟨index, fault, hexplain⟩ := VariableDefinition.isDefinitionError_of_readOrExplain herror
    refine ⟨?_, herror⟩
    rw [hexplain]
    exact definitionError_pointsInside horder hne index fault
  · intro hread
    have hblames := FunctionDefinition.explain_blames hread
    exact ⟨hblames.pointsInside horder hne, hblames⟩
  · intro hread
    rw [Statement.read_eq_none_iff] at hread
    unfold Statement.explain
    cases hassign : Statement.hasAssign tokens with
    | true =>
      rw [hassign] at hread
      exact hequation hread
    | false =>
      rw [hassign] at hread
      exact hexpression hread
  · intro node _ e hbalanced hparse
    exact read_eq_none_of_parse h hne hbalanced hparse

/-- A parenthesis that is not closed is to blame in the body of a function, and in the equation that a
statement is explained as. -/
theorem rejections_explained_unclosedBody : ∃ tokens header, tokenize "f(x)=(".toList = .ok tokens ∧
    FunctionDefinition.readHeader tokens = .ok header ∧
    (FunctionDefinition.explain tokens).PointsInside tokens ∧
    (FunctionDefinition.explain tokens).BlamesItem header.body ∧
    (Statement.explain tokens).PointsInside tokens := by
  have hspelled : ("f(x)=(".toList.filter fun c => !Text.isBlank c) =
      [TokenKind.letter 'f', .openParen, .letter 'x', .closeParen, .assign, .openParen].flatMap
        TokenKind.spelled := by decide
  obtain ⟨tokens, htokens, hkinds⟩ :=
    tokenize_eq_ok hspelled (by simp [TokenKind.Spellable]) (by decide)
  have hparts : tokens.map (·.kind) =
      (FunctionDefinition.head 'f' ['x']).kinds ++ [.assign, .openParen] := hkinds
  obtain ⟨hs, behind, rfl, hhead, hbehind⟩ := List.map_eq_append_iff.1 hparts
  obtain ⟨sign, body, rfl, hsign, hbody⟩ := List.map_eq_cons_iff.1 hbehind
  have hne : body ≠ [] := by
    rintro rfl
    cases hbody
  have hrejected : Expression.read body = none := by
    cases hread : Expression.read body with
    | none => rfl
    | some e =>
      have hlevel := (Expression.complete_of_read hread).level
      rw [hbody] at hlevel
      cases hlevel
  have hadmissible : FunctionDefinition.Admissible 'f' ['x'] := by constructor <;> decide
  have hheader := FunctionDefinition.readHeader_eq_ok hadmissible hhead hsign hne
  have hfunction : FunctionDefinition.read (hs ++ sign :: body) = none := by
    rw [FunctionDefinition.read, hheader]
    exact Option.map_eq_none_iff.2 hrejected
  have hstatement : Statement.read (hs ++ sign :: body) = none := by
    have hassign : Statement.hasAssign (hs ++ sign :: body) = true := by
      simp [Statement.hasAssign, hsign]
    rw [Statement.read_eq_none_of_hasAssign hassign]
    cases heq : Equation.read (hs ++ sign :: body) with
    | none => rfl
    | some eq =>
      have hfirst := FunctionDefinition.assign_not_mem_head hhead
      obtain ⟨-, rhs, -, hrhs, -⟩ := (Equation.read_sides hsign hfirst).1 heq
      cases hrejected.symm.trans hrhs
  obtain ⟨-, -, -, hexplain, hexplain', -⟩ := rejections_explained htokens (by simp)
  obtain ⟨hinside, hblames⟩ := hexplain hfunction
  refine ⟨_, _, htokens, hheader, hinside, ?_, (hexplain' hstatement).1⟩
  cases hblames with
  | header h => cases h.symm.trans hheader
  | body hheader' _ h =>
    cases hheader'.symm.trans hheader
    exact h

end ImplicitCurves

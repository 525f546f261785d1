import ImplicitCurves.Proofs.Notation.Inline
import Mathlib.Data.List.Chain

/-!
# Neighbouring tokens

In what is read as an expression every operator has an operand on both sides, except for a sign, which
needs none in front of it at the start of an expression.  What is read of such an expression starts and
ends where an operand does, so nothing goes wrong where tokens are put together: main statement
`Expression.joined_of_readWith`.
-/

namespace ImplicitCurves

namespace TokenKind

/-- Whether an operand can start with the token. -/
def startsOperand : TokenKind → Bool
  | number _ | letter _ | pi | frac | function _ | logBase | openParen | openCurly => true
  | _ => false

/-- Whether an operand can end with the token. -/
def endsOperand : TokenKind → Bool
  | number _ | letter _ | pi | closeParen | closeCurly => true
  | _ => false

/-- Whether the token is an operator that always has an operand in front of it. -/
def isBinary : TokenKind → Bool
  | mul | div | caret => true
  | _ => false

/-- Whether an expression can start with the token. -/
def startsExpression (k : TokenKind) : Bool :=
  k.startsOperand || k.isSign

/-- Whether the factors of an item can go on with the token. -/
def continuesItem : TokenKind → Bool
  | mul | div => true
  | k => k.startsOperand

/-- The second token can stand right behind the first. -/
structure MayPrecede (k k' : TokenKind) : Prop where
  operand : (k.isSign || k.isBinary) = true → k'.startsOperand = true
  binary : k'.isBinary = true → k.endsOperand = true
  sign : k'.isSign = true → k.isOpen = true ∨ k = .comma ∨ k.endsOperand = true

namespace MayPrecede

variable {k k' : TokenKind}

theorem of_endsOperand (h : k.endsOperand = true) : MayPrecede k k' := by
  refine ⟨fun hoperator => ?_, fun _ => h, fun _ => .inr (.inr h)⟩
  cases k <;> first | exact absurd h Bool.false_ne_true | exact absurd hoperator Bool.false_ne_true

theorem of_startsOperand (h : k'.startsOperand = true) : MayPrecede k k' := by
  refine ⟨fun _ => h, fun hbinary => ?_, fun hsign => ?_⟩
  · cases k' <;> first | exact absurd h Bool.false_ne_true | exact absurd hbinary Bool.false_ne_true
  · cases k' <;> first | exact absurd h Bool.false_ne_true | exact absurd hsign Bool.false_ne_true

/-- An expression can stand behind an opening delimiter and behind a comma. -/
theorem of_startsExpression (h : k.isOpen = true ∨ k = .comma) (h' : k'.startsExpression = true) :
    MayPrecede k k' := by
  rcases Bool.or_eq_true_iff.1 h' with h' | h'
  · exact of_startsOperand h'
  · have hplain : (k.isSign || k.isBinary) = false := by
      rcases h with h | rfl
      · cases k <;> first | rfl | exact absurd h Bool.false_ne_true
      · rfl
    refine ⟨fun hoperator => ?_, fun hbinary => ?_, fun _ => h.imp_right .inl⟩
    · exact absurd (hplain.symm.trans hoperator) Bool.false_ne_true
    · cases k' <;> first | exact absurd h' Bool.false_ne_true | exact absurd hbinary Bool.false_ne_true

end MayPrecede

theorem startsOperand_of_isAtom {k : TokenKind} (h : k.isAtom = true) : k.startsOperand = true := by
  cases k <;> first | rfl | exact absurd h Bool.false_ne_true

theorem endsOperand_of_isAtom {k : TokenKind} (h : k.isAtom = true) : k.endsOperand = true := by
  cases k <;> first | rfl | exact absurd h Bool.false_ne_true

theorem startsOperand_of_isOpen {k : TokenKind} (h : k.isOpen = true) : k.startsOperand = true := by
  cases k <;> first | rfl | exact absurd h Bool.false_ne_true

theorem endsOperand_of_isClose {k : TokenKind} (h : k.isClose = true) : k.endsOperand = true := by
  cases k <;> first | rfl | exact absurd h Bool.false_ne_true

end TokenKind

open TokenKind (startsOperand startsExpression continuesItem)

/-- The first token is such a one, an operand ends with the last, each token may stand behind the one
in front of it, and none is an equals sign. -/
structure Joined (starts : TokenKind → Bool) (ts : List Token) : Prop where
  first : ∃ t us, ts = t :: us ∧ starts t.kind = true
  last : ∃ us t, ts = us ++ [t] ∧ t.kind.endsOperand = true
  chain : ts.IsChain fun t u => TokenKind.MayPrecede t.kind u.kind
  assignless : ∀ t ∈ ts, t.kind ≠ .assign

namespace Joined

variable {starts starts' : TokenKind → Bool} {ts us : List Token} {t : Token}

theorem mono (h : Joined starts ts) (hstarts : ∀ k, starts k = true → starts' k = true) :
    Joined starts' ts := by
  obtain ⟨t, us, rfl, ht⟩ := h.first
  exact ⟨⟨t, us, rfl, hstarts _ ht⟩, h.last, h.chain, h.assignless⟩

theorem startsExpression (h : Joined startsOperand ts) : Joined startsExpression ts :=
  h.mono fun _ hk => Bool.or_eq_true_iff.2 (.inl hk)

/-- Anything can stand behind an operand. -/
theorem append (h : Joined starts ts) (h' : Joined starts' us) : Joined starts (ts ++ us) := by
  obtain ⟨t, front, rfl, ht⟩ := h.first
  obtain ⟨front', u, hlast, hu⟩ := h'.last
  refine ⟨⟨t, front ++ us, rfl, ht⟩, ⟨t :: front ++ front', u, ?_, hu⟩, ?_, ?_⟩
  · rw [hlast, List.append_assoc]
  · refine List.isChain_append.2 ⟨h.chain, h'.chain, fun v hv w _ => ?_⟩
    obtain ⟨back, v', hback, hv'⟩ := h.last
    rw [hback, List.getLast?_concat] at hv
    obtain rfl := Option.some.inj hv
    exact .of_endsOperand hv'
  · exact List.forall_mem_append.2 ⟨h.assignless, h'.assignless⟩

theorem cons (h : Joined starts ts) (ht : starts' t.kind = true) (hassign : t.kind ≠ .assign)
    (hnext : ∀ k, starts k = true → TokenKind.MayPrecede t.kind k) : Joined starts' (t :: ts) := by
  obtain ⟨u, us, rfl, hu⟩ := h.first
  obtain ⟨back, v, hlast, hv⟩ := h.last
  refine ⟨⟨t, u :: us, rfl, ht⟩, ⟨t :: back, v, ?_, hv⟩, ?_, ?_⟩
  · rw [hlast, List.cons_append]
  · exact List.isChain_cons_cons.2 ⟨hnext _ hu, h.chain⟩
  · exact List.forall_mem_cons.2 ⟨hassign, h.assignless⟩

/-- A token that demands an operand. -/
theorem cons_operand (h : Joined startsOperand ts) (ht : starts t.kind = true)
    (hassign : t.kind ≠ .assign) : Joined starts (t :: ts) :=
  h.cons ht hassign fun _ => .of_startsOperand

theorem atom (ht : t.kind.isAtom = true) : Joined startsOperand [t] := by
  refine ⟨⟨t, [], rfl, TokenKind.startsOperand_of_isAtom ht⟩,
    ⟨[], t, rfl, TokenKind.endsOperand_of_isAtom ht⟩, List.isChain_singleton t, ?_⟩
  rintro u hu hassign
  rw [List.mem_singleton.1 hu] at hassign
  rw [hassign] at ht
  exact Bool.false_ne_true ht

/-- A first token of another kind. -/
theorem restart (h : Joined starts (t :: ts)) (ht : starts' t.kind = true) :
    Joined starts' (t :: ts) :=
  ⟨⟨t, ts, rfl, ht⟩, h.last, h.chain, h.assignless⟩

theorem group {o c : Token} (hc : o.kind.closer = some c.kind)
    (h : Joined TokenKind.startsExpression ts) : Joined startsOperand (o :: ts ++ [c]) := by
  obtain ⟨ho, hclose⟩ := isClose_of_closer hc
  have hopen : Joined startsOperand (o :: ts) := by
    refine h.cons (TokenKind.startsOperand_of_isOpen ho) (fun hassign => ?_) fun k hk =>
      .of_startsExpression (.inl ho) hk
    rw [hassign] at ho
    exact Bool.false_ne_true ho
  have hend : Joined (fun _ => true) [c] := by
    refine ⟨⟨c, [], rfl, rfl⟩, ⟨[], c, rfl, TokenKind.endsOperand_of_isClose hclose⟩,
      List.isChain_singleton c, ?_⟩
    rintro u hu hassign
    rw [List.mem_singleton.1 hu] at hassign
    rw [hassign] at hclose
    exact Bool.false_ne_true hclose
  exact hopen.append hend

theorem of_not_isSign (h : Joined TokenKind.startsExpression (t :: ts)) (ht : t.kind.isSign = false) :
    Joined startsOperand (t :: ts) := by
  obtain ⟨u, us, heq, hu⟩ := h.first
  obtain ⟨rfl, rfl⟩ := List.cons.inj heq
  rw [TokenKind.startsExpression, ht, Bool.or_false] at hu
  exact h.restart hu

/-- An expression without a sign in front starts with an operand. -/
theorem of_inline (h : Joined TokenKind.startsExpression ts) (hinline : Inline ts) :
    Joined startsOperand ts := by
  obtain ⟨t, us, rfl, -⟩ := h.first
  exact h.of_not_isSign hinline.isSign_first

/-- A single token is no sign, because no operand ends with one. -/
theorem single (h : Joined TokenKind.startsExpression [t]) : Joined startsOperand [t] := by
  refine h.of_not_isSign ?_
  obtain ⟨us, u, heq, hu⟩ := h.last
  have hlast := congrArg List.getLast? heq
  rw [List.getLast?_singleton, List.getLast?_concat] at hlast
  obtain rfl := Option.some.inj hlast
  cases hk : t.kind <;> rw [hk] at hu <;> first | rfl | exact absurd hu Bool.false_ne_true

/-- What goes on with factors, but with neither of the operators between them. -/
theorem of_continuesItem (h : Joined continuesItem (t :: ts)) (hmul : t.kind ≠ .mul)
    (hdiv : t.kind ≠ .div) : Joined startsOperand (t :: ts) := by
  obtain ⟨u, us, heq, hu⟩ := h.first
  obtain ⟨rfl, rfl⟩ := List.cons.inj heq
  refine h.restart ?_
  cases hk : t.kind <;> rw [hk] at hu <;> first | exact hu | contradiction

theorem continuesItem (h : Joined startsOperand ts) : Joined continuesItem ts := by
  refine h.mono fun k hk => ?_
  cases k <;> first | rfl | exact absurd hk Bool.false_ne_true

end Joined

theorem Factor.ArgumentTokens.joined {argument rest : List Token} (h : ArgumentTokens argument rest)
    (hargument : Joined startsExpression argument) : Joined startsExpression rest := by
  cases h with
  | plain _ => exact hargument
  | paren ho hc => exact (Joined.group (closer_paren ho hc) hargument).startsExpression

theorem Factor.ExponentTokens.joined {exponent rest : List Token} (h : ExponentTokens exponent rest)
    (hexponent : Joined startsExpression exponent) : Joined startsOperand rest := by
  cases h with
  | single => exact hexponent.single
  | paren ho hc => exact hexponent.of_not_isSign (by rw [ho]; rfl)
  | brace ho hc => exact .group (closer_brace ho hc) hexponent

section Readers

variable {inner : Factor.Reader} (hinner : ∀ ts e, inner ts = some e → Joined startsExpression ts)
include hinner

theorem CommaSeparated.joined {within : List Token}
    (h : CommaSeparated (fun part => ∃ e, inner part = some e) within) :
    Joined startsExpression within := by
  induction h with
  | single hpart =>
    obtain ⟨e, he⟩ := hpart
    exact hinner _ e he
  | @more t part rest ht hpart _ ih =>
    obtain ⟨e, he⟩ := hpart
    have hrest : Joined (fun _ => true) (t :: rest) :=
      ih.cons rfl (by rw [ht]; simp) fun k hk => .of_startsExpression (.inr ht) hk
    exact (hinner part e he).append hrest

/-- The tokens of a factor, whose first one is no sign because a sign outside of groups would have
started another item. -/
theorem Factor.Parsed.joined {tokens : List Token} {f : Factor} (h : Parsed inner tokens f)
    (hinline : Inline tokens) : Joined startsOperand tokens := by
  cases h with
  | @fraction s o c o' c' as bs a b hs ho hc ho' hc' ha hb =>
    have hgroups := (Joined.group (closer_brace ho hc) (hinner as a ha)).append
      (Joined.group (closer_brace ho' hc') (hinner bs b hb))
    have hfraction : Joined startsOperand (s :: ((o :: as ++ [c]) ++ (o' :: bs ++ [c']))) :=
      hgroups.cons_operand (by rw [hs]; rfl) (by rw [hs]; simp)
    simpa using hfraction
  | @power t bases rest exponents base exponent hcaret ht hrest hbase hexponent =>
    have hpower : Joined (fun _ => true) (t :: rest) :=
      (hrest.joined (hinner _ _ hexponent)).cons_operand rfl (by rw [ht]; simp)
    exact ((hinner _ _ hbase).of_inline hinline.of_append_left).append hpower
  | @call t o c name within arguments ht hname ho hc harguments =>
    have hgroup := Joined.group (closer_paren ho hc)
      ((commaSeparated_of_arguments harguments).joined hinner)
    exact (Joined.atom (by rw [ht]; rfl)).append hgroup
  | bracket ho ha => exact .group ho (hinner _ _ ha)
  | @unary t f rest as a ht hrest ha =>
    have hbehind := inline_behind hinline (by rw [ht]; rfl) (by rw [ht]; rfl)
    have hargument := (hrest.joined (hinner _ _ ha)).of_inline hbehind
    exact hargument.cons_operand (by rw [ht]; rfl) (by rw [ht]; simp)
  | @logarithm t o c bases rest as base a ht ho hc hrest hbase ha =>
    have hlog : Joined startsOperand (t :: ((o :: bases ++ [c]) ++ rest)) :=
      ((Joined.group (closer_brace ho hc) (hinner _ _ hbase)).append
        (hrest.joined (hinner _ _ ha))).cons_operand (by rw [ht]; rfl) (by rw [ht]; simp)
    simpa using hlog
  | @logarithmOfToken t u rest as base a ht hrest hbase ha =>
    have hargument := (hinner _ _ hbase).single.append (hrest.joined (hinner _ _ ha))
    exact hargument.cons_operand (by rw [ht]; rfl) (by rw [ht]; simp)
  | @«variable» t name ht _ => exact .atom (by rw [ht]; rfl)
  | @number t x ht => exact .atom (by rw [ht]; rfl)
  | @pi t ht => exact .atom (by rw [ht]; rfl)
  | @e t ht => exact .atom (by rw [ht]; rfl)

variable (hcomplete : ∀ ts e, inner ts = some e → Token.AllComplete ts)
include hcomplete

/-- Factors in a row, of which the later ones may stand behind an operator. -/
theorem Item.Factored.joined {started : Bool} {tokens : List Token} {fs : List Factor}
    (h : Factored inner started tokens fs) (hinline : Inline tokens) :
    tokens = [] ∨ Joined continuesItem tokens := by
  have hfirst : ∀ {first rest : List Token} {f : Factor}, Factor.IsLongest inner first rest f →
      Inline (first ++ rest) → (Inline rest → rest = [] ∨ Joined continuesItem rest) →
      Joined startsOperand (first ++ rest) := by
    intro first rest f hf hinline ih
    have hparsed := Factor.parsed_of_readWith hf.reads
    have hfirst := hparsed.joined hinner hinline.of_append_left
    rcases ih (hinline.of_append_right (hparsed.complete hcomplete).level) with rfl | hrest
    · rw [List.append_nil]
      exact hfirst
    · exact hfirst.append hrest
  induction h with
  | nil => exact .inl rfl
  | @mul t u us fs ht hu _ ih =>
    have hbehind := inline_behind hinline (by rw [ht]; rfl) (by rw [ht]; rfl)
    have hrest := (ih hbehind).resolve_left (List.cons_ne_nil _ _)
    obtain ⟨hmul, hdiv⟩ := Bool.and_eq_true_iff.1 hu
    have hoperand := hrest.of_continuesItem (of_decide_eq_true hmul) (of_decide_eq_true hdiv)
    exact .inr (hoperand.cons_operand (by rw [ht]; rfl) (by rw [ht]; simp))
  | @div t first rest f fs ht hf _ ih =>
    have hbehind := inline_behind hinline (by rw [ht]; rfl) (by rw [ht]; rfl)
    have hoperand := hfirst hf hbehind ih
    exact .inr (hoperand.cons_operand (by rw [ht]; rfl) (by rw [ht]; simp))
  | factor hmul hdiv hf _ ih => exact .inr (hfirst hf hinline ih).continuesItem

theorem Item.Factored.joined_of_start {tokens : List Token} {fs : List Factor}
    (h : Factored inner false tokens fs) (hne : fs ≠ []) (hinline : Inline tokens) :
    Joined startsOperand tokens := by
  have hjoined := h.joined hinner hcomplete hinline
  cases h with
  | nil => exact absurd rfl hne
  | factor hmul hdiv _ _ =>
    exact (hjoined.resolve_left (List.cons_ne_nil _ _)).of_continuesItem hmul hdiv

theorem Item.Parsed.joined {part : List Token} {i : Item} (h : Parsed inner part i)
    (hinline : Inline part ∨ ∃ s us, part = s :: us ∧ s.kind.isSign = true ∧ Inline us) :
    Joined startsExpression part := by
  cases h with
  | @plus t ts fs ht hne h | @minus t ts fs ht hne h =>
    have hbehind := inline_behind_sign (by rw [ht]; rfl) hinline
    exact (h.joined_of_start hinner hcomplete hne hbehind).cons_operand (by rw [ht]; rfl)
      (by rw [ht]; simp)
  | unsigned ht hne h =>
    have hitem := inline_of_unsigned ht hinline
    exact (h.joined_of_start hinner hcomplete hne hitem).startsExpression

/-- The neighbours in an expression, if they are right in the expressions inside it. -/
theorem Expression.joined_of_readWith {tokens : List Token} {e : Expression}
    (h : readWith inner tokens = some e) : Joined startsExpression tokens :=
  of_items h (fun _ _ => .append) fun _ hpart _ hi =>
    hi.joined hinner hcomplete (inline_of_mem_splitItems (complete_of_readWith h hcomplete) hpart)

end Readers

end ImplicitCurves

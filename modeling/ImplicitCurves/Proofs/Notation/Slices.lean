import ImplicitCurves.Parser.Nesting
import ImplicitCurves.Parser.Statement
import ImplicitCurves.Proofs.Notation.Complete
import ImplicitCurves.Proofs.Notation.Grammar
import Mathlib.Data.Option.Basic

/-!
# Slices of tokens

The readers of factors, written with indexes and slices of tokens that are checked.  A slice must
not start behind its end, and it must not end behind the tokens.  The readers of factors take no
other slices, whatever the tokens are, and what they take are the tokens that `Factor.readWith`
passes on: main statement `Indexed.readFactor_eq`.

A slice that ends in front of the last token starts behind the first one.  So without any tokens its
end is in front of its start, also with a subtraction that stops at zero.
-/

namespace ImplicitCurves

/-- What stops a reader that takes tokens by index: a token or a slice that is out of range, or
expressions that are nested deeper than expected. -/
inductive OutOfRange where
  | index (index length : Nat)
  | slice (start stop length : Nat)
  | nesting
  deriving DecidableEq, Repr

/-- What takes tokens by index.  It is stopped by what is out of range, and else it finds something
or it does not. -/
abbrev Indexed := OptionT (Except OutOfRange)

namespace Indexed

variable {α β : Type}

/-- Nothing is out of range. -/
def inRange (found : Option α) : Indexed α :=
  OptionT.mk (.ok found)

@[simp] theorem pure_eq (x : α) : (pure x : Indexed α) = inRange (some x) :=
  rfl

@[simp] theorem inRange_some_bind (x : α) (f : α → Indexed β) : inRange (some x) >>= f = f x :=
  rfl

@[simp] theorem inRange_bind (found : Option α) (f : α → Option β) :
    (inRange found >>= fun x => inRange (f x)) = inRange (found.bind f) := by
  cases found <;> rfl

@[simp] theorem inRange_orElse (found found' : Option α) :
    (inRange found <|> inRange found') = inRange (found <|> found') := by
  cases found <;> rfl

@[simp] theorem guard_bind (p : Prop) [Decidable p] (f : Unit → Indexed β) :
    (guard p >>= f) = if p then f () else inRange none := by
  by_cases h : p
  · rw [guard, if_pos h, if_pos h]
    rfl
  · rw [guard, if_neg h, if_neg h]
    rfl

theorem mapM_eq {f : α → Indexed β} {g : α → Option β} {xs : List α}
    (h : ∀ x ∈ xs, f x = inRange (g x)) : xs.mapM f = inRange (xs.mapM g) := by
  induction xs with
  | nil => rfl
  | cons x xs ih =>
    obtain ⟨hx, hxs⟩ := List.forall_mem_cons.1 h
    rw [List.mapM_cons, List.mapM_cons, hx, ih hxs]
    cases g x with
    | none => rfl
    | some y => cases xs.mapM g <;> rfl

/-- What is found, or that nothing is. -/
def attempt (reading : Indexed α) : Indexed (Option α) :=
  OptionT.lift reading.run

@[simp] theorem attempt_inRange (found : Option α) :
    attempt (inRange found) = inRange (some found) :=
  rfl

/-! ### Tokens and slices -/

/-- The token with the index `index`. -/
def tokenAt (tokens : List Token) (index : Nat) : Indexed Token :=
  match tokens[index]? with
  | some t => return t
  | none => OptionT.mk (.error (.index index tokens.length))

theorem tokenAt_eq {tokens : List Token} {index : Nat} {t : Token} (h : tokens[index]? = some t) :
    tokenAt tokens index = inRange (some t) := by
  rw [tokenAt, h]
  rfl

/-- The tokens from the index `start` on, up to the index `stop`. -/
def slice (tokens : List Token) (start stop : Nat) : Indexed (List Token) :=
  if start ≤ stop ∧ stop ≤ tokens.length then inRange (some ((tokens.take stop).drop start))
  else OptionT.mk (.error (.slice start stop tokens.length))

example : (slice [] 1 0).run = .error (.slice 1 0 0) :=
  rfl

section Kinds

variable {tokens : List Token} {index : Nat}

theorem kindAt_add (tokens : List Token) (n i : Nat) :
    kindAt tokens (n + i) = kindAt (tokens.drop n) i := by
  rw [kindAt, kindAt, List.getElem?_drop]

theorem exists_of_kindAt_zero {k : TokenKind} (h : kindAt tokens 0 = some k) :
    ∃ span rest, tokens = ⟨k, span⟩ :: rest := by
  cases tokens with
  | nil => cases h
  | cons t rest =>
    obtain ⟨k', span⟩ := t
    obtain rfl : k' = k := Option.some.inj h
    exact ⟨span, rest, rfl⟩

theorem drop_of_kindAt {k : TokenKind} (h : kindAt tokens index = some k) :
    ∃ span, tokens.drop index = ⟨k, span⟩ :: tokens.drop (index + 1) := by
  rw [← Nat.add_zero index, kindAt_add] at h
  obtain ⟨span, rest, hrest⟩ := exists_of_kindAt_zero h
  exact ⟨span, by rw [← List.tail_drop, hrest, List.tail_cons]⟩

theorem kindAt_of_drop {t : Token} {rest : List Token}
    (h : tokens.drop index = t :: rest) : kindAt tokens index = some t.kind := by
  rw [← Nat.add_zero index, kindAt_add, h]
  rfl

end Kinds

section Slice

variable {tokens : List Token} {start stop : Nat}

theorem slice_eq (hstart : start ≤ stop) (hstop : stop ≤ tokens.length) :
    slice tokens start stop = inRange (some ((tokens.take stop).drop start)) :=
  if_pos ⟨hstart, hstop⟩

theorem slice_take (hstop : stop ≤ tokens.length) :
    slice tokens 0 stop = inRange (some (tokens.take stop)) :=
  slice_eq (Nat.zero_le stop) hstop

theorem slice_drop (hstart : start ≤ tokens.length) :
    slice tokens start tokens.length = inRange (some (tokens.drop start)) := by
  rw [slice_eq hstart le_rfl, List.take_length]

theorem slice_dropLast (hstart : start < tokens.length) :
    slice tokens start (tokens.length - 1) = inRange (some (tokens.drop start).dropLast) := by
  rw [slice_eq (by omega) (by omega), List.dropLast_eq_take, List.length_drop, List.drop_take,
    Nat.sub_right_comm]

end Slice

/-! ### Groups -/

section Groups

variable {tokens : List Token} {start stop : Nat}

/-- A group that closes at the end has two tokens at least. -/
theorem lt_of_closesAtEnd (h : closesAtEnd tokens start = true) : start + 1 < tokens.length := by
  rw [closesAtEnd] at h
  split at h
  · next stop hstop =>
    have hbounds := bounds_of_matchingClose hstop
    have hend := beq_iff_eq.1 h
    omega
  · exact absurd h Bool.false_ne_true

/-- Looks for the delimiter that brings the depth back to zero, from the index `index` on.  It has
to be `closer`. -/
def closeIndexFrom (tokens : List Token) (closer : TokenKind) (depth index : Nat) : Indexed Nat :=
  if index < tokens.length then do
    let t ← tokenAt tokens index
    if t.kind.isOpen then closeIndexFrom tokens closer (depth + 1) (index + 1)
    else if t.kind.isClose then
      match depth with
      | 0 => failure
      | 1 => if t.kind = closer then return index else failure
      | depth + 2 => closeIndexFrom tokens closer (depth + 1) (index + 1)
    else closeIndexFrom tokens closer depth (index + 1)
  else failure
termination_by tokens.length - index

/-- The index of the token that closes the group opened at `start`.  The search begins with the token
that opens it. -/
def closeIndex (tokens : List Token) (start : Nat) : Indexed Nat := do
  let closer ← inRange ((kindAt tokens start).bind TokenKind.closer)
  closeIndexFrom tokens closer 0 start

/-- Whether the group opened at `start` is closed by the last token. -/
def closesLast (tokens : List Token) (start : Nat) : Indexed Bool :=
  return (← attempt (closeIndex tokens start)) = some (tokens.length - 1)

theorem closeIndexFrom_eq (tokens : List Token) (closer : TokenKind) (depth index : Nat) :
    closeIndexFrom tokens closer depth index =
      inRange (closeFrom closer depth index (tokens.drop index)) := by
  fun_induction closeIndexFrom tokens closer depth index with
  | case1 depth index hlt hopen hclose hneither =>
    rw [tokenAt_eq (List.getElem?_eq_getElem hlt), inRange_some_bind,
      List.drop_eq_getElem_cons hlt, closeFrom.eq_def]
    dsimp only
    split
    · exact hopen
    · split
      · rcases depth with _ | _ | depth
        · rfl
        · dsimp only
          split <;> rfl
        · exact hclose depth
      · exact hneither
  | case2 depth index hle =>
    rw [List.drop_of_length_le (by omega)]
    rfl

theorem closeIndex_eq (tokens : List Token) (start : Nat) :
    closeIndex tokens start = inRange (matchingClose tokens start) := by
  rw [closeIndex, matchingClose]
  cases hdrop : tokens.drop start with
  | nil =>
    rw [kindAt, List.getElem?_eq_none (List.drop_eq_nil_iff.1 hdrop)]
    rfl
  | cons t ts =>
    rw [kindAt_of_drop hdrop, Option.bind_some]
    dsimp only
    cases hcloser : t.kind.closer with
    | none => rfl
    | some closer =>
      have hopen := (TokenKind.delimiters_of_closer hcloser).1
      rw [inRange_some_bind, closeIndexFrom_eq, hdrop, closeFrom, if_pos hopen]

theorem closesLast_eq (tokens : List Token) (start : Nat) :
    closesLast tokens start = inRange (some (closesAtEnd tokens start)) := by
  rw [closesLast, closeIndex_eq, attempt_inRange, inRange_some_bind, closesAtEnd]
  cases hstop : matchingClose tokens start with
  | none => rfl
  | some stop =>
    have hbounds := bounds_of_matchingClose hstop
    have hlast : some stop = some (tokens.length - 1) ↔ stop + 1 = tokens.length := by
      rw [Option.some.injEq]
      omega
    simp only [hlast]
    rfl

/-- Cuts the tokens where there is a token at depth zero that `cuts` picks by its index and its
kind.  The next part starts with that token if `gap` is zero, and behind it if `gap` is one.
`depth` is the depth of the first of the remaining tokens, `index` is its index, and `start` is where
its part starts. -/
def cut (tokens : List Token) (cuts : Nat → TokenKind → Bool) (gap : Nat) (depth : Int)
    (start index : Nat) : List Token → Indexed (List (List Token))
  | [] => return [← slice tokens start tokens.length]
  | t :: ts =>
    if depth = 0 ∧ cuts index t.kind ∧ !t.kind.isOpen ∧ !t.kind.isClose then do
      let part ← slice tokens start index
      return part :: (← cut tokens cuts gap depth (index + gap) (index + 1) ts)
    else cut tokens cuts gap (t.depthAfter depth) start (index + 1) ts

/-- Cuts the tokens at each separator at depth zero, which is left out. -/
def splitTopLevel (separator : TokenKind) (tokens : List Token) : Indexed (List (List Token)) :=
  cut tokens (fun _ k => k = separator) 1 0 0 0 tokens

/-- Cuts the tokens in front of each sign at depth zero but a sign at the start. -/
def splitItems (tokens : List Token) : Indexed (List (List Token)) :=
  cut tokens (fun index k => 0 < index && k.isSign) 0 0 0 0 tokens

/-- The index of the first `^` at depth zero, where `depth` is the depth of the first token. -/
def caretIndex (depth : Int) : List Token → Option Nat
  | [] => none
  | t :: ts =>
    if depth = 0 ∧ t.kind = .caret then some 0
    else (caretIndex (t.depthAfter depth) ts).map (· + 1)

theorem foldr_addToFirst (front part : List Token) (parts : List (List Token)) :
    front.foldr addToFirst (part :: parts) = (front ++ part) :: parts := by
  induction front with
  | nil => rfl
  | cons t front ih => rw [List.foldr_cons, ih, addToFirst, List.cons_append]

/-- What is cut by index from the index `least` on is what `split` splits, which gives the tokens of
each part one by one. -/
theorem cut_eq {cuts : Nat → TokenKind → Bool} {gap : Nat} (hgap : gap ≤ 1) (least : Nat)
    {split : Int → List Token → List (List Token)} (hnil : ∀ depth, split depth [] = [[]])
    (hcons : ∀ depth index t ts, least ≤ index → split depth (t :: ts) =
      if depth = 0 ∧ cuts index t.kind ∧ !t.kind.isOpen ∧ !t.kind.isClose then
        [] :: ([t].drop gap).foldr addToFirst (split depth ts)
      else addToFirst t (split (t.depthAfter depth) ts))
    {depth : Int} (before : List Token) {ts : List Token} (hleast : least ≤ before.length)
    (hstart : start ≤ before.length) :
    cut (before ++ ts) cuts gap depth start before.length ts =
      inRange (some ((before.drop start).foldr addToFirst (split depth ts))) := by
  induction ts generalizing depth start before with
  | nil =>
    rw [List.append_nil, cut, slice_drop hstart, hnil, foldr_addToFirst, List.append_nil]
    rfl
  | cons t ts ih =>
    have hrest : ∀ {depth : Int} {start : Nat}, start ≤ before.length + 1 →
        cut (before ++ t :: ts) cuts gap depth start (before.length + 1) ts =
          inRange (some (((before ++ [t]).drop start).foldr addToFirst (split depth ts))) := by
      intro depth start hstart
      have hlength : (before ++ [t]).length = before.length + 1 := List.length_append
      rw [List.append_cons, ← hlength]
      exact ih _ (by omega) (by omega)
    rw [cut, hcons depth before.length t ts hleast]
    split
    · rw [slice_eq hstart (by simp), List.take_left, hrest (by omega), foldr_addToFirst,
        List.append_nil, List.drop_length_add_append]
      rfl
    · rw [hrest (by omega), List.drop_append_of_le_length hstart, List.foldr_append]
      rfl

theorem splitTopLevel_eq (separator : TokenKind) (tokens : List Token) :
    splitTopLevel separator tokens =
      inRange (some (ImplicitCurves.splitTopLevel separator 0 tokens)) := by
  refine cut_eq le_rfl 0 (fun depth => rfl) ?_ [] le_rfl le_rfl
  intro depth index t ts _
  rw [ImplicitCurves.splitTopLevel]
  simp

theorem splitItems_eq (tokens : List Token) :
    splitItems tokens = inRange (some (Expression.splitItems tokens)) := by
  cases tokens with
  | nil => rfl
  | cons t ts =>
    have hsign : ∀ k : TokenKind, k.isSign = true → k.isOpen = false ∧ k.isClose = false := by
      intro k hk
      cases k <;> first | exact ⟨rfl, rfl⟩ | cases hk
    rw [splitItems, cut, if_neg (by simp)]
    refine cut_eq (Nat.zero_le 1) 1 (fun depth => rfl) ?_ [t] le_rfl (Nat.zero_le 1)
    intro depth index u us hindex
    rw [Expression.splitSigns]
    by_cases hu : depth = 0 ∧ u.kind.isSign = true
    · obtain ⟨hopen, hclose⟩ := hsign u.kind hu.2
      have hdepth : u.depthAfter depth = depth := by simp [Token.depthAfter, hopen, hclose]
      have hcut : (decide (0 < index) && u.kind.isSign) = true :=
        Bool.and_eq_true_iff.2 ⟨decide_eq_true hindex, hu.2⟩
      rw [if_pos hu, if_pos ⟨hu.1, hcut, by rw [hopen]; rfl, by rw [hclose]; rfl⟩, hdepth]
      rfl
    · rw [if_neg hu, if_neg fun h => hu ⟨h.1, (Bool.and_eq_true_iff.1 h.2.1).2⟩]

theorem splitCaret_eq (depth : Int) (tokens : List Token) :
    Factor.splitCaret depth tokens =
      (caretIndex depth tokens).map fun caret => (tokens.take caret, tokens.drop (caret + 1)) := by
  induction tokens generalizing depth with
  | nil => rfl
  | cons t ts ih =>
    rw [Factor.splitCaret, caretIndex, ih]
    split
    · rfl
    · cases caretIndex (t.depthAfter depth) ts <;> rfl

theorem lt_of_caretIndex {depth : Int} {caret : Nat} (h : caretIndex depth tokens = some caret) :
    caret < tokens.length := by
  have hlength := Factor.length_of_splitCaret (by rw [splitCaret_eq, h]; rfl)
  rw [List.length_take, List.length_drop] at hlength
  omega

end Groups

/-! ### Factors -/

/-- A reader of expressions. -/
abbrev Reader := List Token → Indexed Expression

/-- Nothing is out of range in what the reader does with fewer than `n` tokens, of which it reads
what the other reader does. -/
def InRangeBelow (n : Nat) (inner : Reader) (reader : Factor.Reader) : Prop :=
  ∀ tokens : List Token, tokens.length < n → inner tokens = inRange (reader tokens)

/-- Reads a fraction. -/
def readFraction (inner : Reader) (tokens : List Token) : Indexed Factor := do
  guard (kindAt tokens 0 = some .frac ∧ kindAt tokens 1 = some .openCurly)
  let stop ← closeIndex tokens 1
  guard (kindAt tokens (stop + 1) = some .openCurly ∧ (← closesLast tokens (stop + 1)))
  let numerator ← inner (← slice tokens 2 stop)
  let denominator ← inner (← slice tokens (stop + 2) (tokens.length - 1))
  return .fraction numerator denominator

/-- The tokens of an exponent. -/
def exponentTokens (rest : List Token) : Indexed (List Token) := do
  let kind ← inRange (kindAt rest 0)
  if kind = .openCurly ∧ (← closesLast rest 0) then slice rest 1 (rest.length - 1)
  else if kind = .openParen ∧ (← closesLast rest 0) then return rest
  else if rest.length = 1 then return rest
  else failure

/-- Reads a power. -/
def readPower (inner : Reader) (tokens : List Token) : Indexed Factor := do
  let caret ← inRange (caretIndex 0 tokens)
  let base ← slice tokens 0 caret
  let rest ← slice tokens (caret + 1) tokens.length
  guard (base ≠ [])
  let exponent ← exponentTokens rest
  return .power (← inner base) (← inner exponent)

/-- Reads a call. -/
def readCall (inner : Reader) (tokens : List Token) : Indexed Factor := do
  match ← inRange (kindAt tokens 0) with
  | .letter name =>
    guard (name ≠ 'e' ∧ kindAt tokens 1 = some .openParen ∧ (← closesLast tokens 1))
    let parts ← splitTopLevel .comma (← slice tokens 2 (tokens.length - 1))
    let arguments ← parts.mapM inner
    return .call name arguments .unlinked
  | _ => failure

/-- Reads a group of either kind. -/
def readBracket (inner : Reader) (tokens : List Token) : Indexed Factor := do
  let kind ← inRange (kindAt tokens 0)
  guard (kind.isOpen ∧ (← closesLast tokens 0))
  return .bracket (← inner (← slice tokens 1 (tokens.length - 1)))

/-- The tokens of the argument of a function. -/
def argumentTokens (rest : List Token) : Indexed (List Token) := do
  let first ← inRange rest.head?
  let last ← inRange rest.getLast?
  if 2 ≤ rest.length ∧ first.kind = .openParen ∧ last.kind = .closeParen then
    slice rest 1 (rest.length - 1)
  else return rest

/-- Reads a function of one argument. -/
def readUnary (inner : Reader) (tokens : List Token) : Indexed Factor := do
  match ← inRange (kindAt tokens 0) with
  | .function f =>
    let argument ← argumentTokens (← slice tokens 1 tokens.length)
    return .unary f (← inner argument)
  | _ => failure

/-- The tokens of the base of a logarithm, and those behind it. -/
def baseTokens (tokens : List Token) : Indexed (List Token × List Token) := do
  let kind ← inRange (kindAt tokens 1)
  if kind = .openCurly then
    let stop ← closeIndex tokens 1
    return (← slice tokens 2 stop, ← slice tokens (stop + 1) tokens.length)
  else return (← slice tokens 1 2, ← slice tokens 2 tokens.length)

/-- Reads a logarithm with a base. -/
def readLogarithm (inner : Reader) (tokens : List Token) : Indexed Factor := do
  guard (kindAt tokens 0 = some .logBase)
  let (base, rest) ← baseTokens tokens
  let base ← inner base
  let argument ← argumentTokens rest
  return .logarithm base (← inner argument)

/-- Reads a factor of any kind.  A variable and a constant have one token, which is matched as a
whole. -/
def readFactor (inner : Reader) (tokens : List Token) : Indexed Factor :=
  readFraction inner tokens <|> readPower inner tokens <|> readCall inner tokens <|>
    readBracket inner tokens <|> readUnary inner tokens <|> readLogarithm inner tokens <|>
    inRange (Factor.readVariable tokens) <|> inRange (Factor.readConstant tokens)

section Factors

variable {inner : Reader} {reader : Factor.Reader} {tokens : List Token}

theorem readFraction_eq (h : InRangeBelow tokens.length inner reader) :
    readFraction inner tokens = inRange (Factor.readFraction reader tokens) := by
  unfold Factor.readFraction
  split
  · next span span' rest =>
    dsimp only
    generalize htokens : (⟨.frac, span⟩ :: ⟨.openCurly, span'⟩ :: rest : List Token) = tokens at h
    have hfront : kindAt tokens 0 = some .frac ∧ kindAt tokens 1 = some .openCurly := by
      rw [← htokens]
      exact ⟨rfl, rfl⟩
    have hlength : rest.length + 2 = tokens.length := congrArg List.length htokens
    rw [readFraction, guard_bind, if_pos hfront, closeIndex_eq]
    cases hstop : matchingClose tokens 1 with
    | none => rfl
    | some stop =>
      obtain ⟨hlt, hstop⟩ := bounds_of_matchingClose hstop
      rw [inRange_some_bind, closesLast_eq, inRange_some_bind, guard_bind,
        kindAt_add tokens (stop + 1) 0]
      dsimp only
      split
      · next hthird =>
        obtain ⟨hkind, hcloses⟩ := hthird
        obtain ⟨span'', after, hafter⟩ := exists_of_kindAt_zero hkind
        have hlast := lt_of_closesAtEnd hcloses
        have hnumerator : (tokens.take stop).drop 2 = rest.take (stop - 2) := by
          rw [List.drop_take, ← htokens]
          rfl
        have hdenominator : (tokens.drop (stop + 2)).dropLast =
            Factor.between (⟨.openCurly, span''⟩ :: after) := by
          rw [← hafter, Factor.between, List.tail_drop]
        have hshort : (rest.take (stop - 2)).length < tokens.length := by
          rw [List.length_take]
          omega
        have hshort' : (tokens.drop (stop + 2)).dropLast.length < tokens.length := by
          rw [List.length_dropLast, List.length_drop]
          omega
        rw [hdenominator] at hshort'
        rw [hafter]
        dsimp only
        rw [if_pos hcloses, slice_eq (show 2 ≤ stop from hlt) hstop.le, slice_dropLast (by omega),
          hnumerator, hdenominator]
        simp only [inRange_some_bind, h _ hshort, h _ hshort', pure_eq, inRange_bind]
        rfl
      · next hthird =>
        split
        · next span'' after hafter =>
          rw [hafter] at hthird
          rw [if_neg fun hcloses => hthird ⟨rfl, hcloses⟩]
        · rfl
  · next hne =>
    rw [readFraction, guard_bind, if_neg]
    rintro ⟨hfrac, hcurly⟩
    obtain ⟨span, rest, rfl⟩ := exists_of_kindAt_zero hfrac
    obtain ⟨span', rest, rfl⟩ := @exists_of_kindAt_zero rest _ hcurly
    exact hne span span' rest rfl

theorem exponentTokens_eq (rest : List Token) :
    exponentTokens rest = inRange (Factor.exponentTokens rest) := by
  cases rest with
  | nil => rfl
  | cons t ts =>
    rw [exponentTokens, Factor.exponentTokens]
    simp only [kindAt, List.getElem?_cons_zero, Option.map_some, closesLast_eq, inRange_some_bind]
    split
    · next hcurly =>
      have hlast := lt_of_closesAtEnd hcurly.2
      rw [slice_dropLast (by omega)]
      rfl
    · split
      · rfl
      · cases ts <;> rfl

theorem readPower_eq (h : InRangeBelow tokens.length inner reader) :
    readPower inner tokens = inRange (Factor.readPower reader tokens) := by
  rw [readPower, Factor.readPower, splitCaret_eq]
  cases hcaret : caretIndex 0 tokens with
  | none => rfl
  | some caret =>
    have hlt := lt_of_caretIndex hcaret
    have hbase : (tokens.take caret).length < tokens.length := by
      rw [List.length_take]
      omega
    have hrest : (tokens.drop (caret + 1)).length < tokens.length := by
      rw [List.length_drop]
      omega
    rw [inRange_some_bind, slice_take hlt.le, slice_drop hlt, inRange_some_bind, inRange_some_bind,
      guard_bind, exponentTokens_eq]
    simp only [Option.map_some, Option.bind_eq_bind, Option.bind_some, List.isEmpty_iff]
    generalize tokens.take caret = base, tokens.drop (caret + 1) = rest at *
    by_cases hempty : base = []
    · rw [if_neg (not_not_intro hempty), if_pos hempty]
    · rw [if_pos hempty, if_neg hempty]
      cases hexponent : Factor.exponentTokens rest with
      | none => rfl
      | some exponent =>
        have hle := Factor.length_le_of_exponentTokens hexponent
        simp only [inRange_some_bind, h _ hbase, h exponent (by omega), pure_eq, inRange_bind]
        rfl

theorem readCall_eq (h : InRangeBelow tokens.length inner reader) :
    readCall inner tokens = inRange (Factor.readCall reader tokens) := by
  unfold Factor.readCall
  split
  · next name span span' rest =>
    generalize htokens :
      (⟨.letter name, span⟩ :: ⟨.openParen, span'⟩ :: rest : List Token) = tokens at h
    have hfirst : kindAt tokens 0 = some (.letter name) := by rw [← htokens]; rfl
    have hsecond : kindAt tokens 1 = some .openParen := by rw [← htokens]; rfl
    have hinside : (tokens.drop 2).dropLast = rest.dropLast := by rw [← htokens]; rfl
    rw [readCall, hfirst, hsecond, inRange_some_bind]
    dsimp only
    rw [closesLast_eq, inRange_some_bind, guard_bind]
    by_cases hcall : name ≠ 'e' ∧ closesAtEnd tokens 1 = true
    · have hlast := lt_of_closesAtEnd hcall.2
      have hparts : (ImplicitCurves.splitTopLevel .comma 0 rest.dropLast).mapM inner =
          inRange ((ImplicitCurves.splitTopLevel .comma 0 rest.dropLast).mapM reader) := by
        refine mapM_eq fun part hpart => h part ?_
        have hle := length_le_of_splitTopLevel hpart
        rw [← hinside, List.length_dropLast, List.length_drop] at hle
        omega
      rw [if_pos ⟨hcall.1, rfl, hcall.2⟩, if_pos hcall, slice_dropLast (by omega), hinside]
      simp only [inRange_some_bind, splitTopLevel_eq, hparts, pure_eq, inRange_bind]
      rfl
    · rw [if_neg fun hcall' => hcall ⟨hcall'.1, hcall'.2.2⟩, if_neg hcall]
  · next hne =>
    rw [readCall]
    cases hfirst : kindAt tokens 0 with
    | none => rfl
    | some k =>
      rw [inRange_some_bind]
      split
      · next name =>
        rw [closesLast_eq, inRange_some_bind, guard_bind, if_neg]
        rintro ⟨-, hsecond, -⟩
        obtain ⟨span, rest, rfl⟩ := exists_of_kindAt_zero hfirst
        obtain ⟨span', rest, rfl⟩ := @exists_of_kindAt_zero rest _ hsecond
        exact hne name span span' rest rfl
      · rfl

theorem readBracket_eq (h : InRangeBelow tokens.length inner reader) :
    readBracket inner tokens = inRange (Factor.readBracket reader tokens) := by
  cases tokens with
  | nil => rfl
  | cons t ts =>
    have hinside : ts.dropLast.length < (t :: ts).length := by
      rw [List.length_dropLast, List.length_cons]
      omega
    have hkind : kindAt (t :: ts) 0 = some t.kind := rfl
    rw [readBracket, Factor.readBracket, hkind, inRange_some_bind, closesLast_eq,
      inRange_some_bind, guard_bind]
    simp only [← Bool.and_eq_true]
    split
    · next hgroup =>
      have hlast := lt_of_closesAtEnd (Bool.and_eq_true_iff.1 hgroup).2
      have hslice : slice (t :: ts) 1 ((t :: ts).length - 1) = inRange (some ts.dropLast) :=
        slice_dropLast hlast
      simp only [hslice, inRange_some_bind, h _ hinside, pure_eq, inRange_bind]
      exact congrArg inRange Option.map_eq_bind.symm
    · rfl

theorem argumentTokens_eq (rest : List Token) :
    argumentTokens rest = inRange (Factor.argumentTokens rest) := by
  cases rest with
  | nil => rfl
  | cons t ts =>
    rw [argumentTokens, Factor.argumentTokens,
      List.getLast?_eq_some_getLast (List.cons_ne_nil t ts)]
    simp only [List.head?_cons, inRange_some_bind, Option.map_some, Option.some.injEq]
    split
    · next hparens =>
      rw [slice_dropLast (by omega)]
      rfl
    · rfl

theorem readUnary_eq (h : InRangeBelow tokens.length inner reader) :
    readUnary inner tokens = inRange (Factor.readUnary reader tokens) := by
  unfold Factor.readUnary
  split
  · next f span rest =>
    generalize htokens : (⟨.function f, span⟩ :: rest : List Token) = tokens at h
    have hlength : rest.length + 1 = tokens.length := congrArg List.length htokens
    have hkind : kindAt tokens 0 = some (.function f) := by rw [← htokens]; rfl
    have hrest : tokens.drop 1 = rest := by rw [← htokens]; rfl
    rw [readUnary, hkind, inRange_some_bind]
    dsimp only
    rw [slice_drop (by omega), hrest, inRange_some_bind, argumentTokens_eq]
    cases hargument : Factor.argumentTokens rest with
    | none => rfl
    | some argument =>
      have hle := Factor.length_le_of_argumentTokens hargument
      simp only [inRange_some_bind, h argument (by omega), pure_eq, inRange_bind]
      rfl
  · next hne =>
    rw [readUnary]
    cases hfirst : kindAt tokens 0 with
    | none => rfl
    | some k =>
      rw [inRange_some_bind]
      split
      · next f =>
        obtain ⟨span, rest, rfl⟩ := exists_of_kindAt_zero hfirst
        exact absurd rfl (hne f span rest)
      · rfl

/-- The base is what is in the group behind the first token, or the token there if it opens no
group. -/
theorem baseTokens_cons (u t : Token) (rest : List Token) : baseTokens (u :: t :: rest) =
    inRange (if t.kind = .openCurly then
        (matchingClose (u :: t :: rest) 1).map fun stop =>
          (rest.take (stop - 2), rest.drop (stop - 1))
      else some ([t], rest)) := by
  have hkind : kindAt (u :: t :: rest) 1 = some t.kind := rfl
  have htwo : 2 ≤ (u :: t :: rest).length := by simp
  rw [baseTokens, hkind, inRange_some_bind]
  split
  · rw [closeIndex_eq]
    cases hstop : matchingClose (u :: t :: rest) 1 with
    | none => rfl
    | some stop =>
      obtain ⟨hlt, hle⟩ := bounds_of_matchingClose hstop
      obtain ⟨stop, rfl⟩ := Nat.exists_eq_add_of_le' (show 2 ≤ stop from hlt)
      rw [inRange_some_bind, slice_eq hlt hle.le, slice_drop hle]
      rfl
  · rw [slice_eq (Nat.le_succ 1) htwo, slice_drop htwo]
    rfl

theorem readLogarithm_eq (h : InRangeBelow tokens.length inner reader) :
    readLogarithm inner tokens = inRange (Factor.readLogarithm reader tokens) := by
  unfold Factor.readLogarithm
  split
  · next span t rest =>
    have hlength : (⟨.logBase, span⟩ :: t :: rest : List Token).length = rest.length + 2 := rfl
    have hfirst : kindAt (⟨.logBase, span⟩ :: t :: rest) 0 = some .logBase := rfl
    have hantilog : ∀ (base : Expression) (us : List Token), us.length ≤ rest.length →
        (do let argument ← inRange (Factor.argumentTokens us)
            return .logarithm base (← inner argument) : Indexed Factor) =
          inRange do
            let antilog ← reader (← Factor.argumentTokens us)
            return .logarithm base antilog := by
      intro base us hus
      cases hargument : Factor.argumentTokens us with
      | none => rfl
      | some argument =>
        have hle := Factor.length_le_of_argumentTokens hargument
        simp only [inRange_some_bind, h argument (by omega), pure_eq, inRange_bind]
        rfl
    rw [readLogarithm, guard_bind, if_pos hfirst, baseTokens_cons]
    split
    · cases hstop : matchingClose (⟨.logBase, span⟩ :: t :: rest) 1 with
      | none => rfl
      | some stop =>
        have hbase := h (rest.take (stop - 2)) (by rw [List.length_take]; omega)
        simp only [Option.map_some, inRange_some_bind, hbase, argumentTokens_eq]
        cases reader (rest.take (stop - 2)) with
        | none => rfl
        | some base => exact hantilog base _ (by rw [List.length_drop]; omega)
    · have hbase := h [t] (by rw [hlength, List.length_singleton]; omega)
      simp only [inRange_some_bind, hbase, argumentTokens_eq]
      cases reader [t] with
      | none => rfl
      | some base => exact hantilog base rest le_rfl
  · next hne =>
    rw [readLogarithm, guard_bind]
    split
    · next hfirst =>
      obtain ⟨span, rest, rfl⟩ := exists_of_kindAt_zero hfirst
      cases rest with
      | nil => rfl
      | cons t rest => exact absurd rfl (hne span t rest)
    · rfl

/-- A factor is read without going out of range if the expressions in it are. -/
theorem readFactor_eq (h : InRangeBelow tokens.length inner reader) :
    readFactor inner tokens = inRange (Factor.readWith reader tokens) := by
  simp only [readFactor, Factor.readWith, readFraction_eq h, readPower_eq h, readCall_eq h,
    readBracket_eq h, readUnary_eq h, readLogarithm_eq h, inRange_orElse]

end Factors

end Indexed

end ImplicitCurves

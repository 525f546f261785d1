import ImplicitCurves.Parser.Statement
import ImplicitCurves.Proofs.Notation.Neighbours

/-!
# Where tokens stand

What is read as an expression has closed groups, no equals sign, commas only between the arguments of
calls, and operators only where their operands are: main statement `Expression.wellPlaced_of_read`.
Commas are followed through the readers along with what stands on both sides of them, up to the
delimiters of the group around them.
-/

namespace ImplicitCurves

/-! ### Commas -/

/-- What stands between `before` and `after` is within the parentheses of a call, and no other group is
open there. -/
inductive InCall : List Token → List Token → Prop
  | intro {t o c : Token} {name : Char} {front inside inside' back : List Token}
    (ht : t.kind = .letter name) (hname : name ≠ 'e') (ho : o.kind = .openParen)
    (hc : c.kind = .closeParen) (hinside : Token.AllComplete inside)
    (hinside' : Token.AllComplete inside') : InCall (front ++ t :: o :: inside) (inside' ++ c :: back)

/-- All commas are between the arguments of calls. -/
def CommasInCalls (ts : List Token) : Prop :=
  ∀ before t after, ts = before ++ t :: after → t.kind = .comma → InCall before after

/-- A token of tokens in a row is in one of the two parts. -/
theorem exists_of_append_eq {ts us before after : List Token} {t : Token}
    (h : ts ++ us = before ++ t :: after) : (∃ rest, ts = before ++ t :: rest ∧ after = rest ++ us) ∨
      ∃ rest, us = rest ++ t :: after ∧ before = ts ++ rest := by
  rcases List.append_eq_append_iff.1 h with ⟨rest, hbefore, hus⟩ | ⟨rest, hts, hbehind⟩
  · exact .inr ⟨rest, hus, hbefore⟩
  · cases rest with
    | nil =>
      rw [List.append_nil] at hts
      exact .inr ⟨[], hbehind.symm, by rw [hts, List.append_nil]⟩
    | cons u rest =>
      obtain ⟨rfl, hafter⟩ := List.cons.inj hbehind
      exact .inl ⟨rest, hts, hafter⟩

theorem exists_of_between {front ts back before after : List Token} {t : Token}
    (h : front ++ ts ++ back = before ++ t :: after) (hfront : t ∉ front) (hback : t ∉ back) :
    ∃ before' after', ts = before' ++ t :: after' ∧ before = front ++ before' ∧
      after = after' ++ back := by
  rcases exists_of_append_eq h with ⟨rest, hfrontTs, rfl⟩ | ⟨rest, rfl, -⟩
  · rcases exists_of_append_eq hfrontTs with ⟨rest', rfl, -⟩ | ⟨before', hts, hbefore⟩
    · exact absurd (List.mem_append_right before List.mem_cons_self) hfront
    · exact ⟨before', rest, hts, hbefore, rfl⟩
  · exact absurd (List.mem_append_right rest List.mem_cons_self) hback

theorem InCall.extend {before after : List Token} (h : InCall before after) (front back : List Token) :
    InCall (front ++ before) (after ++ back) := by
  obtain ⟨ht, hname, ho, hc, hinside, hinside'⟩ := h
  rw [← List.append_assoc, List.append_assoc _ (_ :: _) back, List.cons_append]
  exact .intro ht hname ho hc hinside hinside'

namespace CommasInCalls

variable {ts us : List Token}

theorem nil : CommasInCalls [] := by
  intro before t after h _
  exact absurd h (by simp)

theorem append (h : CommasInCalls ts) (h' : CommasInCalls us) : CommasInCalls (ts ++ us) := by
  intro before t after hcut ht
  rcases exists_of_append_eq hcut with ⟨rest, hts, rfl⟩ | ⟨rest, hus, rfl⟩
  · exact (h before t rest hts ht).extend [] us
  · have hwithin := (h' rest t after hus ht).extend ts []
    rw [List.append_nil] at hwithin
    exact hwithin

theorem cons {t : Token} (h : CommasInCalls ts) (ht : t.kind ≠ .comma) : CommasInCalls (t :: ts) := by
  intro before u after hcut hu
  cases before with
  | nil =>
    obtain ⟨rfl, -⟩ := List.cons.inj hcut
    exact absurd hu ht
  | cons t' before =>
    obtain ⟨rfl, hts⟩ := List.cons.inj hcut
    have hwithin := (h before u after hts hu).extend [t] []
    rw [List.append_nil] at hwithin
    exact hwithin

theorem single {t : Token} (ht : t.kind ≠ .comma) : CommasInCalls [t] :=
  nil.cons ht

theorem group {o c : Token} (hc : o.kind.closer = some c.kind) (h : CommasInCalls ts) :
    CommasInCalls (o :: ts ++ [c]) := by
  obtain ⟨ho, hclose⟩ := isClose_of_closer hc
  refine (h.cons fun hcomma => ?_).append (single fun hcomma => ?_)
  · rw [hcomma] at ho
    exact Bool.false_ne_true ho
  · rw [hcomma] at hclose
    exact Bool.false_ne_true hclose

end CommasInCalls

theorem Factor.ArgumentTokens.commasInCalls {argument rest : List Token}
    (h : ArgumentTokens argument rest) (hargument : CommasInCalls argument) : CommasInCalls rest := by
  cases h with
  | plain _ => exact hargument
  | paren ho hc => exact .group (closer_paren ho hc) hargument

theorem Factor.ExponentTokens.commasInCalls {exponent rest : List Token}
    (h : ExponentTokens exponent rest) (hexponent : CommasInCalls exponent) : CommasInCalls rest := by
  cases h with
  | single => exact hexponent
  | paren ho hc => exact hexponent
  | brace ho hc => exact .group (closer_brace ho hc) hexponent

section Readers

variable {inner : Factor.Reader} (hcomplete : ∀ ts e, inner ts = some e → Token.AllComplete ts)
  (hinner : ∀ ts e, inner ts = some e → CommasInCalls ts)
include hcomplete hinner

/-- A comma among arguments is inside of one of them, or has whole arguments on both sides. -/
theorem CommaSeparated.inCall_or {within : List Token}
    (h : CommaSeparated (fun part => ∃ e, inner part = some e) within) :
    ∀ before t after, within = before ++ t :: after → t.kind = .comma →
      InCall before after ∨ Token.AllComplete before ∧ Token.AllComplete after := by
  induction h with
  | single hpart =>
    obtain ⟨e, he⟩ := hpart
    exact fun before t after hcut ht => .inl (hinner _ e he before t after hcut ht)
  | @more t part rest ht hpart hrest ih =>
    obtain ⟨e, he⟩ := hpart
    intro before u after hcut hu
    rcases exists_of_append_eq hcut with ⟨behind, hpart, rfl⟩ | ⟨front, hbehind, rfl⟩
    · exact .inl ((hinner part e he before u behind hpart hu).extend [] (t :: rest))
    · cases front with
      | nil =>
        obtain ⟨rfl, rfl⟩ := List.cons.inj hbehind
        rw [List.append_nil]
        exact .inr ⟨hcomplete part e he, hrest.complete hcomplete⟩
      | cons t' front =>
        obtain ⟨rfl, hrest⟩ := List.cons.inj hbehind
        rcases ih front u after hrest hu with hin | ⟨hfront, hafter⟩
        · have hwithin := hin.extend (part ++ [t]) []
          rw [List.append_nil, List.append_assoc] at hwithin
          exact .inl hwithin
        · refine .inr ⟨?_, hafter⟩
          rw [Token.AllComplete, List.map_append, List.map_cons, ht]
          exact (hcomplete part e he).append (Complete.operation rfl hfront)

/-- The parentheses of a call are the innermost group around the commas between its arguments. -/
theorem CommaSeparated.commasInCalls {t o c : Token} {name : Char} {within : List Token}
    (h : CommaSeparated (fun part => ∃ e, inner part = some e) within)
    (ht : t.kind = .letter name) (hname : name ≠ 'e') (ho : o.kind = .openParen)
    (hc : c.kind = .closeParen) : CommasInCalls (t :: o :: within ++ [c]) := by
  intro before u after hcut hu
  have hfront : u ∉ [t, o] := by
    intro hmem
    rcases List.mem_cons.1 hmem with rfl | hmem
    · exact absurd (hu.symm.trans ht) (by simp)
    · rw [List.mem_singleton.1 hmem, ho] at hu
      exact absurd hu (by simp)
  have hback : u ∉ [c] := by
    intro hmem
    rw [List.mem_singleton.1 hmem, hc] at hu
    exact absurd hu (by simp)
  obtain ⟨before', after', hwithin, rfl, rfl⟩ := @exists_of_between [t, o] _ _ _ _ _ hcut hfront hback
  rcases h.inCall_or hcomplete hinner before' u after' hwithin hu with hin | ⟨hbefore, hafter⟩
  · exact hin.extend [t, o] [c]
  · exact @InCall.intro t o c name [] before' after' [] ht hname ho hc hbefore hafter

theorem Factor.Parsed.commasInCalls {tokens : List Token} {f : Factor} (h : Parsed inner tokens f) :
    CommasInCalls tokens := by
  cases h with
  | @fraction s o c o' c' as bs a b hs ho hc ho' hc' ha hb =>
    have hgroups := (CommasInCalls.group (closer_brace ho hc) (hinner as a ha)).append
      (CommasInCalls.group (closer_brace ho' hc') (hinner bs b hb))
    have hfraction := hgroups.cons (t := s) (by rw [hs]; simp)
    simpa using hfraction
  | @power t bases rest exponents base exponent hcaret ht hrest hbase hexponent =>
    have hrest := hrest.commasInCalls (hinner _ _ hexponent)
    exact (hinner _ _ hbase).append (hrest.cons (by rw [ht]; simp))
  | call ht hname ho hc harguments =>
    exact (commaSeparated_of_arguments harguments).commasInCalls hcomplete hinner ht hname ho hc
  | bracket ho ha => exact .group ho (hinner _ _ ha)
  | unary ht hrest ha => exact (hrest.commasInCalls (hinner _ _ ha)).cons (by rw [ht]; simp)
  | @logarithm t o c bases rest as base a ht ho hc hrest hbase ha =>
    have hbehind := (CommasInCalls.group (closer_brace ho hc) (hinner _ _ hbase)).append
      (hrest.commasInCalls (hinner _ _ ha))
    have hlog := hbehind.cons (t := t) (by rw [ht]; simp)
    simpa using hlog
  | logarithmOfToken ht hrest hbase ha =>
    exact ((hinner _ _ hbase).append (hrest.commasInCalls (hinner _ _ ha))).cons (by rw [ht]; simp)
  | «variable» ht _ => exact .single (by rw [ht]; simp)
  | number ht => exact .single (by rw [ht]; simp)
  | pi ht => exact .single (by rw [ht]; simp)
  | e ht => exact .single (by rw [ht]; simp)

theorem Item.Factored.commasInCalls {started : Bool} {tokens : List Token} {fs : List Factor}
    (h : Factored inner started tokens fs) : CommasInCalls tokens := by
  induction h with
  | nil => exact .nil
  | mul ht _ _ ih => exact ih.cons (by rw [ht]; simp)
  | div ht hf _ ih =>
    have hfirst := (Factor.parsed_of_readWith hf.reads).commasInCalls hcomplete hinner
    exact (hfirst.append ih).cons (by rw [ht]; simp)
  | factor _ _ hf _ ih =>
    exact ((Factor.parsed_of_readWith hf.reads).commasInCalls hcomplete hinner).append ih

theorem Item.Parsed.commasInCalls {tokens : List Token} {i : Item} (h : Parsed inner tokens i) :
    CommasInCalls tokens := by
  cases h with
  | plus ht _ h => exact (h.commasInCalls hcomplete hinner).cons (by rw [ht]; simp)
  | minus ht _ h => exact (h.commasInCalls hcomplete hinner).cons (by rw [ht]; simp)
  | unsigned _ _ h => exact h.commasInCalls hcomplete hinner

end Readers

/-! ### Groups -/

/-- The tokens at `o` and `c` delimit a group around the token at `i`, and no group further inside is
around it. -/
structure InnermostGroup (tokens : List Token) (i o c : Nat) : Prop where
  closes : matchingClose tokens o = some c
  opensBefore : o < i
  closesBehind : i < c
  innermost : ∀ o' c', matchingClose tokens o' = some c' → o' < i → i < c' → o' ≤ o

/-- A group that is opened among tokens that close all their groups, `depth + 1` deep and more, is
closed among them. -/
theorem lt_of_closeFrom {closer : TokenKind} {ts rest : List Token} {n depth index stop : Nat}
    (hlevel : depthBehind (fun _ => true) (n + 1 + depth) (ts.map (·.kind)) = some 0)
    (h : closeFrom closer (n + 1) index (ts ++ rest) = some stop) : stop < index + ts.length := by
  induction ts generalizing n index with
  | nil => exact absurd (Option.some.inj hlevel) (by omega)
  | cons t ts ih =>
    obtain ⟨d, hstep, hrest⟩ := depthBehind_cons (k := t.kind) hlevel
    rw [List.cons_append] at h
    rw [List.length_cons]
    rcases depthStep_eq_some_iff.1 hstep with ⟨hopen, hd⟩ | ⟨hopen, hclose, hd⟩ | ⟨hopen, hclose, -, hd⟩
    · rw [closeFrom_open hopen] at h
      have hinner : n + 1 + 1 + depth = d := by omega
      have hlt := @ih (n + 1) (index + 1) (by rw [hinner]; exact hrest) h
      omega
    · cases n with
      | zero =>
        rw [closeFrom_last hopen hclose] at h
        obtain ⟨-, hindex⟩ := Option.ite_none_right_eq_some.1 h
        obtain rfl := Option.some.inj hindex
        omega
      | succ n =>
        rw [closeFrom_close hopen hclose] at h
        have hinner : n + 1 + depth = d := by omega
        have hlt := @ih n (index + 1) (by rw [hinner]; exact hrest) h
        omega
    · rw [closeFrom_pass hopen hclose] at h
      rw [hd] at hrest
      have hlt := ih hrest h
      omega

/-- A group that is opened among tokens that close all their groups is closed among them. -/
theorem lt_of_matchingClose {front within back : List Token} {j stop : Nat}
    (hlevel : Level (fun _ => true) (within.map (·.kind))) (hj : j < within.length)
    (h : matchingClose (front ++ within ++ back) (front.length + j) = some stop) :
    stop < (front ++ within).length := by
  have hcut : within = within.take j ++ within[j] :: within.drop (j + 1) := by
    rw [List.getElem_cons_drop, List.take_append_drop]
  have hlength : (front ++ within.take j).length = front.length + j := by
    rw [List.length_append, List.length_take_of_le hj.le]
  have hrest : (within.drop (j + 1)).length = within.length - (j + 1) := List.length_drop
  generalize within.take j = before, within[j] = t, within.drop (j + 1) = rest at *
  have htokens : front ++ within ++ back = (front ++ before) ++ t :: (rest ++ back) := by
    rw [hcut]
    simp
  rw [hcut, List.map_append, Level, depthBehind_append] at hlevel
  obtain ⟨depth, -, hbehind⟩ := Option.bind_eq_some_iff.1 hlevel
  obtain ⟨depth', hstep, hdepth⟩ := depthBehind_cons (k := t.kind) hbehind
  rw [htokens, ← hlength, matchingClose, List.drop_left] at h
  dsimp only at h
  cases hcloser : t.kind.closer with
  | none =>
    rw [hcloser] at h
    exact absurd h.symm (Option.some_ne_none _)
  | some closer =>
    rw [hcloser] at h
    have hopen := (TokenKind.delimiters_of_closer hcloser).1
    unfold depthStep at hstep
    rw [if_pos hopen] at hstep
    obtain rfl := Option.some.inj hstep
    have hinside : depthBehind (fun _ => true) (0 + 1 + depth) (rest.map (·.kind)) = some 0 := by
      rw [Nat.zero_add, Nat.add_comm]
      exact hdepth
    have hlt := lt_of_closeFrom hinside h
    rw [List.length_append]
    omega

/-- The group of the call is the innermost one. -/
theorem InCall.exists_innermostGroup {before after : List Token} {t : Token} (h : InCall before after)
    (ht : t.kind = .comma) : ∃ o c name,
      InnermostGroup (before ++ t :: after) before.length (o + 1) c ∧
        kindAt (before ++ t :: after) (o + 1) = some .openParen ∧
        kindAt (before ++ t :: after) o = some (.letter name) ∧ name ≠ 'e' := by
  obtain @⟨u, o, c, name, front, inside, inside', back, hu, hname, ho, hc, hinside, hinside'⟩ := h
  refine ⟨front.length, front.length + 1 + 1 + (inside ++ t :: inside').length, name,
    ⟨?_, ?_, ?_, ?_⟩, ?_, ?_, hname⟩
  · have hlevel : Level (fun _ => true) ((inside ++ t :: inside').map (·.kind)) := by
      rw [List.map_append, List.map_cons, ht]
      exact (hinside.append (Complete.operation rfl hinside')).level
    have hclose := @matchingClose_eq _ back (front ++ [u]) _ o c (closer_paren ho hc) hlevel
    simpa using hclose
  · simp
  · simp
    omega
  · intro o' c' hmatch hbefore hbehind
    by_contra hinner
    -- the group would be opened behind the parenthesis of the call, so it is closed before the comma
    obtain ⟨j, rfl⟩ : ∃ j, o' = (front ++ [u, o]).length + j :=
      ⟨o' - (front.length + 2), by simp; omega⟩
    have hcut : front ++ u :: o :: inside = front ++ [u, o] ++ inside := by simp
    rw [hcut] at hmatch hbefore hbehind
    have hj : j < inside.length := by
      rw [@List.length_append _ (front ++ [u, o]) inside] at hbefore
      omega
    have hlt := lt_of_matchingClose hinside.level hj hmatch
    omega
  · simp [kindAt, ho]
  · simp [kindAt, hu]

/-! ### Places -/

theorem kindAt_eq_some {tokens : List Token} {i : Nat} {k : TokenKind} :
    kindAt tokens i = some k ↔ ∃ h : i < tokens.length, tokens[i].kind = k := by
  rw [kindAt, Option.map_eq_some_iff]
  constructor
  · rintro ⟨t, ht, hk⟩
    obtain ⟨h, rfl⟩ := List.getElem?_eq_some_iff.1 ht
    exact ⟨h, hk⟩
  · rintro ⟨h, hk⟩
    exact ⟨tokens[i], List.getElem?_eq_getElem h, hk⟩

namespace Joined

variable {starts : TokenKind → Bool} {tokens : List Token} {i : Nat} {k k' : TokenKind}

theorem mayPrecede (h : Joined starts tokens) (hk : kindAt tokens i = some k)
    (hk' : kindAt tokens (i + 1) = some k') : TokenKind.MayPrecede k k' := by
  obtain ⟨hi, rfl⟩ := kindAt_eq_some.1 hk
  obtain ⟨hnext, rfl⟩ := kindAt_eq_some.1 hk'
  exact List.isChain_iff_getElem.1 h.chain i hnext

/-- The tokens go on behind what ends no operand. -/
theorem exists_next (h : Joined starts tokens) (hk : kindAt tokens i = some k)
    (hends : k.endsOperand = false) : ∃ k', kindAt tokens (i + 1) = some k' := by
  obtain ⟨hi, rfl⟩ := kindAt_eq_some.1 hk
  obtain ⟨front, t, rfl, ht⟩ := h.last
  have hnext : i + 1 < (front ++ [t]).length := by
    by_contra hlast
    rw [List.length_append, List.length_singleton] at hi hlast
    obtain rfl : i = front.length := by omega
    rw [List.getElem_concat_length rfl] at hends
    exact absurd (hends.symm.trans ht) Bool.false_ne_true
  exact ⟨_, kindAt_eq_some.2 ⟨hnext, rfl⟩⟩

/-- Nothing stands in front of the tokens or something does. -/
theorem exists_previous (h : Joined starts tokens) (hk : kindAt tokens i = some k) :
    (i = 0 ∧ starts k = true) ∨
      ∃ j k', i = j + 1 ∧ kindAt tokens j = some k' ∧ TokenKind.MayPrecede k' k := by
  obtain ⟨hi, -⟩ := kindAt_eq_some.1 hk
  cases i with
  | zero =>
    obtain ⟨t, us, rfl, ht⟩ := h.first
    obtain rfl := Option.some.inj hk
    exact .inl ⟨rfl, ht⟩
  | succ j =>
    have hj : kindAt tokens j = some tokens[j].kind := kindAt_eq_some.2 ⟨by omega, rfl⟩
    exact .inr ⟨j, _, rfl, hj, h.mayPrecede hj hk⟩

end Joined

/-- The groups are closed, and each token stands where the notation has a place for it. -/
structure WellPlaced (tokens : List Token) : Prop where
  balanced : checkBalanced tokens = .ok ()
  assignless : ∀ i, kindAt tokens i ≠ some .assign
  /-- The innermost group around a comma is in parentheses right behind a letter other than `e`. -/
  comma : ∀ i, kindAt tokens i = some .comma → ∃ o c name, InnermostGroup tokens i (o + 1) c ∧
    kindAt tokens (o + 1) = some .openParen ∧ kindAt tokens o = some (.letter name) ∧ name ≠ 'e'
  /-- Right in front of an operator other than a sign an operand ends. -/
  binary : ∀ i k, kindAt tokens i = some k → k.isBinary = true →
    ∃ j k', i = j + 1 ∧ kindAt tokens j = some k' ∧ k'.endsOperand = true
  /-- In front of a sign an operand ends, or the sign is the first token of an expression. -/
  sign : ∀ i k, kindAt tokens i = some k → k.isSign = true → i = 0 ∨ ∃ j k', i = j + 1 ∧
    kindAt tokens j = some k' ∧ (k'.isOpen = true ∨ k' = .comma ∨ k'.endsOperand = true)
  /-- Right behind an operator an operand starts. -/
  operand : ∀ i k, kindAt tokens i = some k → (k.isSign || k.isBinary) = true →
    ∃ k', kindAt tokens (i + 1) = some k' ∧ k'.startsOperand = true

theorem wellPlaced_of_joined {tokens : List Token} (hcomplete : Token.AllComplete tokens)
    (hjoined : Joined TokenKind.startsExpression tokens) (hcommas : CommasInCalls tokens) :
    WellPlaced tokens where
  balanced := hcomplete.checkBalanced_eq
  assignless i hassign := by
    obtain ⟨hi, hkind⟩ := kindAt_eq_some.1 hassign
    exact hjoined.assignless _ (List.getElem_mem hi) hkind
  comma i hcomma := by
    obtain ⟨hi, hkind⟩ := kindAt_eq_some.1 hcomma
    have hcut : tokens = tokens.take i ++ tokens[i] :: tokens.drop (i + 1) := by
      rw [List.getElem_cons_drop, List.take_append_drop]
    have hgroup := (hcommas _ _ _ hcut hkind).exists_innermostGroup hkind
    rw [← hcut, List.length_take_of_le hi.le] at hgroup
    exact hgroup
  binary i k hk hbinary := by
    rcases hjoined.exists_previous hk with ⟨-, hstarts⟩ | ⟨j, k', hi, hk', hprecede⟩
    · cases k <;>
        first | exact absurd hbinary Bool.false_ne_true | exact absurd hstarts Bool.false_ne_true
    · exact ⟨j, k', hi, hk', hprecede.binary hbinary⟩
  sign i k hk hsign := by
    rcases hjoined.exists_previous hk with ⟨hi, -⟩ | ⟨j, k', hi, hk', hprecede⟩
    · exact .inl hi
    · exact .inr ⟨j, k', hi, hk', hprecede.sign hsign⟩
  operand i k hk hoperator := by
    have hends : k.endsOperand = false := by
      cases k <;> first | rfl | exact absurd hoperator Bool.false_ne_true
    obtain ⟨k', hk'⟩ := hjoined.exists_next hk hends
    exact ⟨k', hk', (hjoined.mayPrecede hk hk').operand hoperator⟩

/-- Tokens are only read as an expression if each of them stands where the notation has a place for
it.  This holds of all the tokens of a text, of a side of an equation and of the body of a function,
which `read` gets, and of the tokens of the expressions inside of those, which `readNested` gets. -/
theorem Expression.wellPlaced_of_read {tokens : List Token} {e : Expression}
    (h : read tokens = some e ∨ ∃ depth, readNested depth tokens = some e) : WellPlaced tokens := by
  obtain ⟨depth, h⟩ : ∃ depth, readNested depth tokens = some e := by
    rcases h with h | h
    · exact ⟨tokens.length, h⟩
    · exact h
  obtain ⟨hcomplete, hjoined⟩ := complete_and_of_readNested
    (fun inner hcomplete hinner ts e he => joined_of_readWith hinner hcomplete he) h
  obtain ⟨-, hcommas⟩ := complete_and_of_readNested (P := CommasInCalls)
    (fun inner hcomplete hinner ts e he => of_items he (fun _ _ => .append) fun _ _ _ hi =>
      hi.commasInCalls hcomplete hinner) h
  exact wellPlaced_of_joined hcomplete hjoined hcommas

/-- All of the tokens of `f(x,-y)^z` are read, and inside of them those of `-y`. -/
theorem Expression.wellPlaced_of_read_call :
    let argument : List Token := [⟨.sub, ⟨4, 5⟩⟩, ⟨.letter 'y', ⟨5, 6⟩⟩]
    let tokens : List Token := [⟨.letter 'f', ⟨0, 1⟩⟩, ⟨.openParen, ⟨1, 2⟩⟩, ⟨.letter 'x', ⟨2, 3⟩⟩,
      ⟨.comma, ⟨3, 4⟩⟩] ++ argument ++ [⟨.closeParen, ⟨6, 7⟩⟩, ⟨.caret, ⟨7, 8⟩⟩, ⟨.letter 'z', ⟨8, 9⟩⟩]
    ((read tokens).isSome = true ∧ WellPlaced tokens) ∧
      (readNested 1 argument).isSome = true ∧ WellPlaced argument := by
  intro argument tokens
  have hall : (read tokens).isSome = true := by decide +kernel
  have hargument : (readNested 1 argument).isSome = true := by decide +kernel
  obtain ⟨e, he⟩ := Option.isSome_iff_exists.1 hall
  obtain ⟨a, ha⟩ := Option.isSome_iff_exists.1 hargument
  exact ⟨⟨hall, wellPlaced_of_read (.inl he)⟩, hargument, wellPlaced_of_read (.inr ⟨1, ha⟩)⟩

end ImplicitCurves

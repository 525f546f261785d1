import ImplicitCurves.Proofs.Notation.Spelling
import Mathlib.Data.List.Chain

/-!
# Lexing what is written

A text whose characters, blanks apart, are the spellings of tokens one after another is cut into
these tokens again, if they are kept apart: main statement `tokenize_eq_ok`.  Blanks never matter,
and no sizing command comes up where spellings meet.
-/

namespace ImplicitCurves

namespace TokenKind

/-- The token can be written: a number reads back, and a letter is one of the ASCII letters. -/
def Spellable : TokenKind → Prop
  | number x => Decimal.ReadsBack x
  | letter c => c.isAlpha = true
  | _ => True

/-- The second token can be written right behind the first one. -/
def keepsApart : TokenKind → TokenKind → Bool
  | number _, number _ => false
  | function _, caret => false
  | _, _ => true

/-- The first character of a spelling is neither a point nor, unless it is that of a number, a digit.
It is a caret only for the caret. -/
theorem exists_spelled {k : TokenKind} (h : k.Spellable) : ∃ c cs, k.spelled = c :: cs ∧ c ≠ '.' ∧
    (c = '^' → k = caret) ∧ (Decimal.isDigit c = true → ∃ x, k = number x) := by
  cases k with
  | number x =>
    obtain ⟨whole, fraction, hne, hwhole, -, htext, -⟩ := Decimal.ReadsBack.exists_numeral h
    obtain ⟨c, cs, rfl⟩ := List.exists_cons_of_ne_nil hne
    have hdigit := hwhole c List.mem_cons_self
    have hhead : ∃ cs', Decimal.text x = c :: cs' := by
      rw [htext, Decimal.numeral]
      split <;> exact ⟨_, rfl⟩
    obtain ⟨cs', hcs⟩ := hhead
    refine ⟨c, cs', hcs, ?_, ?_, fun _ => ⟨x, rfl⟩⟩
    · rintro rfl
      exact absurd hdigit (by decide)
    · rintro rfl
      exact absurd hdigit (by decide)
  | letter c =>
    replace h : c.isAlpha = true := h
    refine ⟨c, [], rfl, ?_, ?_, fun hdigit => ?_⟩
    · rintro rfl
      exact absurd h (by decide)
    · rintro rfl
      exact absurd h (by decide)
    · exact absurd hdigit (by rw [isDigit_of_isAlpha h]; exact Bool.false_ne_true)
  | function f => cases f <;> exact ⟨_, _, rfl, by decide, by decide, fun h => absurd h (by decide)⟩
  | _ => exact ⟨_, _, rfl, by decide, by decide, fun h => absurd h (by decide)⟩

theorem followedBy_spelled {k k' : TokenKind} (h : k.keepsApart k' = true) (hk : k'.Spellable)
    (rest : List Char) : k.FollowedBy (k'.spelled ++ rest) := by
  obtain ⟨c, cs, hchars, hpoint, hcaret, hdigit⟩ := exists_spelled hk
  rw [hchars]
  cases k with
  | number x =>
    intro c' hc
    obtain rfl := Option.some.inj hc
    refine ⟨?_, hpoint⟩
    rw [← Bool.not_eq_true]
    intro hd
    obtain ⟨y, rfl⟩ := hdigit hd
    exact Bool.false_ne_true h
  | function f =>
    intro hc
    obtain rfl := hcaret (Option.some.inj hc)
    exact Bool.false_ne_true h
  | _ => trivial

theorem followedBy_nil (k : TokenKind) : k.FollowedBy [] := by
  cases k with
  | number x => exact fun c hc => absurd hc.symm (Option.some_ne_none c)
  | function f => exact fun h => absurd h.symm (Option.some_ne_none '^')
  | _ => trivial

theorem longestLexeme_eq_some {k : TokenKind} (hk : k.Spellable) {rest : List Char}
    (h : k.FollowedBy rest) : longestLexeme (k.spelled ++ rest) = some (k, k.spelled.length) := by
  cases hopen : k.isOpenEnded with
  | false => exact longestLexeme_spelled hopen h
  | true =>
    cases k with
    | number x => exact longestLexeme_number hk h
    | letter c => exact longestLexeme_letter hk rest
    | _ => exact absurd hopen Bool.false_ne_true

/-- Spellings of tokens that are kept apart are read as these tokens. -/
theorem lexemes_flatMap {ks : List TokenKind} (hks : ∀ k ∈ ks, k.Spellable)
    (h : ks.IsChain fun k k' => k.keepsApart k' = true) :
    lexemes (ks.flatMap spelled) = ks.map fun k => ⟨some k, k.spelled⟩ := by
  induction ks with
  | nil => rw [List.flatMap_nil, lexemes, List.map_nil]
  | cons k ks ih =>
    obtain ⟨hk, hrest⟩ := List.forall_mem_cons.1 hks
    have hfollowed : k.FollowedBy (ks.flatMap spelled) := by
      cases ks with
      | nil => exact followedBy_nil k
      | cons k' ks => exact followedBy_spelled (List.isChain_cons_cons.1 h).1 (hrest k' List.mem_cons_self) _
    obtain ⟨c, cs, hchars, -⟩ := exists_spelled hk
    have hlexeme := longestLexeme_eq_some hk hfollowed
    rw [List.flatMap_cons, List.map_cons, ← ih hrest h.tail, hchars]
    rw [hchars] at hlexeme
    rw [List.cons_append, lexemes, ← List.cons_append, hlexeme]
    simp

/-- A backslash only stands at the start of a spelling. -/
theorem backslash_not_mem_tail {k : TokenKind} (h : k.Spellable) : '\\' ∉ k.spelled.tail := by
  cases k with
  | number x =>
    obtain ⟨whole, fraction, -, hwhole, hfraction, htext, -⟩ := Decimal.ReadsBack.exists_numeral h
    have hslash : ¬ Decimal.isDigit '\\' = true := by decide
    intro hmem
    have hmem' : '\\' ∈ Decimal.numeral whole fraction := by
      rw [← htext]
      exact List.mem_of_mem_tail hmem
    unfold Decimal.numeral at hmem'
    split at hmem'
    · exact hslash (hwhole _ hmem')
    · rcases List.mem_append.1 hmem' with hmem' | hmem'
      · exact hslash (hwhole _ hmem')
      · rcases List.mem_cons.1 hmem' with heq | hmem'
        · exact absurd heq (by decide)
        · exact hslash (hfraction _ hmem')
  | letter c => exact List.not_mem_nil
  | function f => cases f <;> decide
  | _ => decide

/-- Each sizing command starts with a backslash, and neither goes on like a spelling. -/
theorem sizing_apart : ∀ command ∈ Cleaned.sizingCommands, command.head? = some '\\' ∧
    ∀ s ∈ spellings, ¬ command <+: s.1 ∧ ¬ s.1 <+: command := by
  decide

/-- No sizing command stands where a token is written. -/
theorem not_sizing_spelled {k : TokenKind} (hk : k.Spellable) (rest : List Char)
    {command : List Char} (h : command ∈ Cleaned.sizingCommands) :
    ¬ command <+: k.spelled ++ rest := by
  obtain ⟨hhead, hapart⟩ := sizing_apart command h
  intro hstart
  cases hopen : k.isOpenEnded with
  | false =>
    have hspelling := hapart _ (mem_spellings hopen)
    rcases List.prefix_or_prefix_of_prefix hstart (List.prefix_append _ _) with hp | hp
    · exact hspelling.1 hp
    · exact hspelling.2 hp
  | true =>
    -- A number starts with a digit, and a letter is no backslash.
    obtain ⟨c, cs, hchars, -⟩ := exists_spelled hk
    rw [hchars] at hstart
    obtain ⟨c', cs', rfl⟩ : ∃ c' cs', command = c' :: cs' :=
      List.exists_cons_of_ne_nil fun hnil => by simp [hnil] at hhead
    obtain rfl := Option.some.inj hhead
    obtain ⟨rfl, -⟩ := List.cons_prefix_cons.1 hstart
    cases k with
    | number x =>
      obtain ⟨whole, fraction, hne, hwhole, -, htext, -⟩ := Decimal.ReadsBack.exists_numeral hk
      obtain ⟨d, ds, rfl⟩ := List.exists_cons_of_ne_nil hne
      have hdigit := hwhole d List.mem_cons_self
      have hslash : d = '\\' := by
        have hhead := congrArg List.head? hchars
        rw [spelled, htext, Decimal.numeral] at hhead
        split at hhead <;> exact Option.some.inj hhead
      exact absurd hdigit (by rw [hslash]; decide)
    | letter c =>
      replace hk : c.isAlpha = true := hk
      obtain rfl : c = '\\' := List.head_eq_of_cons_eq hchars
      exact absurd hk (by decide)
    | _ => exact absurd hopen Bool.false_ne_true

/-- No sizing command stands anywhere in what is written. -/
theorem not_sizing_flatMap {ks : List TokenKind} (hks : ∀ k ∈ ks, k.Spellable) {cs : List Char}
    (hcs : cs <:+ ks.flatMap spelled) {command : List Char}
    (h : command ∈ Cleaned.sizingCommands) : ¬ command <+: cs := by
  obtain ⟨hhead, -⟩ := sizing_apart command h
  have hne : command ≠ [] := fun hnil => by simp [hnil] at hhead
  induction ks with
  | nil =>
    rw [List.flatMap_nil, List.suffix_nil] at hcs
    rw [hcs, List.prefix_nil]
    exact hne
  | cons k ks ih =>
    obtain ⟨hk, hrest⟩ := List.forall_mem_cons.1 hks
    obtain ⟨front, hfront⟩ := hcs
    rw [List.flatMap_cons] at hfront
    rcases List.append_eq_append_iff.1 hfront with ⟨tail, hspelled, rfl⟩ | ⟨tail, -, hspelled⟩
    · cases front with
      | nil =>
        obtain rfl : k.spelled = tail := hspelled
        exact not_sizing_spelled hk _ h
      | cons c front =>
        -- The rest of a spelling has no backslash.
        cases tail with
        | nil => exact ih hrest (List.suffix_refl _)
        | cons c' tail =>
          intro hstart
          obtain ⟨d, ds, rfl⟩ := List.exists_cons_of_ne_nil hne
          obtain rfl := Option.some.inj hhead
          obtain ⟨rfl, -⟩ := List.cons_prefix_cons.1 hstart
          refine backslash_not_mem_tail hk ?_
          rw [hspelled]
          simp
    · exact ih hrest ⟨tail, hspelled.symm⟩

end TokenKind

namespace Cleaned

theorem map_char_place (offset : Nat) (cs : List Char) :
    (PlacedChar.place offset cs).map (·.char) = cs := by
  induction cs generalizing offset with
  | nil => rfl
  | cons c cs ih => rw [PlacedChar.place, List.map_cons, ih]

theorem map_char_filter (ps : List PlacedChar) : (ps.filter fun p => !Text.isBlank p.char).map
    (·.char) = (ps.map (·.char)).filter fun c => !Text.isBlank c := by
  rw [List.filter_map]
  rfl

/-- Where no sizing command stands, nothing is dropped. -/
theorem dropSizing_eq_self {ps : List PlacedChar} (h : ∀ cs, cs <:+ ps.map (·.char) →
    ∀ command ∈ sizingCommands, ¬ command <+: cs) : dropSizing 0 ps = ps := by
  induction ps with
  | nil => rfl
  | cons p ps ih =>
    have hlength : sizingLength (p :: ps) = 0 := by
      have hnone : sizingCommands.find? (·.isPrefixOf ((p :: ps).map (·.char))) = none := by
        refine List.find?_eq_none.2 fun command hcommand hstart => ?_
        exact h _ (List.suffix_refl _) command hcommand (List.isPrefixOf_iff_prefix.1 hstart)
      rw [sizingLength, hnone]
    have hrest := ih fun cs hcs => h cs (hcs.trans (List.suffix_cons _ _))
    simp only [dropSizing, hlength, hrest]

/-- Cleaning takes away just the blanks of a text in which no sizing command comes up. -/
theorem text_ofText {cs : List Char} (h : ∀ suffix, suffix <:+ (cs.filter fun c => !Text.isBlank c) →
    ∀ command ∈ sizingCommands, ¬ command <+: suffix) :
    (ofText cs).text = cs.filter fun c => !Text.isBlank c := by
  have hchars : (((PlacedChar.place 0 cs).filter fun p => !Text.isBlank p.char).map (·.char)) =
      cs.filter fun c => !Text.isBlank c := by
    rw [map_char_filter, map_char_place]
  rw [Cleaned.text, ofText, dropSizing_eq_self (by rw [hchars]; exact h), hchars]

end Cleaned

/-- Lexemes that are all tokens give the tokens. -/
theorem exists_tokensOfLexemes (offsets : Array Nat) (offset : Nat) (ks : List TokenKind) :
    ∃ tokens, tokensOfLexemes offsets (placeLexemes offset (ks.map fun k => ⟨some k, k.spelled⟩)) =
      .ok tokens ∧ tokens.map (·.kind) = ks := by
  induction ks generalizing offset with
  | nil => exact ⟨[], rfl, rfl⟩
  | cons k ks ih =>
    obtain ⟨tokens, htokens, hkinds⟩ := ih (offset + Text.byteLength k.spelled)
    refine ⟨⟨k, sourceSpan offsets ⟨offset, offset + Text.byteLength k.spelled⟩⟩ :: tokens, ?_,
      congrArg (k :: ·) hkinds⟩
    rw [List.map_cons, placeLexemes, tokensOfLexemes, htokens]
    rfl

/-- A text of spellings of tokens that are kept apart is cut into these tokens. -/
theorem tokenize_eq_ok {cs : List Char} {ks : List TokenKind}
    (hcs : (cs.filter fun c => !Text.isBlank c) = ks.flatMap TokenKind.spelled)
    (hks : ∀ k ∈ ks, k.Spellable) (h : ks.IsChain fun k k' => k.keepsApart k' = true) :
    ∃ tokens, tokenize cs = .ok tokens ∧ tokens.map (·.kind) = ks := by
  have htext : (Cleaned.ofText cs).text = ks.flatMap TokenKind.spelled := by
    rw [Cleaned.text_ofText, hcs]
    intro suffix hsuffix command hcommand
    rw [hcs] at hsuffix
    exact TokenKind.not_sizing_flatMap hks hsuffix hcommand
  have hlexemes := TokenKind.lexemes_flatMap hks h
  rw [← htext] at hlexemes
  simp only [tokenize, hlexemes]
  exact exists_tokensOfLexemes _ 0 ks

namespace TokenKind

theorem spellings_fixed : ∀ s ∈ spellings, s.2.isOpenEnded = false := by
  decide

/-- One of two matches is the longer one. -/
theorem longer_eq_some {m n : Option (TokenKind × Nat)} {a : TokenKind × Nat} (h : longer m n = some a) :
    m = some a ∨ n = some a := by
  unfold longer at h
  split at h
  · split at h
    · exact .inr h
    · exact .inl h
  · exact .inr h
  · exact .inl h

/-- What a pass over spellings finds is the match so far or one of them. -/
theorem foldl_improve_cases {cs : List Char} {a : TokenKind × Nat} :
    ∀ (ss : List (List Char × TokenKind)) (best : Option (TokenKind × Nat)),
      ss.foldl (improve cs) best = some a →
        best = some a ∨ ∃ s ∈ ss, s.1 <+: cs ∧ a = (s.2, s.1.length) := by
  intro ss
  induction ss with
  | nil => exact fun best h => .inl h
  | cons s ss ih =>
    intro best h
    rcases ih _ h with hnow | ⟨s', hs', hrest⟩
    · unfold improve at hnow
      split at hnow
      · next hstart =>
        rcases longer_eq_some hnow with hbest | hself
        · exact .inl hbest
        · obtain rfl := Option.some.inj hself
          exact .inr ⟨s, List.mem_cons_self, List.isPrefixOf_iff_prefix.1 hstart, rfl⟩
      · exact .inl hnow
    · exact .inr ⟨s', List.mem_cons_of_mem s hs', hrest⟩

/-- Numbers and letters have no fixed spelling. -/
theorem isOpenEnded_of_matchSpelling {cs : List Char} {k : TokenKind} {n : Nat}
    (h : matchSpelling cs = some (k, n)) : k.isOpenEnded = false := by
  rcases foldl_improve_cases spellings none h with hnone | ⟨s, hs, -, heq⟩
  · cases hnone
  · obtain ⟨rfl, -⟩ := Prod.mk.inj heq
    exact spellings_fixed s hs

/-- What is read as a letter is an ASCII letter, and what is read as a number is a numeral. -/
def IsLexed : TokenKind → Prop
  | number x => ∃ whole fraction, x = Decimal.ofDigits whole fraction
  | letter c => c.isAlpha = true
  | _ => True

theorem isLexed_of_isOpenEnded {k : TokenKind} (h : k.isOpenEnded = false) : k.IsLexed := by
  cases k with
  | number x => exact absurd h.symm Bool.false_ne_true
  | letter c => exact absurd h.symm Bool.false_ne_true
  | _ => trivial

theorem isLexed_of_matchNumber {cs : List Char} {k : TokenKind} {n : Nat}
    (h : matchNumber cs = some (k, n)) : k.IsLexed := by
  unfold matchNumber at h
  split at h
  · cases h
  · next whole rest hne hsplit =>
    cases h
    exact ⟨whole, [], rfl⟩
  · next whole fraction rest hne hnotNil hsplit =>
    cases h
    exact ⟨whole, fraction, rfl⟩

theorem isLexed_of_matchLetter {cs : List Char} {k : TokenKind} {n : Nat}
    (h : matchLetter cs = some (k, n)) : k.IsLexed := by
  unfold matchLetter at h
  split at h
  · split at h
    · next halpha =>
      cases h
      exact halpha
    · cases h
  · cases h

theorem isLexed_of_lexemes {cs : List Char} {l : Lexeme} (hl : l ∈ lexemes cs) {k : TokenKind}
    (h : l.kind = some k) : k.IsLexed := by
  fun_induction lexemes cs with
  | case1 => cases hl
  | case2 c' cs kind length hlexeme ih =>
    rcases List.mem_cons.1 hl with rfl | hl
    · rw [Option.some.inj h] at hlexeme
      rcases longer_eq_some hlexeme with hspelling | hother
      · exact isLexed_of_isOpenEnded (isOpenEnded_of_matchSpelling hspelling)
      · rcases longer_eq_some hother with hnumber | hletter
        · exact isLexed_of_matchNumber hnumber
        · exact isLexed_of_matchLetter hletter
    · exact ih hl
  | case3 c' cs hnone ih =>
    rcases List.mem_cons.1 hl with rfl | hl
    · cases h
    · exact ih hl

end TokenKind

/-- The first of some lexemes that can all be read is the first token. -/
theorem tokensOfLexemes_cons_ok {offsets : Array Nat} {offset : Nat} {l : Lexeme} {ls : List Lexeme}
    {tokens : List Token} (h : tokensOfLexemes offsets (placeLexemes offset (l :: ls)) = .ok tokens) :
    ∃ kind rest, l.kind = some kind ∧
      tokens = ⟨kind, sourceSpan offsets ⟨offset, offset + Text.byteLength l.chars⟩⟩ :: rest ∧
      tokensOfLexemes offsets (placeLexemes (offset + Text.byteLength l.chars) ls) = .ok rest := by
  simp only [placeLexemes, tokensOfLexemes] at h
  split at h
  · next kind hkind =>
    cases hrest : tokensOfLexemes offsets (placeLexemes (offset + Text.byteLength l.chars) ls) with
    | error e =>
      rw [hrest] at h
      cases h
    | ok rest =>
      rw [hrest] at h
      cases h
      exact ⟨kind, rest, hkind, rfl, rfl⟩
  · cases h

/-- Tokens come from lexemes of their kind. -/
theorem exists_lexeme {offsets : Array Nat} {offset : Nat} {ls : List Lexeme} {tokens : List Token}
    (h : tokensOfLexemes offsets (placeLexemes offset ls) = .ok tokens) :
    ∀ t ∈ tokens, ∃ l ∈ ls, l.kind = some t.kind := by
  induction ls generalizing offset tokens with
  | nil =>
    cases h
    exact fun t ht => by cases ht
  | cons l ls ih =>
    obtain ⟨kind, rest, hkind, rfl, hrest⟩ := tokensOfLexemes_cons_ok h
    intro t ht
    rcases List.mem_cons.1 ht with rfl | ht
    · exact ⟨l, List.mem_cons_self, hkind⟩
    · obtain ⟨l', hl', hkind'⟩ := ih hrest t ht
      exact ⟨l', List.mem_cons_of_mem _ hl', hkind'⟩

/-- The letters among the tokens of a text are ASCII letters, and the numbers are numerals. -/
theorem isLexed_of_tokenize {cs : List Char} {tokens : List Token} (h : tokenize cs = .ok tokens) :
    ∀ t ∈ tokens, t.kind.IsLexed := by
  intro t ht
  obtain ⟨l, hl, hkind⟩ := exists_lexeme h t ht
  exact TokenKind.isLexed_of_lexemes hl hkind

end ImplicitCurves

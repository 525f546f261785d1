import ImplicitCurves.Proofs.Notation.Lexing

/-!
# Longest lexemes

The reader takes the longest lexeme that a text starts with, of all that are declared: main statement
`TokenKind.longestLexeme_eq_some_iff`.  So what it takes does not depend on how the text goes on, and
lexemes that are put together again are read as before.
-/

namespace ImplicitCurves

namespace TokenKind

/-- The declared lexemes of a kind: fixed spellings, numerals of digits, and letters. -/
inductive IsLexeme : TokenKind → List Char → Prop where
  | spelling {k : TokenKind} {cs : List Char} : (cs, k) ∈ spellings → IsLexeme k cs
  | number {whole fraction : List Char} : whole ≠ [] → (∀ c ∈ whole, Decimal.isDigit c = true) →
    (∀ c ∈ fraction, Decimal.isDigit c = true) →
      IsLexeme (number (Decimal.ofDigits whole fraction)) (Decimal.numeral whole fraction)
  | letter {c : Char} : c.isAlpha = true → IsLexeme (letter c) [c]

/-- The first characters of a text are a lexeme of a kind, and there is no longer one of any kind. -/
structure LongestOf (cs : List Char) (k : TokenKind) (n : Nat) : Prop where
  le : n ≤ cs.length
  lexeme : k.IsLexeme (cs.take n)
  longest : ∀ (k' : TokenKind) (lexeme : List Char), k'.IsLexeme lexeme → lexeme <+: cs →
    lexeme.length ≤ n

/-- No lexeme stands at the start of a text. -/
def NoneOf (cs : List Char) : Prop :=
  ∀ (k : TokenKind) (lexeme : List Char), k.IsLexeme lexeme → ¬ lexeme <+: cs

/-- The first character of a lexeme tells how it is declared. -/
theorem IsLexeme.cases_head {k : TokenKind} {lexeme : List Char} (h : k.IsLexeme lexeme) :
    ∃ c cs, lexeme = c :: cs ∧
      ((Decimal.isDigit c = false ∧ c.isAlpha = false ∧ (lexeme, k) ∈ spellings) ∨
        (Decimal.isDigit c = true ∧ ∃ whole fraction, (∀ d ∈ whole, Decimal.isDigit d = true) ∧
          (∀ d ∈ fraction, Decimal.isDigit d = true) ∧ lexeme = Decimal.numeral whole fraction ∧
            k = .number (Decimal.ofDigits whole fraction)) ∨
        (c.isAlpha = true ∧ cs = [] ∧ k = .letter c)) := by
  cases h with
  | spelling hmem =>
    obtain ⟨c, cs, hchars, hdigit, halpha⟩ := spellings_head _ hmem
    exact ⟨c, cs, hchars, .inl ⟨hdigit, halpha, hmem⟩⟩
  | @number whole fraction hne hwhole hfraction =>
    cases whole with
    | nil => exact absurd rfl hne
    | cons c whole =>
      have hdigit := hwhole c List.mem_cons_self
      have hhead : ∃ cs, Decimal.numeral (c :: whole) fraction = c :: cs := by
        unfold Decimal.numeral
        split <;> exact ⟨_, rfl⟩
      obtain ⟨cs, hcs⟩ := hhead
      exact ⟨c, cs, hcs, .inr (.inl ⟨hdigit, _, _, hwhole, hfraction, rfl, rfl⟩)⟩
  | @letter c halpha => exact ⟨c, [], rfl, .inr (.inr ⟨halpha, rfl, rfl⟩)⟩

/-- The first character of a text tells how a lexeme is declared that stands there. -/
theorem IsLexeme.cases_of_prefix {k : TokenKind} {lexeme cs : List Char} {c : Char}
    (h : k.IsLexeme lexeme) (hbegin : lexeme <+: c :: cs) :
    (Decimal.isDigit c = false ∧ c.isAlpha = false ∧ (lexeme, k) ∈ spellings) ∨
      (Decimal.isDigit c = true ∧ ∃ whole fraction, (∀ d ∈ whole, Decimal.isDigit d = true) ∧
        (∀ d ∈ fraction, Decimal.isDigit d = true) ∧ lexeme = Decimal.numeral whole fraction) ∨
      (c.isAlpha = true ∧ lexeme = [c]) := by
  obtain ⟨d, ds, hcons, hcases⟩ := h.cases_head
  obtain ⟨rfl, -⟩ := List.cons_prefix_cons.1 (hcons ▸ hbegin)
  rcases hcases with hspelling | ⟨hdigit, w, f, hw, hf, hnumeral, -⟩ | ⟨halpha, rfl, -⟩
  · exact .inl hspelling
  · exact .inr (.inl ⟨hdigit, w, f, hw, hf, hnumeral⟩)
  · exact .inr (.inr ⟨halpha, hcons⟩)

theorem IsLexeme.ne_nil {k : TokenKind} {lexeme : List Char} (h : k.IsLexeme lexeme) :
    lexeme ≠ [] := by
  obtain ⟨c, cs, rfl, -⟩ := h.cases_head
  exact List.cons_ne_nil c cs

theorem spellings_unique : ∀ s ∈ spellings, ∀ s' ∈ spellings, s.1 = s'.1 → s.2 = s'.2 := by
  decide

/-- A text is a lexeme of one kind only. -/
theorem IsLexeme.unique {k k' : TokenKind} {lexeme : List Char} (h : k.IsLexeme lexeme)
    (h' : k'.IsLexeme lexeme) : k = k' := by
  obtain ⟨c, cs, rfl, hcases⟩ := h.cases_head
  obtain ⟨c', cs', heq, hcases'⟩ := h'.cases_head
  obtain ⟨rfl, rfl⟩ := List.cons.inj heq
  have hapart : c.isAlpha = true → Decimal.isDigit c = false := isDigit_of_isAlpha
  rcases hcases with ⟨hdigit, halpha, hmem⟩ | ⟨hdigit, w, f, hw, hf, hchars, rfl⟩ | ⟨halpha, -, rfl⟩
  · rcases hcases' with ⟨-, -, hmem'⟩ | ⟨hdigit', -⟩ | ⟨halpha', -⟩
    · exact spellings_unique _ hmem _ hmem' rfl
    · simp [hdigit] at hdigit'
    · simp [halpha] at halpha'
  · rcases hcases' with ⟨hdigit', -⟩ | ⟨-, w', f', hw', hf', hchars', rfl⟩ | ⟨halpha', -⟩
    · simp [hdigit] at hdigit'
    · -- A numeral has one decomposition.
      have hnothing : ∀ d : Char, ([] : List Char).head? = some d →
          Decimal.isDigit d = false ∧ d ≠ '.' := fun d hd => by cases hd
      have hsplit := Decimal.splitPlain_numeral hw hf hnothing
      rw [List.append_nil, ← hchars, hchars', ← List.append_nil (Decimal.numeral w' f'),
        Decimal.splitPlain_numeral hw' hf' hnothing] at hsplit
      obtain ⟨rfl, hrest⟩ := Prod.mk.inj hsplit
      obtain ⟨rfl, -⟩ := Prod.mk.inj hrest
      rfl
    · simp [hapart halpha'] at hdigit
  · rcases hcases' with ⟨-, halpha', -⟩ | ⟨hdigit', -⟩ | ⟨-, -, rfl⟩
    · simp [halpha] at halpha'
    · simp [hapart halpha] at hdigit'
    · rfl

/-! ### The longest match -/

/-- The length of a match, zero if there is none. -/
def matchLength (found : Option (TokenKind × Nat)) : Nat :=
  (found.map (·.2)).getD 0

theorem le_matchLength_longer (m n : Option (TokenKind × Nat)) :
    matchLength m ≤ matchLength (longer m n) ∧ matchLength n ≤ matchLength (longer m n) := by
  cases m with
  | none => exact ⟨Nat.zero_le _, Nat.le_refl _⟩
  | some a =>
    cases n with
    | none => exact ⟨Nat.le_refl _, Nat.zero_le _⟩
    | some b =>
      unfold longer
      by_cases hlt : a.2 < b.2
      · simp only [hlt, if_true, matchLength, Option.map_some, Option.getD_some]
        omega
      · simp only [hlt, if_false, matchLength, Option.map_some, Option.getD_some]
        omega

/-- What a pass over spellings finds is not shorter than the match so far, or than any of them that the
text starts with. -/
theorem le_foldl_improve (cs : List Char) :
    ∀ (ss : List (List Char × TokenKind)) (best : Option (TokenKind × Nat)),
      matchLength best ≤ matchLength (ss.foldl (improve cs) best) ∧
        ∀ s ∈ ss, s.1 <+: cs → s.1.length ≤ matchLength (ss.foldl (improve cs) best) := by
  intro ss
  induction ss with
  | nil => exact fun best => ⟨Nat.le_refl _, fun s hs => by cases hs⟩
  | cons s ss ih =>
    intro best
    obtain ⟨hstep, hrest⟩ := ih (improve cs best s)
    have hlonger := le_matchLength_longer best (some (s.2, s.1.length))
    constructor
    · refine Nat.le_trans ?_ hstep
      unfold improve
      split
      · exact hlonger.1
      · exact Nat.le_refl _
    · intro s' hs' hbegin
      rcases List.mem_cons.1 hs' with rfl | hs'
      · refine Nat.le_trans ?_ hstep
        rw [improve, if_pos (List.isPrefixOf_iff_prefix.2 hbegin)]
        exact hlonger.2
      · exact hrest s' hs' hbegin

/-- Neither a digit nor a letter: only a spelling can start here. -/
theorem longestLexeme_of_neither {c : Char} (hdigit : Decimal.isDigit c = false)
    (halpha : c.isAlpha = false) (cs : List Char) :
    longestLexeme (c :: cs) = matchSpelling (c :: cs) := by
  have hletter : matchLetter (c :: cs) = none := by simp [matchLetter, halpha]
  rw [longestLexeme, matchNumber_of_head hdigit, hletter]
  cases matchSpelling (c :: cs) <;> rfl

/-- At a digit only a numeral can start. -/
theorem longestLexeme_of_digit {c : Char} (hdigit : Decimal.isDigit c = true) (cs : List Char) :
    longestLexeme (c :: cs) = matchNumber (c :: cs) := by
  have halpha : c.isAlpha = false := by
    rw [← Bool.not_eq_true]
    intro halpha
    simp [isDigit_of_isAlpha halpha] at hdigit
  have hletter : matchLetter (c :: cs) = none := by simp [matchLetter, halpha]
  rw [longestLexeme, matchSpelling_of_head (.inl hdigit), hletter]
  cases matchNumber (c :: cs) <;> rfl

theorem splitPlain_fst (cs : List Char) :
    (Decimal.splitPlain cs).1 = cs.takeWhile Decimal.isDigit := by
  unfold Decimal.splitPlain
  split
  · split <;> rfl
  · rfl

/-- No numeral that a text starts with is longer than the one that is split off. -/
theorem length_numeral_le {w f cs : List Char} (hw : ∀ c ∈ w, Decimal.isDigit c = true)
    (hf : ∀ c ∈ f, Decimal.isDigit c = true) (hbegin : Decimal.numeral w f <+: cs) :
    (Decimal.numeral w f).length ≤
      (Decimal.numeral (Decimal.splitPlain cs).1 (Decimal.splitPlain cs).2.1).length := by
  obtain ⟨rest, rfl⟩ := hbegin
  by_cases hnone : f = []
  · have hwhole : (Decimal.splitPlain (Decimal.numeral w f ++ rest)).1 =
        w ++ rest.takeWhile Decimal.isDigit := by
      rw [splitPlain_fst, Decimal.numeral, if_pos hnone, List.takeWhile_append_of_pos hw]
    rw [Decimal.length_numeral, Decimal.length_numeral, hwhole, if_pos hnone, List.length_append]
    split <;> omega
  · have hpoint : ∀ c, ('.' :: (f ++ rest)).head? = some c → Decimal.isDigit c = false := by
      intro c hc
      obtain rfl := Option.some.inj hc
      rfl
    obtain ⟨htake, hdrop⟩ := takeWhile_append_of_head hw hpoint
    have hsplit : Decimal.splitPlain (w ++ '.' :: (f ++ rest)) =
        (w, f ++ rest.takeWhile Decimal.isDigit, rest.dropWhile Decimal.isDigit) := by
      unfold Decimal.splitPlain
      rw [htake, hdrop]
      simp only [List.takeWhile_append_of_pos hf, List.dropWhile_append_of_pos hf]
      split
      · next hempty => exact absurd (List.append_eq_nil_iff.1 hempty).1 hnone
      · rfl
    have hnumeral : Decimal.numeral w f ++ rest = w ++ '.' :: (f ++ rest) := by
      rw [Decimal.numeral, if_neg hnone, List.append_assoc, List.cons_append]
    rw [hnumeral, hsplit, Decimal.length_numeral, Decimal.length_numeral, if_neg hnone, if_neg]
    · dsimp only
      rw [List.length_append]
      omega
    · exact fun hempty => hnone (List.append_eq_nil_iff.1 hempty).1

/-- The numeral that is split off is what is read as a number, unless there are no digits. -/
theorem matchNumber_eq (cs : List Char) : matchNumber cs =
    if (Decimal.splitPlain cs).1 = [] then none
    else some (number (Decimal.ofDigits (Decimal.splitPlain cs).1 (Decimal.splitPlain cs).2.1),
      (Decimal.numeral (Decimal.splitPlain cs).1 (Decimal.splitPlain cs).2.1).length) := by
  rw [Decimal.length_numeral]
  unfold matchNumber
  split
  · next hsplit => rw [hsplit, if_pos rfl]
  · next hne hsplit => rw [hsplit, if_neg hne, if_pos rfl]
  · next hne hfraction hsplit => rw [hsplit, if_neg hne, if_neg hfraction]

theorem longestOf_matchNumber {c : Char} (hdigit : Decimal.isDigit c = true) (cs : List Char) :
    ∃ k n, matchNumber (c :: cs) = some (k, n) ∧ LongestOf (c :: cs) k n := by
  obtain ⟨hwhole, hfraction, hchars⟩ := Decimal.splitPlain_spec (c :: cs)
  have hne : (Decimal.splitPlain (c :: cs)).1 ≠ [] := by
    rw [splitPlain_fst, List.takeWhile_cons, if_pos hdigit]
    exact List.cons_ne_nil _ _
  refine ⟨_, _, (matchNumber_eq _).trans (if_neg hne), ?_, ?_, ?_⟩
  · rw [congrArg List.length hchars, List.length_append]
    exact Nat.le_add_right _ _
  · have htake := congrArg (List.take (Decimal.numeral (Decimal.splitPlain (c :: cs)).1
      (Decimal.splitPlain (c :: cs)).2.1).length) hchars
    rw [List.take_left] at htake
    rw [htake]
    exact .number hne hwhole hfraction
  · intro k lexeme hlexeme hbegin
    rcases hlexeme.cases_of_prefix hbegin with ⟨hnot, -⟩ | ⟨-, w, f, hw, hf, hnumeral⟩ | ⟨halpha, -⟩
    · simp [hdigit] at hnot
    · rw [hnumeral] at hbegin ⊢
      exact length_numeral_le hw hf hbegin
    · simp [isDigit_of_isAlpha halpha] at hdigit

theorem longestOf_letter {c : Char} (halpha : c.isAlpha = true) (cs : List Char) :
    LongestOf (c :: cs) (letter c) 1 where
  le := Nat.succ_le_succ (Nat.zero_le _)
  lexeme := .letter halpha
  longest := by
    intro k lexeme hlexeme hbegin
    rcases hlexeme.cases_of_prefix hbegin with ⟨-, hnot, -⟩ | ⟨hdigit, -⟩ | ⟨-, rfl⟩
    · simp [halpha] at hnot
    · simp [isDigit_of_isAlpha halpha] at hdigit
    · exact Nat.le_refl 1

theorem longestOf_matchSpelling {c : Char} (hdigit : Decimal.isDigit c = false)
    (halpha : c.isAlpha = false) (cs : List Char) :
    (∀ k n, matchSpelling (c :: cs) = some (k, n) → LongestOf (c :: cs) k n) ∧
      (matchSpelling (c :: cs) = none → NoneOf (c :: cs)) := by
  have hspelled : ∀ k lexeme, IsLexeme k lexeme → lexeme <+: c :: cs →
      lexeme ≠ [] ∧ lexeme.length ≤ matchLength (matchSpelling (c :: cs)) := by
    intro k lexeme hlexeme hbegin
    refine ⟨hlexeme.ne_nil, ?_⟩
    rcases hlexeme.cases_of_prefix hbegin with ⟨-, -, hmem⟩ | ⟨hnot, -⟩ | ⟨hnot, -⟩
    · exact (le_foldl_improve (c :: cs) spellings none).2 _ hmem hbegin
    · simp [hdigit] at hnot
    · simp [halpha] at hnot
  constructor
  · intro k n hfound
    rw [hfound] at hspelled
    rcases foldl_improve_cases spellings none hfound with hnone | ⟨s, hs, hbegin, heq⟩
    · cases hnone
    · obtain ⟨rfl, rfl⟩ := Prod.mk.inj heq
      refine ⟨hbegin.length_le, ?_, fun k lexeme hlexeme hstart => (hspelled k lexeme hlexeme hstart).2⟩
      rw [← List.prefix_iff_eq_take.1 hbegin]
      exact .spelling hs
  · intro hnone k lexeme hlexeme hbegin
    rw [hnone] at hspelled
    obtain ⟨hne, hlength⟩ := hspelled k lexeme hlexeme hbegin
    exact hne (List.length_eq_zero_iff.1 (Nat.le_zero.1 hlength))

/-- What is read at the start of a text is the longest lexeme there, and where nothing is read, there is
none. -/
theorem longestLexeme_spec (cs : List Char) :
    (∀ k n, longestLexeme cs = some (k, n) → LongestOf cs k n) ∧
      (longestLexeme cs = none → NoneOf cs) := by
  cases cs with
  | nil =>
    refine ⟨fun k n h => (by cases h), fun _ k lexeme hlexeme hbegin => ?_⟩
    exact hlexeme.ne_nil (List.prefix_nil.1 hbegin)
  | cons c cs =>
    by_cases hdigit : Decimal.isDigit c = true
    · obtain ⟨k, n, hnumber, hlongest⟩ := longestOf_matchNumber hdigit cs
      rw [longestLexeme_of_digit hdigit, hnumber]
      refine ⟨fun k' n' h => ?_, fun h => by cases h⟩
      obtain ⟨rfl, rfl⟩ := Prod.mk.inj (Option.some.inj h)
      exact hlongest
    · by_cases halpha : c.isAlpha = true
      · rw [longestLexeme_letter halpha]
        refine ⟨fun k n h => ?_, fun h => by cases h⟩
        obtain ⟨rfl, rfl⟩ := Prod.mk.inj (Option.some.inj h)
        exact longestOf_letter halpha cs
      · rw [Bool.not_eq_true] at hdigit halpha
        rw [longestLexeme_of_neither hdigit halpha]
        exact longestOf_matchSpelling hdigit halpha cs

theorem LongestOf.unique {cs : List Char} {k k' : TokenKind} {n n' : Nat} (h : LongestOf cs k n)
    (h' : LongestOf cs k' n') : k = k' ∧ n = n' := by
  have hle : ∀ {k k' n n'}, LongestOf cs k n → LongestOf cs k' n' → n ≤ n' := by
    intro k k' n n' h h'
    have hlength := h'.longest k _ h.lexeme (List.take_prefix n cs)
    rwa [List.length_take, Nat.min_eq_left h.le] at hlength
  obtain rfl := Nat.le_antisymm (hle h h') (hle h' h)
  exact ⟨h.lexeme.unique h'.lexeme, rfl⟩

/-- The longest lexeme that a text starts with is what is read there. -/
theorem longestLexeme_eq_some_iff {cs : List Char} {k : TokenKind} {n : Nat} :
    longestLexeme cs = some (k, n) ↔ LongestOf cs k n := by
  obtain ⟨hfound, hnone⟩ := longestLexeme_spec cs
  constructor
  · exact hfound k n
  · intro h
    cases hread : longestLexeme cs with
    | none => exact absurd (List.take_prefix n cs) (hnone hread k _ h.lexeme)
    | some a =>
      obtain ⟨rfl, rfl⟩ := (hfound a.1 a.2 hread).unique h
      rfl

/-- Nothing is read at the start of a text just if there is no lexeme. -/
theorem longestLexeme_eq_none_iff {cs : List Char} : longestLexeme cs = none ↔ NoneOf cs := by
  obtain ⟨hfound, hnone⟩ := longestLexeme_spec cs
  refine ⟨hnone, fun h => ?_⟩
  cases hread : longestLexeme cs with
  | none => rfl
  | some a =>
    exact absurd (List.take_prefix a.2 cs) (h a.1 _ (hfound a.1 a.2 hread).lexeme)

/-- The longest lexeme of a text is also that of a beginning of the text that it fits into. -/
theorem LongestOf.of_append {cs rest : List Char} {k : TokenKind} {n : Nat}
    (h : LongestOf (cs ++ rest) k n) (hn : n ≤ cs.length) : LongestOf cs k n where
  le := hn
  lexeme := by
    have hlexeme := h.lexeme
    rwa [List.take_append_of_le_length hn] at hlexeme
  longest k' lexeme hlexeme hbegin :=
    h.longest k' lexeme hlexeme (hbegin.trans (List.prefix_append cs rest))

theorem IsLexeme.longestOf {k : TokenKind} {lexeme : List Char} (h : k.IsLexeme lexeme) :
    LongestOf lexeme k lexeme.length where
  le := Nat.le_refl _
  lexeme := by rwa [List.take_length]
  longest _ _ _ hbegin := hbegin.length_le

end TokenKind

open TokenKind

/-! ### Lexemes of a text -/

/-- A text starts with its longest lexeme. -/
theorem lexemes_of_longestOf {cs : List Char} {k : TokenKind} {n : Nat} (h : LongestOf cs k n) :
    lexemes cs = ⟨some k, cs.take n⟩ :: lexemes (cs.drop n) := by
  have hpos : n ≠ 0 := by
    rintro rfl
    exact h.lexeme.ne_nil List.take_zero
  obtain ⟨m, rfl⟩ := Nat.exists_eq_succ_of_ne_zero hpos
  cases cs with
  | nil => exact absurd h.le (Nat.not_succ_le_zero m)
  | cons c cs =>
    rw [lexemes, longestLexeme_eq_some_iff.2 h]
    rfl

theorem lexemes_of_noneOf {c : Char} {cs : List Char} (h : NoneOf (c :: cs)) :
    lexemes (c :: cs) = ⟨none, [c]⟩ :: lexemes cs := by
  rw [lexemes, longestLexeme_eq_none_iff.2 h]

/-- A lexeme is read as itself. -/
theorem lexemes_of_isLexeme {k : TokenKind} {lexeme : List Char} (h : k.IsLexeme lexeme) :
    lexemes lexeme = [⟨some k, lexeme⟩] := by
  rw [lexemes_of_longestOf h.longestOf, List.take_length, List.drop_length, lexemes]

/-- What is read at the start of a text is its longest lexeme, or a character where there is none. -/
theorem lexemes_eq_cons {cs : List Char} {l : Lexeme} {ls : List Lexeme} (h : lexemes cs = l :: ls) :
    (∃ k n, LongestOf cs k n ∧ l = ⟨some k, cs.take n⟩ ∧ ls = lexemes (cs.drop n)) ∨
      ∃ c rest, cs = c :: rest ∧ NoneOf cs ∧ l = ⟨none, [c]⟩ ∧ ls = lexemes rest := by
  cases cs with
  | nil => rw [lexemes] at h; cases h
  | cons c cs =>
    cases hread : longestLexeme (c :: cs) with
    | some a =>
      have hlongest := longestLexeme_eq_some_iff.1 hread
      rw [lexemes_of_longestOf hlongest] at h
      obtain ⟨rfl, rfl⟩ := List.cons.inj h
      exact .inl ⟨a.1, a.2, hlongest, rfl, rfl⟩
    | none =>
      have hnone := longestLexeme_eq_none_iff.1 hread
      rw [lexemes_of_noneOf hnone] at h
      obtain ⟨rfl, rfl⟩ := List.cons.inj h
      exact .inr ⟨c, cs, rfl, hnone, rfl, rfl⟩

/-- Lexemes make up the text. -/
theorem flatMap_lexemes {cs : List Char} {ls : List Lexeme} (h : lexemes cs = ls) :
    ls.flatMap (·.chars) = cs := by
  induction ls generalizing cs with
  | nil =>
    cases cs with
    | nil => rfl
    | cons c cs =>
      rw [lexemes] at h
      split at h <;> cases h
  | cons l ls ih =>
    rw [List.flatMap_cons]
    rcases lexemes_eq_cons h with ⟨k, n, -, rfl, hrest⟩ | ⟨c, rest, rfl, -, rfl, hrest⟩
    · rw [ih hrest.symm, List.take_append_drop]
    · rw [ih hrest.symm]
      rfl

/-- The lexemes of a text up to a place in front of which all are tokens, and those behind it: each part
is read for itself as it is read in the text. -/
theorem lexemes_of_append {cs : List Char} {ls ls' : List Lexeme} (h : lexemes cs = ls ++ ls')
    (hall : ∀ l ∈ ls, l.kind.isSome = true) :
    lexemes (ls.flatMap (·.chars)) = ls ∧ lexemes (ls'.flatMap (·.chars)) = ls' := by
  induction ls generalizing cs with
  | nil =>
    rw [List.nil_append] at h
    rw [flatMap_lexemes h, List.flatMap_nil, lexemes]
    exact ⟨rfl, h⟩
  | cons l ls ih =>
    obtain ⟨hl, hrest⟩ := List.forall_mem_cons.1 hall
    rcases lexemes_eq_cons h with ⟨k, n, hlongest, rfl, hread⟩ | ⟨c, rest, -, -, rfl, -⟩
    · obtain ⟨hfront, hback⟩ := ih hread.symm hrest
      refine ⟨?_, hback⟩
      -- the text in front of the place, and what is behind it
      have hdrop : (ls ++ ls').flatMap (·.chars) = cs.drop n := flatMap_lexemes hread.symm
      rw [List.flatMap_append] at hdrop
      have htext : cs = (cs.take n ++ ls.flatMap (·.chars)) ++ ls'.flatMap (·.chars) := by
        rw [List.append_assoc, hdrop, List.take_append_drop]
      have hlength : (cs.take n).length = n := List.length_take_of_le hlongest.le
      rw [htext] at hlongest
      have hshort := hlongest.of_append (by rw [List.length_append, hlength]; omega)
      rw [List.flatMap_cons, lexemes_of_longestOf hshort, List.take_left' hlength,
        List.drop_left' hlength, hfront]
    · cases hl

/-- A lexeme of a text with a kind is declared. -/
theorem isLexeme_of_mem_lexemes {cs : List Char} {l : Lexeme} {k : TokenKind} (h : l ∈ lexemes cs)
    (hk : l.kind = some k) : k.IsLexeme l.chars := by
  obtain ⟨ls, hls⟩ : ∃ ls, lexemes cs = ls := ⟨_, rfl⟩
  rw [hls] at h
  induction ls generalizing cs with
  | nil => cases h
  | cons l' ls ih =>
    rcases lexemes_eq_cons hls with ⟨k', n, hlongest, rfl, hrest⟩ | ⟨c, rest, -, -, rfl, hrest⟩
    · rcases List.mem_cons.1 h with rfl | hmem
      · obtain rfl := Option.some.inj hk
        exact hlongest.lexeme
      · exact ih hmem hrest.symm
    · rcases List.mem_cons.1 h with rfl | hmem
      · cases hk
      · exact ih hmem hrest.symm

end ImplicitCurves

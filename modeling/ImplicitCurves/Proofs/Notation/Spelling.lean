import ImplicitCurves.Token.Lexer
import Mathlib.Data.List.Basic

/-!
# Spellings of tokens

A text that is put together from spellings of tokens is cut into these tokens again, as long as no
number stands in front of a number and no function in front of a caret: main statement
`TokenKind.lexemes_spelled`.
-/

namespace ImplicitCurves

namespace TokenKind

/-- The way a token is written in the text of a tree. -/
def spelled : TokenKind → List Char
  | add => ['+']
  | sub => ['-']
  | mul => "\\cdot".toList
  | div => ['/']
  | caret => ['^']
  | number x => Decimal.text x
  | openParen => ['(']
  | closeParen => [')']
  | openCurly => ['{']
  | closeCurly => ['}']
  | frac => "\\frac".toList
  | function f => f.command
  | logBase => "\\log_".toList
  | pi => "\\pi".toList
  | comma => [',']
  | assign => ['=']
  | letter c => [c]

/-- The token is a number or a letter, which have no fixed spelling. -/
def isOpenEnded : TokenKind → Bool
  | number _ | letter _ => true
  | _ => false

theorem mem_spellings {k : TokenKind} (h : k.isOpenEnded = false) : (k.spelled, k) ∈ spellings := by
  cases k with
  | function f => cases f <;> decide
  | number x => exact absurd h (by simp [isOpenEnded])
  | letter c => exact absurd h (by simp [isOpenEnded])
  | _ => decide

/-- What one more spelling does to the longest match so far. -/
def improve (cs : List Char) (best : Option (TokenKind × Nat)) (s : List Char × TokenKind) :
    Option (TokenKind × Nat) :=
  if s.1.isPrefixOf cs then longer best (some (s.2, s.1.length)) else best

theorem matchSpelling_eq_foldl (cs : List Char) :
    matchSpelling cs = spellings.foldl (improve cs) none := by
  rfl

theorem foldl_improve_of_not_prefix {cs : List Char} {ss : List (List Char × TokenKind)}
    (h : ∀ s ∈ ss, ¬ s.1 <+: cs) (best : Option (TokenKind × Nat)) :
    ss.foldl (improve cs) best = best := by
  induction ss generalizing best with
  | nil => rfl
  | cons s ss ih =>
    have hs : s.1.isPrefixOf cs = false := by
      rw [← Bool.not_eq_true, List.isPrefixOf_iff_prefix]
      exact h s List.mem_cons_self
    rw [List.foldl_cons, improve, hs]
    exact ih (fun s' hs' => h s' (List.mem_cons_of_mem _ hs')) best

section Longest

variable {cs spelling : List Char} {k : TokenKind} {s : List Char × TokenKind}
  {ss : List (List Char × TokenKind)} {best : Option (TokenKind × Nat)}

/-- A spelling that the text starts with takes the place of a shorter one. -/
theorem improve_spelling (hstart : spelling <+: cs)
    (hbest : ∀ b, best = some b → b = (k, spelling.length) ∨ b.2 < spelling.length) :
    improve cs best (spelling, k) = some (k, spelling.length) := by
  rw [improve, if_pos (List.isPrefixOf_iff_prefix.2 hstart)]
  cases best with
  | none => rfl
  | some b =>
    rcases hbest b rfl with rfl | hlt
    · simp [longer]
    · simp only [longer]
      rw [if_pos hlt]

/-- A spelling does not take the place of a longer one. -/
theorem improve_shorter (hs : s.1 <+: cs → s.1.length < spelling.length)
    (hbest : ∀ b, best = some b → b = (k, spelling.length) ∨ b.2 < spelling.length) :
    ∀ b, improve cs best s = some b → b = (k, spelling.length) ∨ b.2 < spelling.length := by
  intro b hb
  unfold improve at hb
  split at hb
  · next hstart =>
    have hlt := hs (List.isPrefixOf_iff_prefix.1 hstart)
    cases best with
    | none =>
      obtain rfl := Option.some.inj hb
      exact .inr hlt
    | some b' =>
      simp only [longer] at hb
      split at hb
      · obtain rfl := Option.some.inj hb
        exact .inr hlt
      · obtain rfl := Option.some.inj hb
        exact hbest b' rfl
  · exact hbest b hb

/-- The longest spelling is kept. -/
theorem foldl_improve_longest
    (hlongest : ∀ s ∈ ss, s.1 <+: cs → s = (spelling, k) ∨ s.1.length < spelling.length) :
    ss.foldl (improve cs) (some (k, spelling.length)) = some (k, spelling.length) := by
  induction ss with
  | nil => rfl
  | cons s ss ih =>
    have hstep : improve cs (some (k, spelling.length)) s = some (k, spelling.length) := by
      unfold improve
      split
      · next hs =>
        rcases hlongest s List.mem_cons_self (List.isPrefixOf_iff_prefix.1 hs) with rfl | hlt
        · simp [longer]
        · simp only [longer]
          rw [if_neg (by omega)]
      · rfl
    rw [List.foldl_cons, hstep]
    exact ih fun s' hs' => hlongest s' (List.mem_cons_of_mem _ hs')

/-- The longest of several spellings that a text starts with is found, wherever it stands among
them. -/
theorem foldl_improve (hmem : (spelling, k) ∈ ss) (hstart : spelling <+: cs)
    (hlongest : ∀ s ∈ ss, s.1 <+: cs → s = (spelling, k) ∨ s.1.length < spelling.length)
    (hbest : ∀ b, best = some b → b = (k, spelling.length) ∨ b.2 < spelling.length) :
    ss.foldl (improve cs) best = some (k, spelling.length) := by
  induction ss generalizing best with
  | nil => exact absurd hmem List.not_mem_nil
  | cons s ss ih =>
    obtain ⟨hs, hrest⟩ := List.forall_mem_cons.1 hlongest
    rw [List.foldl_cons]
    by_cases heq : s = (spelling, k)
    · rw [heq, improve_spelling hstart hbest]
      exact foldl_improve_longest hrest
    · have hmem' : (spelling, k) ∈ ss := List.mem_of_ne_of_mem (Ne.symm heq) hmem
      exact ih hmem' hrest (improve_shorter (fun h => (hs h).resolve_left heq) hbest)

end Longest

/-- The token is a function of one argument. -/
def isFunction : TokenKind → Bool
  | function _ => true
  | _ => false

/-- A spelling that goes on after one that trees are written with is that of an inverse function. -/
theorem spellings_apart : ∀ s ∈ spellings, s.1 = s.2.spelled → ∀ s' ∈ spellings, s.1 <+: s'.1 →
    s' = s ∨ s.2.isFunction = true ∧ s'.1[s.1.length]? = some '^' := by
  decide

/-- What may follow a token in a text so that the token is read as it is written. -/
def FollowedBy (k : TokenKind) (rest : List Char) : Prop :=
  match k with
  | number _ => ∀ c, rest.head? = some c → Decimal.isDigit c = false ∧ c ≠ '.'
  | function _ => rest.head? ≠ some '^'
  | _ => True

theorem matchSpelling_spelled {k : TokenKind} (hk : k.isOpenEnded = false) {rest : List Char}
    (h : k.FollowedBy rest) : matchSpelling (k.spelled ++ rest) = some (k, k.spelled.length) := by
  rw [matchSpelling_eq_foldl]
  refine foldl_improve (mem_spellings hk) (List.prefix_append _ _) (fun s hs hstart => ?_)
    (fun b hb => absurd hb.symm (Option.some_ne_none b))
  by_cases hlt : s.1.length < k.spelled.length
  · exact .inr hlt
  · have hlonger : k.spelled <+: s.1 :=
      List.prefix_of_prefix_length_le (List.prefix_append _ _) hstart (Nat.le_of_not_lt hlt)
    rcases spellings_apart _ (mem_spellings hk) rfl s hs hlonger with heq | ⟨hfunction, hcaret⟩
    · exact .inl heq
    · -- The text would have to go on with a caret.
      exfalso
      obtain ⟨tail, htail⟩ := hstart
      have hnext : (k.spelled ++ rest)[k.spelled.length]? = some '^' := by
        rw [← htail, List.getElem?_append_left (List.getElem?_eq_some_iff.1 hcaret).1, hcaret]
      rw [List.getElem?_append_right (Nat.le_refl _), Nat.sub_self, ← List.head?_eq_getElem?] at hnext
      cases k with
      | function f => exact h hnext
      | _ => exact absurd hfunction Bool.false_ne_true

/-- No spelling starts with a digit or a letter. -/
theorem spellings_head : ∀ s ∈ spellings, ∃ c cs, s.1 = c :: cs ∧ Decimal.isDigit c = false ∧
    c.isAlpha = false := by
  intro s hs
  have hhead : ∀ s ∈ spellings, (s.1.head?.map fun c => Decimal.isDigit c || c.isAlpha) = some false := by
    decide
  have hs := hhead s hs
  cases hchars : s.1 with
  | nil => simp [hchars] at hs
  | cons c cs =>
    rw [hchars] at hs
    obtain ⟨hdigit, halpha⟩ := Bool.or_eq_false_iff.1 (Option.some.inj hs)
    exact ⟨c, cs, rfl, hdigit, halpha⟩

theorem matchSpelling_of_head {c : Char} (h : Decimal.isDigit c = true ∨ c.isAlpha = true)
    (cs : List Char) : matchSpelling (c :: cs) = none := by
  rw [matchSpelling_eq_foldl]
  refine foldl_improve_of_not_prefix (fun s hs hstart => ?_) none
  obtain ⟨c', cs', hchars, hdigit, halpha⟩ := spellings_head s hs
  rw [hchars, List.cons_prefix_cons] at hstart
  obtain ⟨rfl, -⟩ := hstart
  rcases h with h | h
  · exact Bool.false_ne_true (hdigit ▸ h)
  · exact Bool.false_ne_true (halpha ▸ h)

theorem matchNumber_of_head {c : Char} (h : Decimal.isDigit c = false) (cs : List Char) :
    matchNumber (c :: cs) = none := by
  have hwhole : (Decimal.splitPlain (c :: cs)).1 = [] := by
    have htake : (c :: cs).takeWhile Decimal.isDigit = [] := by
      rw [List.takeWhile_cons, h]
      rfl
    unfold Decimal.splitPlain
    rw [htake]
    split
    · split <;> rfl
    · rfl
  unfold matchNumber
  split
  · rfl
  · next heq => rw [heq] at hwhole; exact absurd hwhole (by assumption)
  · next heq => rw [heq] at hwhole; exact absurd hwhole (by assumption)

/-- The code points of letters. -/
theorem toNat_of_isAlpha {c : Char} (h : c.isAlpha = true) :
    65 ≤ c.toNat ∧ c.toNat ≤ 90 ∨ 97 ≤ c.toNat ∧ c.toNat ≤ 122 := by
  have hcase : (c.isUpper || c.isLower) = true := h
  rcases Bool.or_eq_true_iff.1 hcase with hupper | hlower
  · have hbounds : 65 ≤ c.val ∧ c.val ≤ 90 := of_decide_eq_true hupper
    exact .inl hbounds
  · obtain ⟨hleast, hgreatest⟩ := Bool.and_eq_true_iff.1 hlower
    have hbounds : 97 ≤ c.val ∧ c.val ≤ 122 :=
      ⟨of_decide_eq_true hleast, of_decide_eq_true hgreatest⟩
    exact .inr hbounds

theorem isDigit_of_isAlpha {c : Char} (h : c.isAlpha = true) : Decimal.isDigit c = false := by
  have hletter := toNat_of_isAlpha h
  simp only [Decimal.isDigit, Bool.and_eq_false_iff, decide_eq_false_iff_not, Char.le_def,
    UInt32.le_iff_toNat_le]
  right
  intro hle
  have hnine : '9'.val.toNat = 57 := rfl
  have hvalue : c.toNat = c.val.toNat := rfl
  omega

theorem longestLexeme_spelled {k : TokenKind} (hk : k.isOpenEnded = false) {rest : List Char}
    (h : k.FollowedBy rest) : longestLexeme (k.spelled ++ rest) = some (k, k.spelled.length) := by
  obtain ⟨c, cs, hchars, hdigit, halpha⟩ := spellings_head _ (mem_spellings hk)
  replace hchars : k.spelled = c :: cs := hchars
  have hletter : matchLetter (k.spelled ++ rest) = none := by
    rw [hchars]
    simp [matchLetter, halpha]
  have hnumber : matchNumber (k.spelled ++ rest) = none := by
    rw [hchars]
    exact matchNumber_of_head hdigit _
  rw [longestLexeme, matchSpelling_spelled hk h, hletter, hnumber]
  rfl

theorem longestLexeme_letter {c : Char} (h : c.isAlpha = true) (rest : List Char) :
    longestLexeme (c :: rest) = some (letter c, 1) := by
  rw [longestLexeme, matchSpelling_of_head (.inr h), matchNumber_of_head (isDigit_of_isAlpha h)]
  simp [matchLetter, h, longer]

end TokenKind

/-- The text of the number is a single numeral, which reads back as the number. -/
def Decimal.ReadsBack (x : Float) : Prop :=
  TokenKind.matchNumber (Decimal.text x) = some (.number x, (Decimal.text x).length)

instance (x : Float) : Decidable (Decimal.ReadsBack x) :=
  inferInstanceAs (Decidable (_ = _))

theorem takeWhile_append_of_head {p : Char → Bool} {cs rest : List Char}
    (hcs : ∀ c ∈ cs, p c = true) (hrest : ∀ c, rest.head? = some c → p c = false) :
    (cs ++ rest).takeWhile p = cs ∧ (cs ++ rest).dropWhile p = rest := by
  rw [List.takeWhile_append_of_pos hcs, List.dropWhile_append_of_pos hcs]
  cases rest with
  | nil => simp
  | cons c cs =>
    have hc := hrest c rfl
    simp [hc]

namespace Decimal

/-- A plain numeral with the given digits before and after the point. -/
def numeral (whole fraction : List Char) : List Char :=
  if fraction = [] then whole else whole ++ '.' :: fraction

theorem mem_takeWhile {p : Char → Bool} {cs : List Char} {c : Char} (h : c ∈ cs.takeWhile p) :
    p c = true :=
  List.all_eq_true.1 List.all_takeWhile c h

/-- What is split off is a numeral of digits. -/
theorem splitPlain_spec (cs : List Char) :
    (∀ c ∈ (splitPlain cs).1, isDigit c = true) ∧ (∀ c ∈ (splitPlain cs).2.1, isDigit c = true) ∧
      cs = numeral (splitPlain cs).1 (splitPlain cs).2.1 ++ (splitPlain cs).2.2 := by
  have hsplit := List.takeWhile_append_dropWhile (p := isDigit) (l := cs)
  unfold splitPlain
  split
  · next rest hrest =>
    split
    · refine ⟨fun c hc => mem_takeWhile hc, fun c hc => absurd hc List.not_mem_nil, ?_⟩
      rw [hrest] at hsplit
      exact hsplit.symm
    · next fraction hne =>
      refine ⟨fun c hc => mem_takeWhile hc, fun c hc => mem_takeWhile hc, ?_⟩
      have hfraction := List.takeWhile_append_dropWhile (p := isDigit) (l := rest)
      rw [numeral, if_neg hne, List.append_assoc, List.cons_append, hfraction, ← hrest, hsplit]
  · refine ⟨fun c hc => mem_takeWhile hc, fun c hc => absurd hc List.not_mem_nil, ?_⟩
    exact hsplit.symm

theorem length_numeral (whole fraction : List Char) : (numeral whole fraction).length =
    if fraction = [] then whole.length else whole.length + 1 + fraction.length := by
  unfold numeral
  split
  · rfl
  · simp only [List.length_append, List.length_cons]
    omega

/-- A number that reads back is written as a numeral. -/
theorem ReadsBack.exists_numeral {x : Float} (h : ReadsBack x) : ∃ whole fraction,
    whole ≠ [] ∧ (∀ c ∈ whole, isDigit c = true) ∧ (∀ c ∈ fraction, isDigit c = true) ∧
      text x = numeral whole fraction ∧ ofDigits whole fraction = x := by
  obtain ⟨hwhole, hfraction, htext⟩ := splitPlain_spec (text x)
  unfold ReadsBack TokenKind.matchNumber at h
  rcases hsplit : splitPlain (text x) with ⟨whole, fraction, rest⟩
  rw [hsplit] at h hwhole hfraction htext
  dsimp only at hwhole hfraction htext
  have hread : whole ≠ [] ∧ ofDigits whole fraction = x ∧
      (numeral whole fraction).length = (text x).length := by
    rw [length_numeral]
    cases whole with
    | nil => exact absurd h.symm (Option.some_ne_none _)
    | cons c whole =>
      cases fraction with
      | nil =>
        obtain ⟨hvalue, hlength⟩ := Prod.mk.inj (Option.some.inj h)
        exact ⟨List.cons_ne_nil _ _, TokenKind.number.inj hvalue, hlength⟩
      | cons c' fraction =>
        obtain ⟨hvalue, hlength⟩ := Prod.mk.inj (Option.some.inj h)
        exact ⟨List.cons_ne_nil _ _, TokenKind.number.inj hvalue, hlength⟩
  obtain ⟨hne, hvalue, hlength⟩ := hread
  have hrest : rest = [] := by
    have htotal := congrArg List.length htext
    rw [List.length_append, hlength] at htotal
    exact List.length_eq_zero_iff.1 (by omega)
  subst hrest
  exact ⟨whole, fraction, hne, hwhole, hfraction, by rw [htext, List.append_nil], hvalue⟩

/-- A numeral is split off as a whole if neither a digit nor a point follows. -/
theorem splitPlain_numeral {whole fraction rest : List Char}
    (hwhole : ∀ c ∈ whole, isDigit c = true) (hfraction : ∀ c ∈ fraction, isDigit c = true)
    (hrest : ∀ c, rest.head? = some c → isDigit c = false ∧ c ≠ '.') :
    splitPlain (numeral whole fraction ++ rest) = (whole, fraction, rest) := by
  have hdigit : ∀ c, rest.head? = some c → isDigit c = false := fun c hc => (hrest c hc).1
  unfold numeral
  split
  · next hnone =>
    obtain ⟨htake, hdrop⟩ := takeWhile_append_of_head hwhole hdigit
    unfold splitPlain
    rw [htake, hdrop, hnone]
    split
    · next rest' => exact absurd rfl (hrest '.' rfl).2
    · rfl
  · next hne =>
    have hpoint : ∀ c, ('.' :: (fraction ++ rest)).head? = some c → isDigit c = false := by
      intro c hc
      obtain rfl := Option.some.inj hc
      rfl
    obtain ⟨htake, hdrop⟩ := takeWhile_append_of_head hwhole hpoint
    obtain ⟨htake', hdrop'⟩ := takeWhile_append_of_head hfraction hdigit
    unfold splitPlain
    rw [List.append_assoc, List.cons_append, htake, hdrop]
    simp only [htake', hdrop']

end Decimal

namespace TokenKind

theorem longestLexeme_number {x : Float} (h : Decimal.ReadsBack x) {rest : List Char}
    (hrest : (number x).FollowedBy rest) :
    longestLexeme (Decimal.text x ++ rest) = some (number x, (Decimal.text x).length) := by
  obtain ⟨whole, fraction, hne, hwhole, hfraction, htext, hvalue⟩ := h.exists_numeral
  obtain ⟨c, cs, rfl⟩ := List.exists_cons_of_ne_nil hne
  have hnumber : matchNumber (Decimal.text x ++ rest) =
      some (number x, (Decimal.text x).length) := by
    rw [htext, matchNumber, Decimal.splitPlain_numeral hwhole hfraction hrest,
      Decimal.length_numeral, ← hvalue]
    cases fraction <;> rfl
  have hdigit := hwhole c List.mem_cons_self
  have hhead : ∃ cs', Decimal.text x ++ rest = c :: cs' := by
    rw [htext, Decimal.numeral]
    split <;> exact ⟨_, rfl⟩
  obtain ⟨cs', hcs⟩ := hhead
  have hletter : matchLetter (Decimal.text x ++ rest) = none := by
    have halpha : c.isAlpha = false := by
      by_contra hne
      have := isDigit_of_isAlpha (by simpa using hne)
      exact Bool.false_ne_true (this ▸ hdigit)
    rw [hcs]
    simp [matchLetter, halpha]
  have hspelling : matchSpelling (Decimal.text x ++ rest) = none := by
    rw [hcs]
    exact matchSpelling_of_head (.inl hdigit) cs'
  rw [longestLexeme, hnumber, hletter, hspelling]
  rfl

end TokenKind

end ImplicitCurves

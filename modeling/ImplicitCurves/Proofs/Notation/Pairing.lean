import ImplicitCurves.Proofs.Notation.Placement

/-!
# Partners of delimiters

The check of the groups keeps the delimiters that are open, and compares each closing one with the
innermost of them.  The search for the end of one group counts how many are open, whatever they are,
and compares only the last one.  Both go by one language, `Balanced`: the check accepts its words, and
in a word the search finds a partner for every delimiter.  Where the check stops, the tokens that it
has passed show that the search finds no partner for the delimiter that is blamed.  Main statement:
`checkBalanced_agrees_matchingClose`.
-/

namespace ImplicitCurves

/-- The token at `i` opens a group. -/
def OpensAt (tokens : List Token) (i : Nat) : Prop :=
  ∃ t, tokens[i]? = some t ∧ t.kind.isOpen = true

/-- The token at `j` closes a group. -/
def ClosesAt (tokens : List Token) (j : Nat) : Prop :=
  ∃ t, tokens[j]? = some t ∧ t.kind.isClose = true

/-- The search finds a closing delimiter for each opening one, and an opening one for each closing
one. -/
structure Paired (tokens : List Token) : Prop where
  opening : ∀ i, OpensAt tokens i → ∃ j, matchingClose tokens i = some j
  closing : ∀ j, ClosesAt tokens j → ∃ i, OpensAt tokens i ∧ matchingClose tokens i = some j

/-- What stands in a group is balanced itself, and of two groups one is inside of the other or behind
it. -/
structure WellNested (tokens : List Token) : Prop where
  inside : ∀ i j, matchingClose tokens i = some j →
    checkBalanced ((tokens.take j).drop (i + 1)) = .ok ()
  apart : ∀ i j i' j', matchingClose tokens i = some j → matchingClose tokens i' = some j' → i ≠ i' →
    (j < i' ∨ j' < i) ∨ (i < i' ∧ j' < j) ∨ (i' < i ∧ j < j')

/-- The token is a delimiter for which the search finds no partner. -/
inductive Unmatched (tokens : List Token) (t : Token) : Prop
  | opening {i : Nat} (ht : tokens[i]? = some t) (hopen : t.kind.isOpen = true)
    (hnone : matchingClose tokens i = none)
  | closing {j : Nat} (ht : tokens[j]? = some t) (hclose : t.kind.isClose = true)
    (hnone : ∀ i, matchingClose tokens i ≠ some j)

theorem TokenKind.isOpen_of_isClose {k : TokenKind} (h : k.isClose = true) : k.isOpen = false := by
  cases k <;> first | rfl | exact absurd h Bool.false_ne_true

theorem OpensAt.ne_of_closesAt {tokens : List Token} {i j : Nat} (hi : OpensAt tokens i)
    (hj : ClosesAt tokens j) : i ≠ j := by
  rintro rfl
  obtain ⟨t, ht, hopen⟩ := hi
  obtain ⟨t', ht', hclose⟩ := hj
  obtain rfl := Option.some.inj (ht.symm.trans ht')
  exact Bool.false_ne_true ((TokenKind.isOpen_of_isClose hclose).symm.trans hopen)

theorem opensAt_of_matchingClose {tokens : List Token} {i j : Nat}
    (h : matchingClose tokens i = some j) : OpensAt tokens i := by
  rw [matchingClose] at h
  split at h
  · cases h
  next t ts hdrop =>
  split at h
  · cases h
  next closer hcloser =>
  have ht : tokens[i]? = some t := by
    rw [← Nat.add_zero i, ← List.getElem?_drop, hdrop]
    rfl
  exact ⟨t, ht, (TokenKind.delimiters_of_closer hcloser).1⟩

theorem Unmatched.not_paired {tokens : List Token} {t : Token} (h : Unmatched tokens t) :
    ¬ Paired tokens := by
  intro hpaired
  cases h with
  | opening ht hopen hnone =>
    obtain ⟨j, hj⟩ := hpaired.opening _ ⟨t, ht, hopen⟩
    rw [hnone] at hj
    cases hj
  | closing ht hclose hnone =>
    obtain ⟨i, -, hi⟩ := hpaired.closing _ ⟨t, ht, hclose⟩
    exact hnone i hi

/-! ### Balanced tokens -/

/-- Tokens whose groups are closed in turn, each by its own delimiter. -/
inductive Balanced : List Token → Prop
  | nil : Balanced []
  /-- A token that is no delimiter. -/
  | pass {t : Token} {ts : List Token} (hopen : t.kind.isOpen = false) (hclose : t.kind.isClose = false)
    (h : Balanced ts) : Balanced (t :: ts)
  | group {o c : Token} {inner rest : List Token} (hc : o.kind.closer = some c.kind)
    (hinner : Balanced inner) (hrest : Balanced rest) : Balanced (o :: (inner ++ c :: rest))

namespace Balanced

variable {ts us pending : List Token}

theorem append (h : Balanced ts) (hus : Balanced us) : Balanced (ts ++ us) := by
  induction h with
  | nil => exact hus
  | pass hopen hclose _ ih => exact .pass hopen hclose ih
  | group hc hinner _ _ ih =>
    rw [List.cons_append, List.append_assoc, List.cons_append]
    exact .group hc hinner ih

theorem level (h : Balanced ts) : Level (fun _ => true) (ts.map (·.kind)) := by
  induction h with
  | nil => exact .nil
  | pass hopen hclose _ ih => exact ih.cons hopen hclose rfl
  | group hc _ _ ihinner ihrest =>
    have hgroup := (Level.group hc ihinner).append ihrest
    simpa using hgroup

/-- Behind balanced tokens the same delimiters are open as in front of them. -/
theorem checkBalancedFrom_append (h : Balanced ts) :
    checkBalancedFrom pending (ts ++ us) = checkBalancedFrom pending us := by
  induction h generalizing pending us with
  | nil => rfl
  | pass hopen hclose _ ih => rw [List.cons_append, checkBalancedFrom_pass hopen hclose, ih]
  | group hc _ _ ihinner ihrest =>
    have ho := (isClose_of_closer hc).1
    rw [List.cons_append, List.append_assoc, List.cons_append, checkBalancedFrom_open ho, ihinner,
      checkBalancedFrom_close hc, ihrest]

theorem checkBalanced_eq (h : Balanced ts) : checkBalanced ts = .ok () := by
  have hcheck := @checkBalancedFrom_append ts [] [] h
  rw [List.append_nil] at hcheck
  exact hcheck

end Balanced

/-! ### Groups and their places -/

/-- The tokens at `i` and `j` delimit a group, and what stands in it is balanced. -/
inductive IsGroup : List Token → Nat → Nat → Prop
  | intro {front inner rest : List Token} {o c : Token} (hc : o.kind.closer = some c.kind)
    (hinner : Balanced inner) :
    IsGroup (front ++ o :: (inner ++ c :: rest)) front.length (front.length + 1 + inner.length)

namespace IsGroup

variable {ts : List Token} {i j i' j' : Nat}

/-- More tokens around a group only move it. -/
theorem shift (h : IsGroup ts i j) (front back : List Token) :
    IsGroup (front ++ ts ++ back) (front.length + i) (front.length + j) := by
  cases h with
  | @intro front' inner rest o c hc hinner =>
    have hgroup := @intro (front ++ front') inner (rest ++ back) o c hc hinner
    simpa [Nat.add_assoc] using hgroup

theorem matchingClose_eq (h : IsGroup ts i j) : matchingClose ts i = some j := by
  cases h with
  | intro hc hinner => exact ImplicitCurves.matchingClose_eq hc hinner.level

theorem opensAt (h : IsGroup ts i j) : OpensAt ts i := by
  cases h with
  | @intro front inner rest o c hc hinner =>
    exact ⟨o, by simp, (isClose_of_closer hc).1⟩

theorem closesAt (h : IsGroup ts i j) : ClosesAt ts j := by
  cases h with
  | @intro front inner rest o c hc hinner =>
    exact ⟨c, by simp [Nat.add_assoc, Nat.add_comm 1], (isClose_of_closer hc).2⟩

theorem balanced_inside (h : IsGroup ts i j) : Balanced ((ts.take j).drop (i + 1)) := by
  cases h with
  | @intro front inner rest o c hc hinner =>
    have htokens : front ++ o :: (inner ++ c :: rest) = (front ++ [o]) ++ inner ++ c :: rest := by simp
    rw [htokens, List.take_left' (by simp; omega), List.drop_left' (by simp)]
    exact hinner

/-- A group that is opened later is opened behind the first one or closed inside of it. -/
theorem disjoint_or_nested (h : IsGroup ts i j) (h' : IsGroup ts i' j') (hlt : i < i') :
    j < i' ∨ j' < j := by
  have hne := h'.opensAt.ne_of_closesAt h.closesAt
  cases h with
  | @intro front inner rest o c hc hinner =>
    have htokens : front ++ o :: (inner ++ c :: rest) = (front ++ [o]) ++ inner ++ c :: rest := by simp
    have hlength : (front ++ [o]).length = front.length + 1 := by simp
    by_cases hbehind : front.length + 1 + inner.length < i'
    · exact .inl hbehind
    · obtain ⟨n, rfl⟩ : ∃ n, i' = (front ++ [o]).length + n := ⟨i' - (front.length + 1), by omega⟩
      have hmatch := h'.matchingClose_eq
      rw [htokens] at hmatch
      have hstop := lt_of_matchingClose hinner.level (by omega) hmatch
      rw [List.length_append, hlength] at hstop
      exact .inr hstop

end IsGroup

namespace Balanced

variable {ts : List Token} {i j : Nat}

/-- Each delimiter belongs to a group. -/
theorem exists_isGroup {n : Nat} {t : Token} (h : Balanced ts) (ht : ts[n]? = some t)
    (hdelimiter : t.kind.isOpen = true ∨ t.kind.isClose = true) :
    ∃ i j, IsGroup ts i j ∧ (n = i ∨ n = j) := by
  induction h generalizing n with
  | nil => cases ht
  | @pass u ts hopen hclose _ ih =>
    cases n with
    | zero =>
      obtain rfl := Option.some.inj ht
      rw [hopen, hclose] at hdelimiter
      simp at hdelimiter
    | succ n =>
      obtain ⟨i, j, hgroup, hends⟩ := ih ht
      have hmoved := hgroup.shift [u] []
      rw [List.append_nil] at hmoved
      exact ⟨_, _, hmoved, by simp; omega⟩
  | @group o c inner rest hc hinner _ ihinner ihrest =>
    have hwhole := @IsGroup.intro [] inner rest o c hc hinner
    cases n with
    | zero => exact ⟨_, _, hwhole, .inl rfl⟩
    | succ n =>
      rw [List.getElem?_cons_succ] at ht
      -- the token is inside of the group, its end, or behind it
      rcases Nat.lt_trichotomy n inner.length with hlt | rfl | hgt
      · rw [List.getElem?_append_left hlt] at ht
        obtain ⟨i, j, hgroup, hends⟩ := ihinner ht
        exact ⟨_, _, hgroup.shift [o] (c :: rest), by simp; omega⟩
      · exact ⟨_, _, hwhole, .inr (by simp; omega)⟩
      · obtain ⟨m, rfl⟩ := Nat.exists_eq_add_of_lt hgt
        have hindex : inner.length + m + 1 - inner.length = m + 1 := by omega
        rw [List.getElem?_append_right (by omega), hindex, List.getElem?_cons_succ] at ht
        obtain ⟨i, j, hgroup, hends⟩ := ihrest ht
        have hmoved := hgroup.shift (o :: (inner ++ [c])) []
        rw [List.append_nil, List.cons_append, List.append_assoc, List.singleton_append] at hmoved
        exact ⟨_, _, hmoved, by simp; omega⟩

theorem exists_isGroup_of_opensAt (h : Balanced ts) (hi : OpensAt ts i) : ∃ j, IsGroup ts i j := by
  obtain ⟨t, ht, hopen⟩ := hi
  obtain ⟨i', j, hgroup, rfl | rfl⟩ := h.exists_isGroup ht (.inl hopen)
  · exact ⟨j, hgroup⟩
  · exact absurd rfl (OpensAt.ne_of_closesAt ⟨t, ht, hopen⟩ hgroup.closesAt)

theorem exists_isGroup_of_closesAt (h : Balanced ts) (hj : ClosesAt ts j) : ∃ i, IsGroup ts i j := by
  obtain ⟨t, ht, hclose⟩ := hj
  obtain ⟨i, j', hgroup, rfl | rfl⟩ := h.exists_isGroup ht (.inr hclose)
  · exact absurd rfl (hgroup.opensAt.ne_of_closesAt ⟨t, ht, hclose⟩)
  · exact ⟨i, hgroup⟩

theorem isGroup_of_matchingClose (h : Balanced ts) (hmatch : matchingClose ts i = some j) :
    IsGroup ts i j := by
  obtain ⟨j', hgroup⟩ := h.exists_isGroup_of_opensAt (opensAt_of_matchingClose hmatch)
  obtain rfl := Option.some.inj (hmatch.symm.trans hgroup.matchingClose_eq)
  exact hgroup

theorem paired (h : Balanced ts) : Paired ts where
  opening i hi := by
    obtain ⟨j, hgroup⟩ := h.exists_isGroup_of_opensAt hi
    exact ⟨j, hgroup.matchingClose_eq⟩
  closing j hj := by
    obtain ⟨i, hgroup⟩ := h.exists_isGroup_of_closesAt hj
    exact ⟨i, hgroup.opensAt, hgroup.matchingClose_eq⟩

theorem wellNested (h : Balanced ts) : WellNested ts where
  inside i j hmatch := (h.isGroup_of_matchingClose hmatch).balanced_inside.checkBalanced_eq
  apart i j i' j' hmatch hmatch' hne := by
    have hgroup := h.isGroup_of_matchingClose hmatch
    have hgroup' := h.isGroup_of_matchingClose hmatch'
    rcases Nat.lt_or_gt_of_ne hne with hlt | hgt
    · rcases hgroup.disjoint_or_nested hgroup' hlt with hbehind | hinside
      · exact .inl (.inl hbehind)
      · exact .inr (.inl ⟨hlt, hinside⟩)
    · rcases hgroup'.disjoint_or_nested hgroup hgt with hbehind | hinside
      · exact .inl (.inr hbehind)
      · exact .inr (.inr ⟨hgt, hinside⟩)

end Balanced

/-! ### Runs of the check -/

/-- The tokens `pending` are open behind the tokens `front`, the innermost first. -/
inductive LeftOpen : List Token → List Token → Prop
  | closed {front : List Token} (h : Balanced front) : LeftOpen front []
  | opened {front inner pending : List Token} {o : Token} (h : LeftOpen front pending)
    (ho : o.kind.isOpen = true) (hinner : Balanced inner) :
    LeftOpen (front ++ o :: inner) (o :: pending)

/-- The result of the check is right about the tokens. -/
def Verdict (tokens : List Token) : Except Error Unit → Prop
  | .ok () => Balanced tokens
  | .error error => ∃ t, Unmatched tokens t ∧ error = unclosed t t.kind.isOpen

namespace LeftOpen

variable {front pending ts rest : List Token} {o t : Token}

theorem append (h : LeftOpen front pending) (hts : Balanced ts) : LeftOpen (front ++ ts) pending := by
  cases h with
  | closed hfront => exact .closed (hfront.append hts)
  | opened h ho hinner =>
    rw [List.append_assoc, List.cons_append]
    exact .opened h ho (hinner.append hts)

theorem push (h : LeftOpen front pending) (ht : t.kind.isOpen = true) :
    LeftOpen (front ++ [t]) (t :: pending) :=
  .opened h ht .nil

/-- The group that was opened last becomes a part of what stands in the one around it. -/
theorem pop (h : LeftOpen front (o :: pending)) (hc : o.kind.closer = some t.kind) :
    LeftOpen (front ++ [t]) pending := by
  cases h with
  | opened h ho hinner =>
    rw [List.append_assoc, List.cons_append]
    exact h.append (.group hc hinner .nil)

theorem isOpen (h : LeftOpen front (o :: pending)) : o.kind.isOpen = true := by
  cases h with
  | opened _ ho _ => exact ho

/-- The delimiter that was opened last has no partner unless what follows closes it. -/
theorem unmatched (h : LeftOpen front (o :: pending))
    (hrest : ∀ closer index, o.kind.closer = some closer → closeFrom closer 1 index rest = none) :
    Unmatched (front ++ rest) o := by
  cases h with
  | @opened front inner _ _ h ho hinner =>
    refine .opening (i := front.length) (by simp) ho ?_
    rw [List.append_assoc, List.cons_append, matchingClose, List.drop_left]
    dsimp only
    split
    · rfl
    · next closer hcloser =>
      exact (closeFrom_append closer (front.length + 1) hinner.level).trans (hrest _ _ hcloser)

end LeftOpen

/-- A closing delimiter behind balanced tokens has no partner. -/
theorem Balanced.unmatched {front rest : List Token} {t : Token} (h : Balanced front)
    (ht : t.kind.isClose = true) : Unmatched (front ++ t :: rest) t := by
  refine .closing (j := front.length) (by simp) ht fun i hmatch => ?_
  by_cases hi : i < front.length
  · have hstop := @lt_of_matchingClose [] front (t :: rest) i front.length h.level hi (by simpa using hmatch)
    exact Nat.lt_irrefl _ hstop
  · exact hi (bounds_of_matchingClose hmatch).1

/-- A run of the check ends with the right result.  What it keeps in each step is that the delimiters
on its stack are those that are open behind the tokens it has passed. -/
theorem LeftOpen.verdict {front pending ts : List Token} (h : LeftOpen front pending) :
    Verdict (front ++ ts) (checkBalancedFrom pending ts) := by
  fun_induction checkBalancedFrom pending ts generalizing front with
  | case1 =>
    rw [List.append_nil]
    cases h with
    | closed hfront => exact hfront
  | case2 o pending => exact ⟨o, h.unmatched fun _ _ _ => rfl, by rw [h.isOpen]⟩
  | case3 pending t ts hopen ih =>
    rw [List.append_cons]
    exact ih (h.push hopen)
  | case4 t ts hopen hclose =>
    cases h with
    | closed hfront =>
      exact ⟨t, hfront.unmatched hclose, by rw [TokenKind.isOpen_of_isClose hclose]⟩
  | case5 t ts hopen hclose o pending hc ih =>
    rw [List.append_cons]
    exact ih (h.pop hc)
  | case6 t ts hopen hclose o pending hother =>
    rw [Bool.not_eq_true] at hopen
    refine ⟨o, h.unmatched fun closer index hcloser => ?_, by rw [h.isOpen]⟩
    have hkind : t.kind ≠ closer := by
      rintro rfl
      exact hother hcloser
    rw [closeFrom_last hopen hclose]
    exact if_neg hkind
  | case7 pending t ts hopen hclose ih =>
    rw [Bool.not_eq_true] at hopen hclose
    rw [List.append_cons]
    exact ih (h.append (.pass hopen hclose .nil))

theorem verdict_checkBalanced (tokens : List Token) : Verdict tokens (checkBalanced tokens) :=
  LeftOpen.verdict (.closed .nil)

theorem checkBalanced_eq_ok_iff {tokens : List Token} :
    checkBalanced tokens = .ok () ↔ Balanced tokens := by
  refine ⟨fun h => ?_, Balanced.checkBalanced_eq⟩
  have hverdict := verdict_checkBalanced tokens
  rw [h] at hverdict
  exact hverdict

/-- For every list of tokens the check succeeds if and only if the search for the ends of groups pairs
all delimiters; then each group is balanced inside, and any two are disjoint or nested.  If it fails, its
only span is that of a delimiter for which the search finds no partner. -/
theorem checkBalanced_agrees_matchingClose (tokens : List Token) :
    (checkBalanced tokens = .ok () ↔ Paired tokens) ∧
    (checkBalanced tokens = .ok () → WellNested tokens) ∧
    ∀ error, checkBalanced tokens = .error error → ∃ t, Unmatched tokens t ∧
      error = ⟨.unclosedGroup t.kind.isOpen t.kind.delimiter, [t.span]⟩ := by
  have hverdict := verdict_checkBalanced tokens
  refine ⟨⟨fun h => (checkBalanced_eq_ok_iff.1 h).paired, fun hpaired => ?_⟩,
    fun h => (checkBalanced_eq_ok_iff.1 h).wellNested, fun error h => ?_⟩
  · cases hcheck : checkBalanced tokens with
    | ok => rfl
    | error error =>
      rw [hcheck] at hverdict
      obtain ⟨t, ht, -⟩ := hverdict
      exact absurd hpaired ht.not_paired
  · rw [h] at hverdict
    exact hverdict

/-- The groups of `{(x)}` are paired and nested, and `{(})` fails at the parenthesis that the brace
comes in between. -/
theorem checkBalanced_agrees_matchingClose_crossed :
    let closed : List Token := [⟨.openCurly, ⟨0, 1⟩⟩, ⟨.openParen, ⟨1, 2⟩⟩, ⟨.letter 'x', ⟨2, 3⟩⟩,
      ⟨.closeParen, ⟨3, 4⟩⟩, ⟨.closeCurly, ⟨4, 5⟩⟩]
    let crossed : List Token := [⟨.openCurly, ⟨0, 1⟩⟩, ⟨.openParen, ⟨1, 2⟩⟩, ⟨.closeCurly, ⟨2, 3⟩⟩,
      ⟨.closeParen, ⟨3, 4⟩⟩]
    (checkBalanced closed = .ok () ∧ Paired closed ∧ WellNested closed) ∧
      checkBalanced crossed = .error ⟨.unclosedGroup true '(', [⟨1, 2⟩]⟩ ∧
        ∃ t, Unmatched crossed t ∧ t.span = ⟨1, 2⟩ := by
  intro closed crossed
  have hclosed : checkBalanced closed = .ok () := rfl
  have hcrossed : checkBalanced crossed = .error ⟨.unclosedGroup true '(', [⟨1, 2⟩]⟩ := rfl
  obtain ⟨hiff, hnested, -⟩ := checkBalanced_agrees_matchingClose closed
  obtain ⟨t, ht, herror⟩ := (checkBalanced_agrees_matchingClose crossed).2.2 _ hcrossed
  have hspan := (List.cons.inj (Error.mk.inj herror).2).1
  exact ⟨⟨hclosed, hiff.1 hclosed, hnested hclosed⟩, hcrossed, t, ht, hspan.symm⟩

end ImplicitCurves

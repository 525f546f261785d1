import ImplicitCurves.Proofs.Notation.CleanedText

/-!
# Cleaning again

Sizing commands are removed in one pass, so what is left on both sides of a command can make up a new
one.  This is so exactly where a command is interrupted by whole commands; elsewhere cleaned text
stays as it is when it is cleaned again: main statement `Cleaned.idempotent_iff`.
-/

namespace ImplicitCurves.Cleaned

/-- The second text is the first one with sizing commands put in between its characters. -/
inductive Filled : List Char → List Char → Prop where
  | nil : Filled [] []
  | char {c : Char} {cs filled : List Char} : Filled cs filled → Filled (c :: cs) (c :: filled)
  | command {command cs filled : List Char} : command ∈ sizingCommands → Filled cs filled →
    Filled cs (command ++ filled)

/-- A sizing command that is interrupted by whole ones: its front, one of them, and the rest of it,
where more of them may stand. -/
inductive Interrupted : List Char → Prop where
  | intro {front back command filled : List Char} : front ≠ [] → back ≠ [] →
    front ++ back ∈ sizingCommands → command ∈ sizingCommands → Filled back filled →
    Interrupted (front ++ (command ++ filled))

/-- Only the first character of a sizing command is a backslash. -/
theorem exists_tail_of_sizing :
    ∀ command ∈ sizingCommands, ∃ tail, command = '\\' :: tail ∧ '\\' ∉ tail := by
  intro command hmem
  rcases List.mem_pair.1 hmem with rfl | rfl
  · exact ⟨_, rfl, by decide⟩
  · exact ⟨_, rfl, by decide⟩

theorem not_mem_back {front back : List Char} (hfront : front ≠ [])
    (h : front ++ back ∈ sizingCommands) : '\\' ∉ back := by
  obtain ⟨tail, heq, hnone⟩ := exists_tail_of_sizing _ h
  obtain ⟨c, front, rfl⟩ := List.exists_cons_of_ne_nil hfront
  obtain ⟨-, rfl⟩ := List.cons.inj heq
  exact fun hmem => hnone (List.mem_append_right front hmem)

/-- The front of a command is a backslash, and what follows in it is not. -/
theorem exists_front {front back : List Char} (hfront : front ≠ [])
    (h : front ++ back ∈ sizingCommands) : ∃ tail, front = '\\' :: tail ∧ '\\' ∉ tail := by
  obtain ⟨tail, heq, hnone⟩ := exists_tail_of_sizing _ h
  obtain ⟨c, front, rfl⟩ := List.exists_cons_of_ne_nil hfront
  obtain ⟨rfl, rfl⟩ := List.cons.inj heq
  exact ⟨front, rfl, fun hmem => hnone (List.mem_append_left back hmem)⟩

theorem Interrupted.exists_tail {part : List Char} (h : Interrupted part) :
    ∃ tail, part = '\\' :: tail := by
  obtain ⟨hfront, -, hwhole, -, -⟩ := h
  obtain ⟨tail, rfl, -⟩ := exists_front hfront hwhole
  exact ⟨_, rfl⟩

namespace WithoutSizing

variable {cs rest : List Char}

theorem length_le (h : WithoutSizing cs rest) : rest.length ≤ cs.length := by
  induction h with
  | nil => exact Nat.le_refl _
  | drop _ _ ih =>
    rw [List.length_append]
    omega
  | keep _ _ ih => exact Nat.succ_le_succ ih

/-- A text is left as it is just if there is no sizing command in it. -/
theorem eq_iff (h : WithoutSizing cs rest) :
    rest = cs ↔ ∀ command ∈ sizingCommands, ¬ command <:+: cs := by
  induction h with
  | nil =>
    have hnone : ∀ command ∈ sizingCommands, ¬ command <:+: [] := by decide
    exact iff_of_true rfl hnone
  | @drop command cs rest hmem h ih =>
    have hpos : ∀ command ∈ sizingCommands, 0 < command.length := by decide
    refine iff_of_false (fun heq => ?_) fun hno => hno command hmem (List.prefix_append _ _).isInfix
    have hlength := congrArg List.length heq
    have hle := h.length_le
    have hpos := hpos command hmem
    rw [List.length_append] at hlength
    omega
  | @keep c cs rest hkeep _ ih =>
    rw [List.cons_eq_cons, and_iff_right rfl, ih]
    refine forall₂_congr fun command hmem => ?_
    rw [List.infix_cons_iff, not_or, and_iff_right (hkeep command hmem)]

/-! ### Commands that come about -/

/-- What is left at the start comes from a start with commands put in. -/
theorem exists_filled {back : List Char} (h : WithoutSizing cs rest) (hback : back <+: rest) :
    ∃ filled, Filled back filled ∧ filled <+: cs := by
  induction h generalizing back with
  | nil =>
    obtain rfl := List.prefix_nil.1 hback
    exact ⟨[], .nil, List.nil_prefix⟩
  | drop hmem _ ih =>
    obtain ⟨filled, hfilled, hstarts⟩ := ih hback
    exact ⟨_, .command hmem hfilled, (List.prefix_append_right_inj _).2 hstarts⟩
  | @keep c cs rest _ _ ih =>
    rcases back with _ | ⟨c', back⟩
    · exact ⟨[], .nil, List.nil_prefix⟩
    · obtain ⟨rfl, hrest⟩ := List.cons_prefix_cons.1 hback
      obtain ⟨filled, hfilled, hstarts⟩ := ih hrest
      exact ⟨_, .char hfilled, List.cons_prefix_cons.2 ⟨rfl, hstarts⟩⟩

/-- If a command begins with a front and goes on with what is left behind it, and does not stand there
as a whole, then it is interrupted. -/
theorem exists_interrupted_of_prefix {front back : List Char} (h : WithoutSizing cs rest)
    (hfront : front ≠ []) (hcommand : front ++ back ∈ sizingCommands)
    (hnone : ∀ command ∈ sizingCommands, ¬ command <+: front ++ cs) (hback : back <+: rest) :
    ∃ part, Interrupted part ∧ part <+: front ++ cs := by
  have hback_ne : back ≠ [] := by
    rintro rfl
    rw [List.append_nil] at hcommand
    exact hnone front hcommand (List.prefix_append _ _)
  induction h generalizing front back with
  | nil => exact absurd (List.prefix_nil.1 hback) hback_ne
  | drop hmem h ih =>
    obtain ⟨filled, hfilled, hstarts⟩ := h.exists_filled hback
    refine ⟨_, .intro hfront hback_ne hcommand hmem hfilled, ?_⟩
    exact (List.prefix_append_right_inj _).2 ((List.prefix_append_right_inj _).2 hstarts)
  | @keep c cs rest _ _ ih =>
    obtain ⟨c', back, rfl⟩ := List.exists_cons_of_ne_nil hback_ne
    obtain ⟨rfl, hrest⟩ := List.cons_prefix_cons.1 hback
    have hmove : ∀ more : List Char, front ++ c' :: more = front ++ [c'] ++ more := by simp
    rw [hmove] at hcommand hnone ⊢
    refine ih (by simp) hcommand hnone hrest ?_
    rintro rfl
    rw [List.append_nil] at hcommand
    exact hnone _ hcommand (List.prefix_append _ _)

/-- A command in what is left was interrupted before. -/
theorem exists_interrupted {command : List Char} (h : WithoutSizing cs rest)
    (hmem : command ∈ sizingCommands) (hwithin : command <:+: rest) :
    ∃ part, Interrupted part ∧ part <:+: cs := by
  induction h with
  | nil =>
    have hnone : ∀ command ∈ sizingCommands, ¬ command <:+: [] := by decide
    exact absurd hwithin (hnone command hmem)
  | drop _ _ ih =>
    obtain ⟨part, hpart, hwithin⟩ := ih hwithin
    exact ⟨part, hpart, hwithin.trans (List.suffix_append _ _).isInfix⟩
  | @keep c cs rest hkeep h ih =>
    rcases List.infix_cons_iff.1 hwithin with hstarts | hwithin
    · obtain ⟨tail, rfl, -⟩ := exists_tail_of_sizing command hmem
      obtain ⟨rfl, hback⟩ := List.cons_prefix_cons.1 hstarts
      obtain ⟨part, hpart, hpart_prefix⟩ :=
        h.exists_interrupted_of_prefix (List.cons_ne_nil '\\' []) hmem hkeep hback
      exact ⟨part, hpart, hpart_prefix.isInfix⟩
    · obtain ⟨part, hpart, hwithin⟩ := ih hwithin
      exact ⟨part, hpart, hwithin.trans (List.suffix_cons _ _).isInfix⟩

/-! ### Commands that are interrupted -/

theorem of_command {command : List Char} (hmem : command ∈ sizingCommands)
    (h : WithoutSizing (command ++ cs) rest) : WithoutSizing cs rest := by
  obtain ⟨text, htext⟩ : ∃ text, command ++ cs = text := ⟨_, rfl⟩
  rw [htext] at h
  cases h with
  | nil =>
    obtain ⟨tail, rfl, -⟩ := exists_tail_of_sizing command hmem
    cases htext
  | @drop command' cs' _ hmem' h =>
    have heq : command = command' := by
      rcases List.prefix_or_prefix_of_prefix (List.prefix_append command cs)
        (htext ▸ List.prefix_append command' cs') with hstart | hstart
      · exact sizingCommands_unambiguous _ hmem _ hmem' hstart
      · exact (sizingCommands_unambiguous _ hmem' _ hmem hstart).symm
    subst heq
    rwa [List.append_cancel_left htext]
  | keep hkeep _ => exact absurd (htext ▸ List.prefix_append command cs) (hkeep command hmem)

theorem of_char {c : Char} (hc : c ≠ '\\') (h : WithoutSizing (c :: cs) rest) :
    ∃ rest', rest = c :: rest' ∧ WithoutSizing cs rest' := by
  obtain ⟨text, htext⟩ : ∃ text, c :: cs = text := ⟨_, rfl⟩
  rw [htext] at h
  cases h with
  | nil => cases htext
  | drop hmem h =>
    obtain ⟨tail, rfl, -⟩ := exists_tail_of_sizing _ hmem
    exact absurd (List.cons.inj htext).1 hc
  | keep _ h =>
    obtain ⟨rfl, rfl⟩ := List.cons.inj htext
    exact ⟨_, rfl, h⟩

/-- The commands that are put into a text without backslashes are taken out of it. -/
theorem of_filled {back filled : List Char} (hfilled : Filled back filled) (hback : '\\' ∉ back)
    (h : WithoutSizing (filled ++ cs) rest) : ∃ rest', rest = back ++ rest' ∧ WithoutSizing cs rest' := by
  induction hfilled generalizing rest with
  | nil => exact ⟨rest, rfl, h⟩
  | char _ ih =>
    obtain ⟨hc, htail⟩ := not_or.1 (mt List.mem_cons.2 hback)
    obtain ⟨rest', rfl, hkept⟩ := h.of_char (Ne.symm hc)
    obtain ⟨rest', rfl, hrest⟩ := ih htail hkept
    exact ⟨rest', rfl, hrest⟩
  | command hmem _ ih =>
    rw [List.append_assoc] at h
    exact ih hback (h.of_command hmem)

theorem filled_refl (cs : List Char) : Filled cs cs := by
  induction cs with
  | nil => exact .nil
  | cons c cs ih => exact .char ih

/-- Where an interrupted command starts, no command stands as a whole. -/
theorem not_prefix_of_interrupted {command part : List Char} (hpart : Interrupted part)
    (hmem : command ∈ sizingCommands) : ¬ command <+: part ++ cs := by
  obtain @⟨front, back, inserted, filled, hfront, hback, hwhole, hinserted, -⟩ := hpart
  intro hstarts
  obtain ⟨tail, rfl, -⟩ := exists_tail_of_sizing inserted hinserted
  have hstart : front ++ ['\\'] <+: front ++ ('\\' :: tail ++ filled) ++ cs :=
    ⟨tail ++ filled ++ cs, by simp⟩
  rcases List.prefix_or_prefix_of_prefix hstarts hstart with hle | hle
  · rcases List.prefix_concat_iff.1 hle with rfl | hle
    · exact not_mem_back hfront hmem (List.mem_singleton_self _)
    · have heq := sizingCommands_unambiguous _ hmem _ hwhole (hle.trans (List.prefix_append _ _))
      have hlength := congrArg List.length heq
      have hle := hle.length_le
      have hpos := List.length_pos_of_ne_nil hback
      rw [List.length_append] at hlength
      omega
  · obtain ⟨more, rfl⟩ := hle
    rw [List.append_assoc] at hmem
    exact not_mem_back hfront hmem List.mem_cons_self

/-- What an interrupted command is left as. -/
theorem exists_command {part : List Char} (h : WithoutSizing cs rest) (hpart : Interrupted part)
    (hwithin : part <:+: cs) : ∃ command ∈ sizingCommands, command <:+: rest := by
  obtain ⟨tail, hstart⟩ := hpart.exists_tail
  induction h with
  | nil => exact absurd (List.infix_nil.1 hwithin) (hstart ▸ List.cons_ne_nil _ _)
  | @drop command cs rest hmem h ih =>
    refine ih ?_
    obtain ⟨before, after, hcut⟩ := hwithin
    rw [List.append_assoc] at hcut
    -- the part does not start inside the command, where there is no backslash but the first character
    rcases List.append_eq_append_iff.1 hcut with ⟨inner, rfl, hinner⟩ | ⟨between, rfl, hbetween⟩
    · rcases before with _ | ⟨b, before⟩
      · exact absurd ⟨cs, hinner.symm⟩ (not_prefix_of_interrupted hpart hmem)
      · rcases inner with _ | ⟨c, inner⟩
        · exact ⟨[], after, hinner⟩
        · rw [hstart] at hinner
          obtain ⟨rfl, -⟩ := List.cons.inj hinner
          exact absurd List.mem_cons_self (not_mem_back (List.cons_ne_nil b before) hmem)
    · exact ⟨between, after, by rw [List.append_assoc, hbetween]⟩
  | @keep c cs rest _ h ih =>
    rcases List.infix_cons_iff.1 hwithin with hstarts | hwithin
    · obtain ⟨after, hafter⟩ := hstarts
      obtain ⟨hfront, hback, hwhole, hinserted, hfilled⟩ := hpart
      obtain ⟨tail', rfl, htail⟩ := exists_front hfront hwhole
      rw [List.append_assoc, List.append_assoc, List.cons_append] at hafter
      obtain ⟨rfl, rfl⟩ := List.cons.inj hafter
      obtain ⟨rest', rfl, hkept⟩ := of_filled (filled_refl tail') htail h
      obtain ⟨rest', rfl, -⟩ :=
        of_filled hfilled (not_mem_back hfront hwhole) (hkept.of_command hinserted)
      exact ⟨_, hwhole, [], rest', by simp⟩
    · obtain ⟨command, hmem, hwithin⟩ := ih hwithin
      exact ⟨command, hmem, hwithin.trans (List.suffix_cons _ _).isInfix⟩

end WithoutSizing

/-- There are no blanks in cleaned text. -/
theorem not_isBlank_of_mem_text {cs : List Char} {c : Char} (h : c ∈ (ofText cs).text) :
    Text.isBlank c = false := by
  obtain ⟨p, hp, rfl⟩ := List.mem_map.1 h
  simpa using (List.mem_filter.1 ((dropSizing_sublist 0 _).subset hp)).2

/-- Cleaned text has no blanks.  A sizing command is in it just if, blanks aside, the typed text has one
that is interrupted by whole ones, and only then is anything removed when it is cleaned again. -/
theorem idempotent_iff (cs : List Char) :
    (∀ c ∈ (ofText cs).text, Text.isBlank c = false) ∧
    ((∃ command ∈ sizingCommands, command <:+: (ofText cs).text) ↔
      ∃ part, Interrupted part ∧ part <:+: cs.filter fun c => !Text.isBlank c) ∧
    ((ofText (ofText cs).text).text = (ofText cs).text ↔
      ¬ ∃ part, Interrupted part ∧ part <:+: cs.filter fun c => !Text.isBlank c) := by
  have hblank : ∀ c ∈ (ofText cs).text, Text.isBlank c = false := fun c => not_isBlank_of_mem_text
  have hfirst := withoutSizing_text cs
  have hsecond : WithoutSizing (ofText cs).text (ofText (ofText cs).text).text := by
    have hkept : (ofText cs).text.filter (fun c => !Text.isBlank c) = (ofText cs).text :=
      List.filter_eq_self.2 fun c hc => by rw [hblank c hc]; rfl
    have h := withoutSizing_text (ofText cs).text
    rwa [hkept] at h
  have hleft : (∃ command ∈ sizingCommands, command <:+: (ofText cs).text) ↔
      ∃ part, Interrupted part ∧ part <:+: cs.filter fun c => !Text.isBlank c := by
    constructor
    · rintro ⟨command, hmem, hwithin⟩
      exact hfirst.exists_interrupted hmem hwithin
    · rintro ⟨part, hpart, hwithin⟩
      exact hfirst.exists_command hpart hwithin
  refine ⟨hblank, hleft, ?_⟩
  rw [hsecond.eq_iff, ← hleft]
  simp only [not_exists, not_and]

/-- One command inside of another: a pass leaves the outer one, which a second pass removes. -/
theorem idempotent_iff_nested :
    (ofText "\\le \\leftft(".toList).text = "\\left(".toList ∧
      (ofText (ofText "\\le \\leftft(".toList).text).text = "(".toList ∧
      ∃ part, Interrupted part ∧
        part <:+: "\\le \\leftft(".toList.filter fun c => !Text.isBlank c := by
  have hfirst : (ofText "\\le \\leftft(".toList).text = "\\left(".toList := by decide
  refine ⟨hfirst, by decide, (idempotent_iff _).2.1.1 ⟨"\\left".toList, by decide, ?_⟩⟩
  rw [hfirst]
  decide

end ImplicitCurves.Cleaned

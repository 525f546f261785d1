import ImplicitCurves.Proofs.Notation.Lexing
import Mathlib.Data.List.Basic
import Mathlib.Data.List.Pairwise

/-!
# Where cleaned text comes from

Cleaning keeps characters with their places.  So each byte of the cleaned text is a byte of the typed
text, and a part of the cleaned text comes from a part of the typed text that is cleaned to it: main
statements `Cleaned.bytes_ofText` and `Cleaned.exists_typed`.
-/

namespace ImplicitCurves

/-- The bytes of a text in UTF-8. -/
def utf8Bytes (cs : List Char) : List UInt8 :=
  cs.flatMap String.utf8EncodeChar

theorem utf8Bytes_append (as bs : List Char) :
    utf8Bytes (as ++ bs) = utf8Bytes as ++ utf8Bytes bs :=
  List.flatMap_append

theorem length_utf8Bytes (cs : List Char) : (utf8Bytes cs).length = Text.byteLength cs := by
  induction cs with
  | nil => rfl
  | cons c cs ih =>
    have hbytes : utf8Bytes (c :: cs) = String.utf8EncodeChar c ++ utf8Bytes cs := rfl
    rw [hbytes, List.length_append, String.length_utf8EncodeChar, ih, Text.byteLength]

namespace PlacedChar

/-- The offset behind a character. -/
def stop (p : PlacedChar) : Nat :=
  p.offset + p.char.utf8Size

theorem place_append (offset : Nat) (as bs : List Char) :
    place offset (as ++ bs) = place offset as ++ place (offset + Text.byteLength as) bs := by
  induction as generalizing offset with
  | nil => rfl
  | cons a as ih => simp [place, ih, Text.byteLength, Nat.add_assoc]

theorem length_place (offset : Nat) (cs : List Char) : (place offset cs).length = cs.length := by
  induction cs generalizing offset with
  | nil => rfl
  | cons c cs ih => simp [place, ih]

/-- A cut of placed characters is a cut of the text. -/
theorem exists_of_place_eq_append {offset : Nat} {cs : List Char} {ps qs : List PlacedChar}
    (h : place offset cs = ps ++ qs) : ∃ as bs, cs = as ++ bs ∧ place offset as = ps ∧
      place (offset + Text.byteLength as) bs = qs := by
  have hchars : cs = ps.map (·.char) ++ qs.map (·.char) := by
    rw [← List.map_append, ← h, Cleaned.map_char_place]
  refine ⟨_, _, hchars, List.append_inj ?_ ?_⟩
  · rw [← h, hchars, place_append]
  · rw [length_place, List.length_map]

/-- The first character of a text stands at its start. -/
theorem offset_of_head? {offset : Nat} {cs : List Char} {p : PlacedChar}
    (h : (place offset cs).head? = some p) : p.offset = offset := by
  cases cs with
  | nil => cases h
  | cons c cs =>
    obtain rfl := Option.some.inj h
    rfl

/-- The last character of a text stands at its end. -/
theorem stop_of_getLast? {offset : Nat} {cs : List Char} {p : PlacedChar}
    (h : (place offset cs).getLast? = some p) : p.stop = offset + Text.byteLength cs := by
  cases hlast : cs.getLast? with
  | none =>
    rw [List.getLast?_eq_none_iff.1 hlast] at h
    cases h
  | some c =>
    obtain ⟨as, rfl⟩ := List.getLast?_eq_some_iff.1 hlast
    rw [place_append] at h
    simp only [place, List.getLast?_concat, Option.some.injEq] at h
    subst h
    simp [stop, Text.byteLength, Nat.add_assoc]

/-- Each character of a text stands behind the ones in front of it. -/
theorem exists_of_mem_place {offset : Nat} {cs : List Char} {p : PlacedChar}
    (h : p ∈ place offset cs) : ∃ front back, cs = front ++ p.char :: back ∧
      p.offset = offset + Text.byteLength front := by
  obtain ⟨ps, qs, hsplit⟩ := List.append_of_mem h
  obtain ⟨as, bs, rfl, -, hback⟩ := exists_of_place_eq_append hsplit
  cases bs with
  | nil => cases hback
  | cons b bs =>
    obtain ⟨rfl, -⟩ := List.cons.inj hback
    exact ⟨as, bs, rfl, rfl⟩

/-- Characters of a text do not overlap, and stand in their order. -/
theorem pairwise_place (offset : Nat) (cs : List Char) :
    (place offset cs).Pairwise fun p q => p.stop ≤ q.offset := by
  induction cs generalizing offset with
  | nil => exact List.Pairwise.nil
  | cons c cs ih =>
    refine List.Pairwise.cons (fun q hq => ?_) (ih _)
    obtain ⟨front, -, -, hoffset⟩ := exists_of_mem_place hq
    rw [hoffset]
    exact Nat.le_add_right _ _

theorem offset_lt_stop (p : PlacedChar) : p.offset < p.stop :=
  Nat.lt_add_of_pos_right p.char.utf8Size_pos

theorem head?_byteOffsets (p : PlacedChar) : p.byteOffsets.head? = some p.offset := by
  rw [byteOffsets, List.head?_range', if_neg p.char.utf8Size_pos.ne']

theorem getLast?_byteOffsets (p : PlacedChar) : p.byteOffsets.getLast? = some (p.stop - 1) := by
  rw [byteOffsets, List.getLast?_range', if_neg p.char.utf8Size_pos.ne', stop]

theorem length_byteOffsets (ps : List PlacedChar) :
    (ps.flatMap byteOffsets).length = Text.byteLength (ps.map (·.char)) := by
  induction ps with
  | nil => rfl
  | cons p ps ih => simp [byteOffsets, Text.byteLength, ih]

/-- The bytes of a character are those that stand at its offsets. -/
theorem map_byteOffsets {cs : List Char} {p : PlacedChar} (h : p ∈ place 0 cs) :
    p.byteOffsets.map (fun i => (utf8Bytes cs)[i]?) = (String.utf8EncodeChar p.char).map some := by
  obtain ⟨front, back, rfl, hoffset⟩ := exists_of_mem_place h
  have hbytes : utf8Bytes (front ++ p.char :: back) =
      utf8Bytes front ++ (String.utf8EncodeChar p.char ++ utf8Bytes back) := utf8Bytes_append _ _
  have hfront : p.offset = (utf8Bytes front).length := by
    rw [hoffset, length_utf8Bytes, Nat.zero_add]
  rw [hbytes]
  apply List.ext_getElem
  · simp [byteOffsets]
  · intro i hi _
    have hlt : i < (String.utf8EncodeChar p.char).length := by
      simpa [byteOffsets] using hi
    simp only [byteOffsets, List.getElem_map, List.getElem_range', hfront, Nat.one_mul]
    rw [List.getElem?_append_right (Nat.le_add_right _ _), Nat.add_sub_cancel_left,
      List.getElem?_append_left hlt, List.getElem?_eq_getElem hlt]

end PlacedChar

namespace Cleaned

/-! ### Sizing commands -/

/-- No sizing command starts another one. -/
theorem sizingCommands_unambiguous :
    ∀ c ∈ sizingCommands, ∀ c' ∈ sizingCommands, c <+: c' → c = c' := by
  decide

/-- The length is that of a command that stands in front, or zero if there is none. -/
theorem sizingLength_cases (ps : List PlacedChar) :
    (∃ command ∈ sizingCommands, command <+: ps.map (·.char) ∧ sizingLength ps = command.length) ∨
      (∀ command ∈ sizingCommands, ¬ command <+: ps.map (·.char)) ∧ sizingLength ps = 0 := by
  unfold sizingLength
  split
  · next command hfound =>
    have hstart : command.isPrefixOf (ps.map (·.char)) = true := by
      simpa using List.find?_some hfound
    exact .inl ⟨command, List.mem_of_find?_eq_some hfound, List.isPrefixOf_iff_prefix.1 hstart, rfl⟩
  · next hnone =>
    refine .inr ⟨fun command hmem hstart => ?_, rfl⟩
    exact List.find?_eq_none.1 hnone command hmem (List.isPrefixOf_iff_prefix.2 hstart)

theorem sizingLength_eq_length {ps : List PlacedChar} {command : List Char}
    (hmem : command ∈ sizingCommands) (h : command <+: ps.map (·.char)) :
    sizingLength ps = command.length := by
  rcases sizingLength_cases ps with ⟨command', hmem', h', hlength⟩ | ⟨hnone, -⟩
  · rcases List.prefix_or_prefix_of_prefix h h' with hstart | hstart
    · rw [hlength, sizingCommands_unambiguous command hmem command' hmem' hstart]
    · rw [hlength, sizingCommands_unambiguous command' hmem' command hmem hstart]
  · exact absurd h (hnone command hmem)

theorem not_sizing_of_eq_zero {ps : List PlacedChar} (h : sizingLength ps = 0) :
    ∀ command ∈ sizingCommands, ¬ command <+: ps.map (·.char) := by
  have hne : ∀ command ∈ sizingCommands, command.length ≠ 0 := by decide
  intro command hmem hstart
  exact hne command hmem ((sizingLength_eq_length hmem hstart).symm.trans h)

theorem exists_of_sizingLength {ps : List PlacedChar} {n : Nat} (h : sizingLength ps = n + 1) :
    ∃ command ∈ sizingCommands, command <+: ps.map (·.char) ∧ command.length = n + 1 := by
  rcases sizingLength_cases ps with ⟨command, hmem, hstart, hlength⟩ | ⟨-, hzero⟩
  · exact ⟨command, hmem, hstart, hlength.symm.trans h⟩
  · rw [h] at hzero
    cases hzero

/-- Where no sizing command starts, none starts in a shorter text. -/
theorem sizingLength_of_append_eq_zero {ps qs : List PlacedChar}
    (h : sizingLength (ps ++ qs) = 0) : sizingLength ps = 0 := by
  rcases sizingLength_cases ps with ⟨command, hmem, hstart, -⟩ | ⟨-, hzero⟩
  · refine absurd (hstart.trans ?_) (not_sizing_of_eq_zero h command hmem)
    rw [List.map_append]
    exact List.prefix_append _ _
  · exact hzero

/-- A sizing command stands in a shorter text too, if it fits. -/
theorem sizingLength_of_append_eq_succ {ps qs : List PlacedChar} {n : Nat}
    (h : sizingLength (ps ++ qs) = n + 1) (hn : n < ps.length) : sizingLength ps = n + 1 := by
  obtain ⟨command, hmem, hstart, hlength⟩ := exists_of_sizingLength h
  rw [← hlength]
  refine sizingLength_eq_length hmem ?_
  rw [List.map_append] at hstart
  refine List.prefix_of_prefix_length_le hstart (List.prefix_append _ _) ?_
  rw [hlength, List.length_map]
  exact hn

/-! ### What stays -/

/-- A text and what is left of it without its sizing commands, taken from left to right. -/
inductive WithoutSizing : List Char → List Char → Prop where
  | nil : WithoutSizing [] []
  | drop {command cs rest : List Char} : command ∈ sizingCommands → WithoutSizing cs rest →
    WithoutSizing (command ++ cs) rest
  | keep {c : Char} {cs rest : List Char} : (∀ command ∈ sizingCommands, ¬ command <+: c :: cs) →
    WithoutSizing cs rest → WithoutSizing (c :: cs) (c :: rest)

theorem withoutSizing_dropSizing (skip : Nat) (ps : List PlacedChar) :
    WithoutSizing ((ps.drop skip).map (·.char)) ((dropSizing skip ps).map (·.char)) := by
  fun_induction dropSizing skip ps with
  | case1 skip =>
    rw [List.drop_nil]
    exact .nil
  | case2 skip p ps ih => exact ih
  | case3 p ps hzero ih => exact .keep (not_sizing_of_eq_zero hzero) ih
  | case4 p ps n hsucc ih =>
    obtain ⟨command, hmem, ⟨rest, hrest⟩, hlength⟩ := exists_of_sizingLength hsucc
    have hdrop : rest = (ps.drop n).map (·.char) := by
      have hback := congrArg (List.drop (n + 1)) hrest
      rw [List.drop_left' hlength] at hback
      rw [hback, List.map_drop]
      rfl
    rw [List.drop_zero, ← hrest, hdrop]
    exact .drop hmem ih

/-- Cleaning takes away the blanks, and then the sizing commands. -/
theorem withoutSizing_text (cs : List Char) :
    WithoutSizing (cs.filter fun c => !Text.isBlank c) (ofText cs).text := by
  have h := withoutSizing_dropSizing 0 ((PlacedChar.place 0 cs).filter fun p => !Text.isBlank p.char)
  rwa [List.drop_zero, map_char_filter, map_char_place] at h

/-! ### Parts of what stays -/

theorem dropSizing_sublist (skip : Nat) (ps : List PlacedChar) : (dropSizing skip ps).Sublist ps := by
  fun_induction dropSizing skip ps with
  | case1 => exact List.Sublist.refl []
  | case2 skip p ps ih => exact ih.cons p
  | case3 p ps hnone ih => exact ih.cons_cons p
  | case4 p ps n hsome ih => exact ih.cons p

theorem chars_sublist (cs : List Char) : (ofText cs).chars.Sublist (PlacedChar.place 0 cs) :=
  (dropSizing_sublist 0 _).trans List.filter_sublist

/-- What stays depends on the characters only, not on where they stand. -/
theorem dropSizing_congr {skip : Nat} {ps qs : List PlacedChar}
    (h : ps.map (·.char) = qs.map (·.char)) :
    (dropSizing skip ps).map (·.char) = (dropSizing skip qs).map (·.char) := by
  fun_induction dropSizing skip ps generalizing qs with
  | case1 =>
    rw [List.map_eq_nil_iff.1 h.symm, dropSizing]
  | case2 skip p ps ih =>
    obtain ⟨q, qs, rfl, -, hrest⟩ := List.map_eq_cons_iff.1 h.symm
    exact ih hrest.symm
  | case3 p ps hnone ih =>
    obtain ⟨q, qs, rfl, hchar, hrest⟩ := List.map_eq_cons_iff.1 h.symm
    have hlength : sizingLength (q :: qs) = 0 := by rw [← hnone, sizingLength, sizingLength, h]
    simp only [dropSizing, hlength, List.map_cons, hchar, ih hrest.symm]
  | case4 p ps n hsome ih =>
    obtain ⟨q, qs, rfl, -, hrest⟩ := List.map_eq_cons_iff.1 h.symm
    have hlength : sizingLength (q :: qs) = n.succ := by rw [← hsome, sizingLength, sizingLength, h]
    simp only [dropSizing, hlength, ih hrest.symm]

/-- In front of a character that stays, a pass can begin anew. -/
theorem dropSizing_restart {skip : Nat} {ps before after : List PlacedChar} {p : PlacedChar}
    (h : dropSizing skip ps = before ++ p :: after) :
    ∃ front back, ps = front ++ p :: back ∧ dropSizing 0 (p :: back) = p :: after := by
  fun_induction dropSizing skip ps generalizing before with
  | case1 => exact absurd h.symm (List.append_ne_nil_of_right_ne_nil _ (List.cons_ne_nil _ _))
  | case2 skip q ps ih | case4 q ps n hsome ih =>
    obtain ⟨front, back, rfl, hback⟩ := ih h
    exact ⟨q :: front, back, rfl, hback⟩
  | case3 q ps hnone ih =>
    cases before with
    | nil =>
      obtain ⟨rfl, hrest⟩ := List.cons.inj h
      refine ⟨[], ps, rfl, ?_⟩
      simp only [dropSizing, hnone, hrest]
    | cons b before =>
      obtain ⟨front, back, rfl, hback⟩ := ih (List.cons.inj h).2
      exact ⟨q :: front, back, rfl, hback⟩

theorem lt_length_of_dropSizing {skip : Nat} {ps : List PlacedChar} (h : dropSizing skip ps ≠ []) :
    skip < ps.length := by
  induction ps generalizing skip with
  | nil => cases skip <;> exact absurd rfl h
  | cons p ps ih =>
    cases skip with
    | zero => exact Nat.zero_lt_succ _
    | succ skip => exact Nat.succ_lt_succ (ih h)

/-- Behind a character that stays, a pass can end. -/
theorem dropSizing_cut {skip : Nat} {ps group after : List PlacedChar} (hne : group ≠ [])
    (h : dropSizing skip ps = group ++ after) :
    ∃ front back, ps = front ++ back ∧ dropSizing skip front = group ∧
      front.getLast? = group.getLast? := by
  have hcons : ∀ (q : PlacedChar) {front group : List PlacedChar}, group ≠ [] →
      front.getLast? = group.getLast? → (q :: front).getLast? = group.getLast? := by
    intro q front group hne hlast
    rw [List.getLast?_cons, hlast, List.getLast?_eq_some_getLast hne, Option.getD_some]
  fun_induction dropSizing skip ps generalizing group with
  | case1 => exact absurd (List.append_eq_nil_iff.1 h.symm).1 hne
  | case2 skip q ps ih =>
    obtain ⟨front, back, rfl, hfront, hlast⟩ := ih hne h
    exact ⟨q :: front, back, rfl, hfront, hcons q hne hlast⟩
  | case3 q ps hnone ih =>
    obtain ⟨g, group, rfl⟩ := List.exists_cons_of_ne_nil hne
    obtain ⟨rfl, hrest⟩ := List.cons.inj h
    by_cases hgroup : group = []
    · subst hgroup
      refine ⟨[q], ps, rfl, ?_, rfl⟩
      have hlength : sizingLength [q] = 0 := sizingLength_of_append_eq_zero hnone
      simp only [dropSizing, hlength]
    · obtain ⟨front, back, rfl, hfront, hlast⟩ := ih hgroup hrest
      refine ⟨q :: front, back, rfl, ?_, ?_⟩
      · have hlength : sizingLength (q :: front) = 0 := sizingLength_of_append_eq_zero hnone
        simp only [dropSizing, hlength, hfront]
      · rw [List.getLast?_cons, List.getLast?_cons, hlast]
  | case4 q ps n hsome ih =>
    obtain ⟨front, back, rfl, hfront, hlast⟩ := ih hne h
    refine ⟨q :: front, back, rfl, ?_, hcons q hne hlast⟩
    -- the command is over before the end, because something stays behind it
    have hshort : n < (q :: front).length :=
      Nat.lt_succ_of_lt (lt_length_of_dropSizing (hfront.symm ▸ hne))
    have hlength : sizingLength (q :: front) = n + 1 := sizingLength_of_append_eq_succ hsome hshort
    simp only [dropSizing, hlength, hfront]

/-- What a pass leaves of a text, part by part, comes from parts that start and end with it. -/
def KeepsParts (pass : List PlacedChar → List PlacedChar) : Prop :=
  ∀ ps before group after : List PlacedChar, group ≠ [] → pass ps = before ++ group ++ after →
    ∃ front part back, ps = front ++ part ++ back ∧ pass part = group ∧
      part.head? = group.head? ∧ part.getLast? = group.getLast?

/-- It is enough that a pass can begin anew in front of what stays, and can end behind it. -/
theorem keepsParts_of_ends {pass : List PlacedChar → List PlacedChar}
    (hstart : ∀ ps before p after, pass ps = before ++ p :: after →
      ∃ front back, ps = front ++ p :: back ∧ pass (p :: back) = p :: after)
    (hstop : ∀ ps group after, group ≠ [] → pass ps = group ++ after →
      ∃ part back, ps = part ++ back ∧ pass part = group ∧ part.getLast? = group.getLast?) :
    KeepsParts pass := by
  intro ps before group after hne h
  obtain ⟨p, group, rfl⟩ := List.exists_cons_of_ne_nil hne
  rw [List.append_assoc, List.cons_append] at h
  obtain ⟨front, rest, rfl, hrest⟩ := hstart _ _ _ _ h
  obtain ⟨part, back, hpart, hgroup, hlast⟩ := hstop _ (p :: group) after hne hrest
  refine ⟨front, part, back, ?_, hgroup, ?_, hlast⟩
  · rw [List.append_assoc, ← hpart]
  · have hpartNe : part ≠ [] := by
      rintro rfl
      rw [List.getLast?_nil] at hlast
      exact hne (List.getLast?_eq_none_iff.1 hlast.symm)
    rw [← List.head?_append_of_ne_nil part hpartNe, ← hpart, List.head?_cons, List.head?_cons]

theorem keepsParts_dropSizing : KeepsParts (dropSizing 0) :=
  keepsParts_of_ends (fun _ _ _ _ => dropSizing_restart) (fun _ _ _ => dropSizing_cut)

theorem keepsParts_filter (keep : PlacedChar → Bool) : KeepsParts (List.filter keep) := by
  apply keepsParts_of_ends
  · intro ps before p after h
    obtain ⟨front, rest, rfl, -, hrest⟩ := List.filter_eq_append_iff.1 h
    obtain ⟨skipped, back, rfl, -, hp, hback⟩ := List.filter_eq_cons_iff.1 hrest
    refine ⟨front ++ skipped, back, ?_, ?_⟩
    · rw [List.append_assoc]
    · rw [List.filter_cons_of_pos hp, hback]
  · intro ps group after hne h
    obtain ⟨rest, back, rfl, hgroup, -⟩ := List.filter_eq_append_iff.1 h
    obtain ⟨init, p, rfl⟩ : ∃ init p, group = init ++ [p] :=
      ⟨_, _, (List.dropLast_append_getLast hne).symm⟩
    obtain ⟨front, tail, rfl, hinit, hlast⟩ := List.filter_eq_append_iff.1 hgroup
    obtain ⟨skipped, tail, rfl, hskipped, hp, -⟩ := List.filter_eq_cons_iff.1 hlast
    refine ⟨front ++ skipped ++ [p], tail ++ back, by simp, ?_, by simp⟩
    simp [hinit, hp, List.filter_eq_nil_iff.2 hskipped]

/-- One pass after another. -/
theorem KeepsParts.comp {pass pass' : List PlacedChar → List PlacedChar} (h : KeepsParts pass)
    (h' : KeepsParts pass') : KeepsParts (pass' ∘ pass) := by
  intro ps before group after hne heq
  obtain ⟨front', part', back', hpart', hgroup, hhead', hlast'⟩ := h' _ _ _ _ hne heq
  have hne' : part' ≠ [] := by
    rintro rfl
    exact hne (List.head?_eq_none_iff.1 hhead'.symm)
  obtain ⟨front, part, back, rfl, hpart, hhead, hlast⟩ := h _ _ _ _ hne' hpart'
  refine ⟨front, part, back, rfl, ?_, hhead.trans hhead', hlast.trans hlast'⟩
  rw [Function.comp_apply, hpart, hgroup]

/-! ### Cleaned text in the typed text -/

/-- The offsets of a cleaned text lead back to the bytes of the text that was typed. -/
structure TracedTo (c : Cleaned) (cs : List Char) : Prop where
  length : c.offsets.length = Text.byteLength c.text
  increasing : c.offsets.Pairwise (· < ·)
  bytes : c.offsets.map (fun i => (utf8Bytes cs)[i]?) = (utf8Bytes c.text).map some

theorem tracedTo_ofText (cs : List Char) : (ofText cs).TracedTo cs where
  length := PlacedChar.length_byteOffsets _
  increasing := by
    refine List.pairwise_flatMap.2 ⟨fun p _ => List.pairwise_lt_range', ?_⟩
    refine ((PlacedChar.pairwise_place 0 cs).sublist (chars_sublist cs)).imp ?_
    intro p q hpq i hi j hj
    obtain ⟨m, hm, rfl⟩ := List.mem_range'.1 hi
    obtain ⟨n, hn, rfl⟩ := List.mem_range'.1 hj
    unfold PlacedChar.stop at hpq
    omega
  bytes := by
    have htext : utf8Bytes (ofText cs).text =
        (ofText cs).chars.flatMap fun p => String.utf8EncodeChar p.char := List.flatMap_map _ _ _
    rw [htext, offsets, List.map_flatMap, List.map_flatMap]
    refine List.flatMap_congr fun p hp => ?_
    exact PlacedChar.map_byteOffsets ((chars_sublist cs).subset hp)

theorem TracedTo.lt_byteLength {c : Cleaned} {cs : List Char} (h : c.TracedTo cs) :
    ∀ i ∈ c.offsets, i < Text.byteLength cs := by
  intro i hi
  have hmem : (utf8Bytes cs)[i]? ∈ (utf8Bytes c.text).map some := by
    rw [← h.bytes]
    exact List.mem_map_of_mem hi
  obtain ⟨byte, -, hbyte⟩ := List.mem_map.1 hmem
  rw [← length_utf8Bytes]
  exact (List.getElem?_eq_some_iff.1 hbyte.symm).1

end Cleaned

/-! ### Spans -/

/-- A span that a range is traced back to is in order, and does not leave the typed text. -/
theorem sourceSpan_within {offsets : List Nat} {length : Nat} (h : ∀ i ∈ offsets, i < length)
    (range : Span) : (sourceSpan offsets.toArray range).start ≤ (sourceSpan offsets.toArray range).stop ∧
      (sourceSpan offsets.toArray range).stop ≤ length := by
  have hnext : ∀ (found : Option Nat) (other : Nat), (∀ i, found = some i → i < length) →
      other ≤ length → (found.map (· + 1)).getD other ≤ length := by
    intro found other hfound hother
    cases found with
    | none => exact hother
    | some i => exact hfound i rfl
  have hlookup : ∀ n i : Nat, offsets.toArray[n]? = some i → i < length := by
    intro n i hi
    rw [List.getElem?_toArray] at hi
    exact h i (List.mem_of_getElem? hi)
  unfold sourceSpan
  split
  · refine ⟨Nat.le_refl _, hnext _ 0 (fun i hi => ?_) (Nat.zero_le _)⟩
    rw [List.back?_toArray] at hi
    exact h i (List.mem_of_getLast? hi)
  · next start hstart =>
    have hle := Nat.le_of_lt (hlookup _ _ hstart)
    refine ⟨Nat.le_max_right _ _, Nat.max_le.2 ⟨?_, hle⟩⟩
    split
    · exact hle
    · exact hnext _ start (hlookup _) hle

/-- The range of some offsets between others is traced back to the first of them, and behind the last. -/
theorem sourceSpan_append {before group after : List Nat} {first last : Nat}
    (hfirst : group.head? = some first) (hlast : group.getLast? = some last) (hle : first ≤ last) :
    sourceSpan (before ++ group ++ after).toArray ⟨before.length, before.length + group.length⟩ =
      ⟨first, last + 1⟩ := by
  have hpos : 0 < group.length := by
    refine List.length_pos_of_ne_nil ?_
    rintro rfl
    cases hfirst
  have hstart : (before ++ group ++ after)[before.length]? = some first := by
    rw [List.append_assoc, List.getElem?_append_right (Nat.le_refl _), Nat.sub_self,
      List.getElem?_append_left hpos, ← List.head?_eq_getElem?, hfirst]
  have hstop : (before ++ group ++ after)[before.length + group.length - 1]? = some last := by
    rw [Nat.add_sub_assoc hpos, List.append_assoc, List.getElem?_append_right (Nat.le_add_right _ _),
      Nat.add_sub_cancel_left, List.getElem?_append_left (Nat.sub_lt hpos Nat.one_pos),
      ← List.getLast?_eq_getElem?, hlast]
  have hnonzero : before.length + group.length ≠ 0 := by omega
  simp only [sourceSpan, List.getElem?_toArray, hstart, hstop, if_neg hnonzero, Option.map_some,
    Option.getD_some, Nat.max_eq_left (Nat.le_succ_of_le hle)]

namespace Cleaned

/-- The bytes of some characters of a cleaned text are traced back to the first of the characters, and
behind the last. -/
theorem sourceSpan_group {c : Cleaned} {before group after : List PlacedChar}
    {first last : PlacedChar} (h : c.chars = before ++ group ++ after)
    (hfirst : group.head? = some first) (hlast : group.getLast? = some last)
    (hle : first.offset < last.stop) :
    sourceSpan c.offsets.toArray ⟨Text.byteLength (before.map (·.char)),
        Text.byteLength (before.map (·.char)) + Text.byteLength (group.map (·.char))⟩ =
      ⟨first.offset, last.stop⟩ := by
  have hoffsets : c.offsets = before.flatMap PlacedChar.byteOffsets ++
      group.flatMap PlacedChar.byteOffsets ++ after.flatMap PlacedChar.byteOffsets := by
    rw [offsets, h, List.flatMap_append, List.flatMap_append]
  have hhead : (group.flatMap PlacedChar.byteOffsets).head? = some first.offset := by
    obtain ⟨rest, rfl⟩ := List.head?_eq_some_iff.1 hfirst
    rw [List.flatMap_cons, List.head?_append, PlacedChar.head?_byteOffsets, Option.some_or]
  have hend : (group.flatMap PlacedChar.byteOffsets).getLast? = some (last.stop - 1) := by
    obtain ⟨rest, rfl⟩ := List.getLast?_eq_some_iff.1 hlast
    rw [List.flatMap_append, List.flatMap_singleton, List.getLast?_append,
      PlacedChar.getLast?_byteOffsets, Option.some_or]
  rw [hoffsets, ← PlacedChar.length_byteOffsets, ← PlacedChar.length_byteOffsets,
    sourceSpan_append hhead hend (Nat.le_sub_one_of_lt hle),
    Nat.sub_add_cancel (Nat.zero_lt_of_lt hle)]

/-- A part of a cleaned text comes from a part of the typed text that is cleaned to it, and that is what
its bytes are traced back to. -/
theorem exists_typed {cs : List Char} {before group after : List PlacedChar} (hne : group ≠ [])
    (h : (ofText cs).chars = before ++ group ++ after) :
    ∃ front typed back, cs = front ++ typed ++ back ∧
      Text.byteLength front < Text.byteLength (front ++ typed) ∧
      (ofText typed).text = group.map (·.char) ∧
      (∃ p ∈ group, p.offset = Text.byteLength front) ∧
      (∃ p ∈ group, p.stop = Text.byteLength (front ++ typed)) ∧
      sourceSpan (ofText cs).offsets.toArray ⟨Text.byteLength (before.map (·.char)),
          Text.byteLength (before.map (·.char)) + Text.byteLength (group.map (·.char))⟩ =
        ⟨Text.byteLength front, Text.byteLength (front ++ typed)⟩ := by
  obtain ⟨front', part, back', hplace, hpart, hhead, hlast⟩ :=
    (keepsParts_filter _).comp keepsParts_dropSizing _ _ _ _ hne h
  obtain ⟨rest, back, rfl, hrest, -⟩ := PlacedChar.exists_of_place_eq_append hplace
  obtain ⟨front, typed, rfl, -, htyped⟩ := PlacedChar.exists_of_place_eq_append hrest
  rw [Nat.zero_add] at htyped
  rw [← htyped, List.head?_eq_some_head hne] at hhead
  rw [← htyped, List.getLast?_eq_some_getLast hne] at hlast
  have hstart := PlacedChar.offset_of_head? hhead
  have hstop := PlacedChar.stop_of_getLast? hlast
  rw [← Text.byteLength_append] at hstop
  have hlt : Text.byteLength front < Text.byteLength (front ++ typed) := by
    cases typed with
    | nil => cases hhead
    | cons c typed =>
      have hpos := c.utf8Size_pos
      rw [Text.byteLength_append, Text.byteLength]
      omega
  refine ⟨front, typed, back, rfl, hlt, ?_, ⟨_, List.head_mem hne, hstart⟩,
    ⟨_, List.getLast_mem hne, hstop⟩, ?_⟩
  · rw [← hpart, ← htyped]
    apply dropSizing_congr
    rw [map_char_filter, map_char_filter, map_char_place, map_char_place]
  · rw [← hstart, ← hstop] at hlt ⊢
    exact sourceSpan_group h (List.head?_eq_some_head hne) (List.getLast?_eq_some_getLast hne) hlt

end Cleaned

end ImplicitCurves

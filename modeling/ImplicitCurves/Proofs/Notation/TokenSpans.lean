import ImplicitCurves.Proofs.Notation.CleanedText
import ImplicitCurves.Proofs.Notation.Lexemes

/-!
# Where tokens come from

The tokens of a text cover what is left of it after cleaning, and each of them points at the part of the
typed text that it was read from.  Where tokens cannot be read, the error points at the first character
that starts none: main statement `tokenize_pointsBack`.
-/

namespace ImplicitCurves

/-- The span of a token is that of a part of the typed text, and cleaning that part leaves a lexeme of its
kind, which is read as this token alone. -/
def Token.PointsInto (cs : List Char) (t : Token) (lexeme : List Char) : Prop :=
  ∃ front typed back, cs = front ++ typed ++ back ∧
    t.span = ⟨Text.byteLength front, Text.byteLength (front ++ typed)⟩ ∧ t.span.start < t.span.stop ∧
    (Cleaned.ofText typed).text = lexeme ∧ t.kind.IsLexeme lexeme ∧
    lexemes lexeme = [⟨some t.kind, lexeme⟩]

/-- The error is about one character of the typed text, which cleaning leaves there.  What is left in front
of it is made up of lexemes, and none starts at it. -/
def Error.PointsAtUnreadable (cs : List Char) (e : Error) : Prop :=
  ∃ front c back, cs = front ++ c :: back ∧
    (∃ before after, (Cleaned.ofText cs).chars =
        before ++ ⟨c, Text.byteLength front⟩ :: after ∧
      (∀ l ∈ lexemes (before.map (·.char)), l.kind.isSome = true) ∧
      TokenKind.NoneOf (c :: after.map (·.char))) ∧
    e = ⟨.unrecognizedToken (String.ofList [c]),
      [⟨Text.byteLength front, Text.byteLength (front ++ [c])⟩]⟩

/-- The error of some lexemes is about the first of them that is no token. -/
theorem tokensOfLexemes_eq_error {offsets : Array Nat} {offset : Nat} {ls : List Lexeme} {e : Error}
    (h : tokensOfLexemes offsets (placeLexemes offset ls) = .error e) :
    ∃ read l rest, ls = read ++ l :: rest ∧ (∀ l' ∈ read, l'.kind.isSome = true) ∧ l.kind = none ∧
      e = ⟨.unrecognizedToken (String.ofList l.chars),
        [sourceSpan offsets ⟨offset + Text.byteLength (read.flatMap (·.chars)),
          offset + Text.byteLength (read.flatMap (·.chars)) + Text.byteLength l.chars⟩]⟩ := by
  induction ls generalizing offset with
  | nil => cases h
  | cons l ls ih =>
    simp only [placeLexemes, tokensOfLexemes] at h
    split at h
    · next kind hkind =>
      cases hrest : tokensOfLexemes offsets (placeLexemes (offset + Text.byteLength l.chars) ls) with
      | ok tokens =>
        rw [hrest] at h
        cases h
      | error e' =>
        rw [hrest] at h
        cases h
        obtain ⟨read, l', rest, rfl, hread, hl', he⟩ := ih hrest
        refine ⟨l :: read, l', rest, rfl, List.forall_mem_cons.2 ⟨?_, hread⟩, hl', ?_⟩
        · rw [hkind, Option.isSome_some]
        · rw [he, List.flatMap_cons, Text.byteLength_append, Nat.add_assoc offset]
    · next hkind =>
      cases h
      exact ⟨[], l, ls, rfl, fun l' hl' => (by cases hl'), hkind, rfl⟩

/-- The characters that some lexemes were read from, in their parts. -/
theorem exists_chars_of_lexemes {l : Lexeme} {ls : List Lexeme} {chars : List PlacedChar}
    (h : lexemes (chars.map (·.char)) = l :: ls) : ∃ group rest, chars = group ++ rest ∧
      group.map (·.char) = l.chars ∧ rest.map (·.char) = ls.flatMap (·.chars) :=
  List.map_eq_append_iff.1 (flatMap_lexemes h).symm

/-- The tokens of what is left to be read: each points at what it was read from, and they stand in their
order behind what has been read. -/
theorem pointsInto_of_tokensOfLexemes {cs : List Char} {ls : List Lexeme} {tokens : List Token}
    {before rest : List PlacedChar} (hchars : (Cleaned.ofText cs).chars = before ++ rest)
    (hls : lexemes (rest.map (·.char)) = ls)
    (h : tokensOfLexemes (Cleaned.ofText cs).offsets.toArray
      (placeLexemes (Text.byteLength (before.map (·.char))) ls) = .ok tokens) :
    List.Forall₂ (Token.PointsInto cs) tokens (ls.map (·.chars)) ∧
      tokens.Pairwise (fun t t' => t.span.stop ≤ t'.span.start) ∧
      ∀ t ∈ tokens, ∀ p ∈ before, p.stop ≤ t.span.start := by
  induction ls generalizing tokens before rest with
  | nil =>
    cases h
    exact ⟨.nil, .nil, fun t ht => by cases ht⟩
  | cons l ls ih =>
    obtain ⟨kind, tokens, hkind, rfl, htokens⟩ := tokensOfLexemes_cons_ok h
    obtain ⟨group, rest, rfl, hgroup, hrest⟩ := exists_chars_of_lexemes hls
    have hlexeme : kind.IsLexeme l.chars :=
      isLexeme_of_mem_lexemes (by rw [hls]; exact List.mem_cons_self) hkind
    have hne : group ≠ [] := by
      rintro rfl
      exact hlexeme.ne_nil hgroup.symm
    have hsplit : (Cleaned.ofText cs).chars = before ++ group ++ rest := by
      rw [hchars, List.append_assoc]
    -- the lexemes behind the first one are those of the text behind it
    have hread : lexemes (rest.map (·.char)) = ls := by
      have hparts : lexemes ((group ++ rest).map (·.char)) = [l] ++ ls := hls
      rw [hrest, (lexemes_of_append hparts (by simp [hkind])).2]
    have hoffset : Text.byteLength (before.map (·.char)) + Text.byteLength l.chars =
        Text.byteLength ((before ++ group).map (·.char)) := by
      rw [List.map_append, Text.byteLength_append, hgroup]
    rw [hoffset] at htokens
    obtain ⟨hpoints, hpairwise, hbehind⟩ := ih hsplit hread htokens
    obtain ⟨front, typed, back, hcs, hlt, htext, ⟨first, hfirst, hstart⟩, ⟨last, hlast, hstop⟩, hspan⟩ :=
      Cleaned.exists_typed hne hsplit
    rw [hgroup] at hspan htext
    rw [hspan]
    refine ⟨.cons ?_ hpoints, .cons ?_ hpairwise, ?_⟩
    · exact ⟨front, typed, back, hcs, rfl, hlt, htext, hlexeme, lexemes_of_isLexeme hlexeme⟩
    · intro t ht
      rw [← hstop]
      exact hbehind t ht last (List.mem_append_right before hlast)
    · intro t ht p hp
      rcases List.mem_cons.1 ht with rfl | ht
      · have horder := (PlacedChar.pairwise_place 0 cs).sublist (Cleaned.chars_sublist cs)
        rw [hchars] at horder
        rw [← hstart]
        exact (List.pairwise_append.1 horder).2.2 p hp first (List.mem_append_left rest hfirst)
      · exact hbehind t ht p (List.mem_append_left group hp)

/-- The error of a text points at what cannot be read. -/
theorem pointsAtUnreadable_of_tokenize {cs : List Char} {e : Error} (h : tokenize cs = .error e) :
    e.PointsAtUnreadable cs := by
  obtain ⟨read, l, rest, hls, hread, hkind, he⟩ := tokensOfLexemes_eq_error h
  obtain ⟨hfront, hback⟩ := lexemes_of_append hls hread
  have htext := flatMap_lexemes hls
  rw [List.flatMap_append] at htext
  generalize (l :: rest).flatMap (·.chars) = remaining at hback htext
  rcases lexemes_eq_cons hback with ⟨kind, n, -, rfl, -⟩ | ⟨c, chars, rfl, hnone, rfl, -⟩
  · cases hkind
  · obtain ⟨before, group, hchars, hbefore, hgroup⟩ := List.map_eq_append_iff.1 htext.symm
    obtain ⟨p, after, rfl, rfl, rfl⟩ := List.map_eq_cons_iff.1 hgroup
    have hmem : p ∈ PlacedChar.place 0 cs :=
      (Cleaned.chars_sublist cs).subset (hchars ▸ List.mem_append_right before List.mem_cons_self)
    obtain ⟨front, back, hcs, hoffset⟩ := PlacedChar.exists_of_mem_place hmem
    rw [Nat.zero_add] at hoffset
    refine ⟨front, p.char, back, hcs, ⟨before, after, ?_, ?_, hnone⟩, ?_⟩
    · rw [← hoffset, hchars]
    · rw [hbefore, hfront]
      exact hread
    · have hsplit : (Cleaned.ofText cs).chars = before ++ [p] ++ after := by
        rw [hchars, List.append_assoc, List.singleton_append]
      have hlast : [p].getLast? = some p := rfl
      have hspan := Cleaned.sourceSpan_group hsplit rfl hlast p.offset_lt_stop
      rw [hbefore, List.map_singleton] at hspan
      have hstop : p.stop = Text.byteLength (front ++ [p.char]) := by
        rw [PlacedChar.stop, hoffset, Text.byteLength_append]
        rfl
      rw [he, Nat.zero_add, hspan, hoffset, hstop]

/-- Tokens cover the text and point back into it.  Cleaning takes away just blanks and sizing commands, and
keeps for each byte the offset of that byte in the typed text, in increasing order; any range is traced
back to a span of the typed text.  The tokens of a text stand in parts of the typed text that follow each
other and are each cleaned to a lexeme, read for itself as that token; the lexemes together are the cleaned
text.  The error of a text without tokens covers one character of the cleaned text, up to which it is
read. -/
theorem tokenize_pointsBack (cs : List Char) :
    Cleaned.WithoutSizing (cs.filter fun c => !Text.isBlank c) (Cleaned.ofText cs).text ∧
    (Cleaned.ofText cs).TracedTo cs ∧
    (∀ range : Span,
      (sourceSpan (Cleaned.ofText cs).offsets.toArray range).start ≤
          (sourceSpan (Cleaned.ofText cs).offsets.toArray range).stop ∧
        (sourceSpan (Cleaned.ofText cs).offsets.toArray range).stop ≤ Text.byteLength cs) ∧
    (∀ tokens, tokenize cs = .ok tokens →
      (∃ parts, List.Forall₂ (Token.PointsInto cs) tokens parts ∧
        parts.flatten = (Cleaned.ofText cs).text) ∧
      tokens.Pairwise fun t t' => t.span.stop ≤ t'.span.start) ∧
    ∀ e, tokenize cs = .error e → e.PointsAtUnreadable cs := by
  have htraced := Cleaned.tracedTo_ofText cs
  refine ⟨Cleaned.withoutSizing_text cs, htraced, sourceSpan_within htraced.lt_byteLength, ?_,
    fun e => pointsAtUnreadable_of_tokenize⟩
  intro tokens h
  obtain ⟨hpoints, hpairwise, -⟩ :=
    pointsInto_of_tokensOfLexemes (List.nil_append _).symm rfl h
  refine ⟨⟨_, hpoints, ?_⟩, hpairwise⟩
  rw [← List.flatMap_def]
  exact flatMap_lexemes rfl

/-- A command that is interrupted by a blank is one token, and a dollar sign is none. -/
theorem tokenize_pointsBack_command_dollar :
    (∃ tokens parts, tokenize "\\s in x".toList = .ok tokens ∧
      tokens.map (·.kind) = [.function .sin, .letter 'x'] ∧
      List.Forall₂ (Token.PointsInto "\\s in x".toList) tokens parts) ∧
    ∃ e, tokenize ['$'] = .error e ∧ e.PointsAtUnreadable ['$'] := by
  constructor
  · have hspelled : ("\\s in x".toList.filter fun c => !Text.isBlank c) =
        [TokenKind.function .sin, .letter 'x'].flatMap TokenKind.spelled := by decide
    obtain ⟨tokens, htokens, hkinds⟩ :=
      tokenize_eq_ok hspelled (by simp [TokenKind.Spellable]) (by decide)
    obtain ⟨⟨parts, hpoints, -⟩, -⟩ := (tokenize_pointsBack _).2.2.2.1 tokens htokens
    exact ⟨tokens, parts, htokens, hkinds, hpoints⟩
  · have hnone : TokenKind.NoneOf ['$'] := TokenKind.longestLexeme_eq_none_iff.1 rfl
    have htext : (Cleaned.ofText ['$']).text = ['$'] := by decide
    have herror : tokenize ['$'] = .error ⟨.unrecognizedToken "$", [⟨0, 1⟩]⟩ := by
      rw [tokenize, htext, lexemes_of_noneOf hnone]
      rfl
    exact ⟨_, herror, (tokenize_pointsBack _).2.2.2.2 _ herror⟩

end ImplicitCurves

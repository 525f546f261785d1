import ImplicitCurves.Proofs.Notation.ErrorSpans
import ImplicitCurves.Proofs.Session.Errors
import ImplicitCurves.Proofs.Session.Lines
import ImplicitCurves.Proofs.Tree.LinkFailures

/-!
# Places of errors in lines

The text that a line gives to a command, or all of the line between its blanks, is read on its own, and
the spans of an error of that text are moved to where it stands.  So every error of a line points into
the line: main statement `Session.execute_pointsIntoLine`.
-/

namespace ImplicitCurves

/-! ### Errors of texts -/

theorem mem_letterSpans {name : Char} {followed : Option TokenKind → Bool} {tokens : List Token}
    {s : Span} (h : s ∈ letterSpans name followed tokens) : ∃ t ∈ tokens, s = t.span := by
  induction tokens with
  | nil => cases h
  | cons t ts ih =>
    simp only [letterSpans] at h
    split at h
    · rcases List.mem_cons.1 h with rfl | h
      · exact ⟨t, List.mem_cons_self, rfl⟩
      · obtain ⟨u, hu, hs⟩ := ih h
        exact ⟨u, List.mem_cons_of_mem t hu, hs⟩
    · obtain ⟨u, hu, hs⟩ := ih h
      exact ⟨u, List.mem_cons_of_mem t hu, hs⟩

theorem Error.pointsIntoText_letterSpans {text : List Char} {tokens : List Token}
    (htokens : tokenize text = .ok tokens) (cause : Cause) (name : Char)
    (followed : Option TokenKind → Bool) :
    (⟨cause, letterSpans name followed tokens⟩ : Error).PointsIntoText text := by
  intro s hs
  obtain ⟨t, ht, rfl⟩ := mem_letterSpans hs
  exact Token.isPartOf_of_tokenize htokens ht

/-- What is wrong with a text is in the text, or else it has no place. -/
theorem TextError.pointsIntoText {table : FunctionTable} {text : List Char} {e : Error}
    (h : TextError table text e) : e.PointsIntoText text := by
  cases h with
  | tokens he => exact failsOnly_tokenize text e he
  | expression he => exact he.pointsIntoText Expression.explainsByTokens
  | equation he => exact he.pointsIntoText Equation.explainsByTokens
  | statement he => exact he.pointsIntoText Statement.explainsByTokens
  | linkedExpression he => exact Error.pointsIntoText_of_spans_nil (Expression.failsOnly_linked _ _ e he)
  | linkedEquation he => exact Error.pointsIntoText_of_spans_nil (Equation.failsOnly_linked _ _ e he)
  | mentionsY htokens => exact Error.pointsIntoText_letterSpans htokens _ _ _
  | undefinedFunction htokens => exact Error.pointsIntoText_letterSpans htokens _ _ _
  | unsupportedVariable htokens => exact Error.pointsIntoText_letterSpans htokens _ _ _
  | unbound | numbers => exact Error.pointsIntoText_of_spans_nil rfl

/-! ### Errors of lines -/

/-- The error has a place, and all its places are parts of a line between two offsets. -/
structure Error.PointsBetween (e : Error) (line : List Char) (low high : Nat) : Prop where
  placed : e.spans ≠ []
  within : ∀ span ∈ e.spans, span.IsPartOf line ∧ low ≤ span.start ∧ span.stop ≤ high

/-- Parts of the line end with the line at the latest. -/
theorem Error.PointsBetween.upToEnd {e : Error} {line : List Char} {low high low' : Nat}
    (h : e.PointsBetween line low high) (hlow : low' ≤ low) :
    e.PointsBetween line low' (Text.byteLength line) where
  placed := h.placed
  within span hspan := by
    obtain ⟨hpart, hstart, -⟩ := h.within span hspan
    exact ⟨hpart, Nat.le_trans hlow hstart, hpart.stop.le⟩

namespace Session

open Text

variable {s : Session} {command : Command} {line arguments : List Char} {offset : Nat} {e : Error}

/-- An error of a text that stands in a line is moved to where the text stands. -/
theorem relocate_pointsBetween {front text behind : List Char}
    (hline : line = front ++ text ++ behind) (he : e.PointsIntoText text) :
    (relocate (byteLength front) text e).PointsBetween line (byteLength front)
      (byteLength front + byteLength text) := by
  obtain rfl := hline
  unfold relocate
  split
  · refine ⟨List.cons_ne_nil _ _, fun span hspan => ?_⟩
    obtain rfl := List.mem_singleton.1 hspan
    have hpart := Span.isPartOf_middle front text behind
    rw [byteLength_append] at hpart
    exact ⟨hpart, Nat.le_refl _, Nat.le_refl _⟩
  · next hplaced =>
    refine ⟨?_, fun span hspan => ?_⟩
    · simpa [Error.shift] using hplaced
    · obtain ⟨inner, hinner, rfl⟩ := List.mem_map.1 hspan
      have hpart := he inner hinner
      refine ⟨hpart.shift front behind, Nat.le_add_left _ _, ?_⟩
      rw [Nat.add_comm (byteLength front)]
      exact Nat.add_le_add_right hpart.stop.le _

/-- What is left of the arguments of a command behind the text that it reads: a range for a search, or
nothing. -/
inductive Leftover : Command → List Char → Prop
  | nothing (command : Command) : Leftover command []
  | range {gap low gap' high : List Char} {x y : Float} (hgap : AllBlank gap) (hgap' : AllBlank gap')
    (hlow : Decimal.read low = some x) (hhigh : Decimal.read high = some y) :
    Leftover .roots (gap ++ low ++ gap' ++ high)

theorem exists_leftover (command : Command) (arguments : List Char) :
    ∃ rest, arguments = readText command arguments ++ rest ∧ Leftover command rest := by
  have hwhole : readText command arguments = arguments →
      ∃ rest, arguments = readText command arguments ++ rest ∧ Leftover command rest := by
    intro hsame
    exact ⟨[], by rw [hsame, List.append_nil], .nothing command⟩
  cases command with
  | roots =>
    rcases splitRange_cases arguments with hnone |
      ⟨text, gap, low, gap', high, x, y, hrange, harguments, hgap, hgap', hlow, hhigh⟩
    · exact hwhole (congrArg Prod.fst hnone)
    · refine ⟨gap ++ low ++ gap' ++ high, ?_, .range hgap hgap' hlow hhigh⟩
      rw [readText, hrange, harguments]
      simp only [List.append_assoc]
  | _ => exact hwhole rfl

/-- A line with a command is not blank, so its blanks in front end before those at its end start. -/
theorem indentation_le_trimEnd (h : stripCommand command line = some (offset, arguments)) :
    indentation line ≤ byteLength (trimEnd line) := by
  obtain ⟨indent, gap, behind, hline, -, -, -, -, hindent⟩ := exists_of_stripCommand h
  obtain ⟨blanks, hend, hblanks⟩ := exists_of_trimEnd line
  have hword : ∃ c ∈ command.word.toList, (!isBlank c) = true := by
    refine List.any_eq_true.1 ?_
    cases command <;> decide
  have hparts : indent ++ (command.word.toList ++ (gap ++ (arguments ++ behind))) =
      trimEnd line ++ blanks := by
    simpa only [List.append_assoc] using hline.symm.trans hend
  rw [hindent]
  rcases List.append_eq_append_iff.1 hparts with ⟨more, hmore, -⟩ | ⟨more, -, hmore⟩
  · rw [hmore, byteLength_append]
    exact Nat.le_add_right _ _
  · -- then the word would be among the blanks at the end
    obtain ⟨c, hc, hnotBlank⟩ := hword
    have hmem : c ∈ blanks := by
      rw [hmore]
      exact List.mem_append_right _ (List.mem_append_left _ hc)
    rw [hblanks c hmem] at hnotBlank
    cases hnotBlank

/-- The error of a command that is used wrongly points at all of the line between its blanks. -/
theorem wrongUsage_pointsBetween (h : stripCommand command line = some (offset, arguments)) :
    (wrongUsage command line).PointsBetween line (indentation line) (byteLength line) := by
  obtain ⟨indent, behind, hline, -, -, hindent⟩ := exists_of_trim line
  obtain ⟨blanks, hend, -⟩ := exists_of_trimEnd line
  have hstop : IsBoundary line (byteLength (trimEnd line)) := ⟨_, blanks, hend, rfl⟩
  refine ⟨List.cons_ne_nil _ _, fun span hspan => ?_⟩
  obtain rfl := List.mem_singleton.1 hspan
  refine ⟨⟨indentation_le_trimEnd h, ?_, hstop⟩, Nat.le_refl _, hstop.le⟩
  exact ⟨indent, trim line ++ behind, by rw [← List.append_assoc, ← hline], hindent⟩

/-- A line with a command, around the text that the command reads. -/
theorem exists_of_readText (h : stripCommand command line = some (offset, arguments)) :
    ∃ indent gap rest behind, line = indent ++ command.word.toList ++ gap ++ arguments ++ behind ∧
      AllBlank indent ∧ AllBlank gap ∧ AllBlank behind ∧
      offset = byteLength (indent ++ command.word.toList ++ gap) ∧
      arguments = readText command arguments ++ rest ∧ Leftover command rest := by
  obtain ⟨indent, gap, behind, hline, hindent, hgap, hbehind, hoffset, -⟩ := exists_of_stripCommand h
  obtain ⟨rest, harguments, hrest⟩ := exists_leftover command arguments
  exact ⟨indent, gap, rest, behind, hline, hindent, hgap, hbehind, hoffset, harguments, hrest⟩

/-- The error of a text that a command reads points at where the text stands in the line. -/
theorem relocate_readText_pointsBetween
    (h : stripCommand command line = some (offset, arguments))
    (he : e.PointsIntoText (readText command arguments)) :
    (relocate offset (readText command arguments) e).PointsBetween line offset
      (offset + byteLength (readText command arguments)) := by
  obtain ⟨indent, gap, rest, behind, hline, -, -, -, rfl, harguments, -⟩ := exists_of_readText h
  have hsplit : line = indent ++ command.word.toList ++ gap ++ readText command arguments ++
      (rest ++ behind) := by
    rw [List.append_assoc _ (readText command arguments), ← List.append_assoc _ rest, ← harguments,
      ← List.append_assoc, ← hline]
  exact relocate_pointsBetween hsplit he

/-- The arguments of a command start behind the blanks in front. -/
theorem indentation_le_offset (h : stripCommand command line = some (offset, arguments)) :
    indentation line ≤ offset := by
  obtain ⟨indent, gap, behind, -, -, -, -, rfl, hindent⟩ := exists_of_stripCommand h
  rw [hindent, List.append_assoc, byteLength_append]
  exact Nat.le_add_right _ _

/-- Errors of a session point into the line.  Every error has a place, and each of its places starts
behind the blanks in front, ends in the line where it starts or later, and has both ends between
characters.  An error of a command that is not about how the command is used points into the text that
the command reads, where it stands in the line: the arguments without the blanks around them, and for a
search without the range at their end. -/
theorem execute_pointsIntoLine {schedule : Schedule} (h : (s.execute line schedule).1 = .error e) :
    e.PointsBetween line (indentation line) (byteLength line) ∧
    ∀ command offset arguments, stripCommand command line = some (offset, arguments) →
      e.cause ≠ .invalidArguments command →
      ∃ indent gap rest behind, line = indent ++ command.word.toList ++ gap ++ arguments ++ behind ∧
        AllBlank indent ∧ AllBlank gap ∧ AllBlank behind ∧
        offset = byteLength (indent ++ command.word.toList ++ gap) ∧
        arguments = readText command arguments ++ rest ∧ Leftover command rest ∧
        e.PointsBetween line offset (offset + byteLength (readText command arguments)) := by
  obtain hcommand | ⟨hnone, table, e', he, rfl⟩ := failsOnly_execute e h
  · cases hcommand with
    | @usage command offset arguments hstrip =>
      refine ⟨wrongUsage_pointsBetween hstrip, fun command' offset' arguments' hstrip' hcause => ?_⟩
      obtain rfl := command_unique hstrip hstrip'
      exact absurd rfl hcause
    | @text command offset arguments e' hstrip he =>
      have hplaces := relocate_readText_pointsBetween hstrip he.pointsIntoText
      refine ⟨hplaces.upToEnd (indentation_le_offset hstrip), ?_⟩
      intro command' offset' arguments' hstrip' _
      obtain rfl := command_unique hstrip hstrip'
      obtain ⟨rfl, rfl⟩ := Prod.mk.inj (Option.some.inj (hstrip.symm.trans hstrip'))
      obtain ⟨indent, gap, rest, behind, hline, hindent, hgap, hbehind, hoffset, harguments, hrest⟩ :=
        exists_of_readText hstrip
      exact ⟨indent, gap, rest, behind, hline, hindent, hgap, hbehind, hoffset, harguments, hrest,
        hplaces⟩
  · refine ⟨?_, fun command offset arguments hstrip => ?_⟩
    · obtain ⟨indent, behind, hline, -, -, hindentation⟩ := exists_of_trim line
      rw [hindentation]
      exact (relocate_pointsBetween hline he.pointsIntoText).upToEnd (Nat.le_refl _)
    · cases (hnone command).symm.trans hstrip

/-- A blank of two bytes in front, a character of two bytes that cannot be read, and a range behind it:
the error points at the character, where it stands in the line. -/
theorem execute_pointsIntoLine_unreadable :
    let line := "\u00a0roots x=é 0 1 ".toList
    let s := Session.start .default
    ∃ e, (s.execute line).1 = .error e ∧ e.spans = [⟨10, 12⟩] ∧ e.PointsBetween line 2 17 ∧
      readText .roots "x=é 0 1".toList = "x=é".toList ∧ e.PointsBetween line 8 12 := by
  intro line s
  have hexecute : (s.execute line).1 = .error ⟨.unrecognizedToken "é", [⟨10, 12⟩]⟩ := by
    decide +kernel
  have hstrip : stripCommand .roots line = some (8, "x=é 0 1".toList) := by decide +kernel
  have hread : readText .roots "x=é 0 1".toList = "x=é".toList := by decide +kernel
  obtain ⟨hline, hcommand⟩ := execute_pointsIntoLine hexecute
  obtain ⟨-, -, -, -, -, -, -, -, -, -, -, htext⟩ := hcommand .roots 8 _ hstrip nofun
  rw [hread] at htext
  exact ⟨_, hexecute, rfl, hline, hread, htext⟩

end Session

end ImplicitCurves

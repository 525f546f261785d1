import ImplicitCurves.Session
import Mathlib.Data.List.TakeDrop
import Mathlib.Data.List.TakeWhile

/-!
# Lines and their parts

A line that is a command is made up of blanks, the word of the command, and its arguments between
blanks.  Only one command fits a line.  The arguments of a search for roots can end with a range.
-/

namespace ImplicitCurves

namespace Text

/-- All characters are blank. -/
def AllBlank (cs : List Char) : Prop :=
  ∀ c ∈ cs, isBlank c = true

theorem allBlank_concat {cs : List Char} {blank : Char} (h : AllBlank cs)
    (hblank : isBlank blank = true) : AllBlank (cs ++ [blank]) :=
  List.forall_mem_append.2 ⟨h, List.forall_mem_singleton.2 hblank⟩

theorem exists_of_trimStart (cs : List Char) :
    ∃ blanks, cs = blanks ++ trimStart cs ∧ AllBlank blanks :=
  ⟨cs.takeWhile isBlank, List.takeWhile_append_dropWhile.symm, fun _ hc => List.mem_takeWhile_imp hc⟩

theorem exists_of_trimEnd (cs : List Char) :
    ∃ blanks, cs = trimEnd cs ++ blanks ∧ AllBlank blanks := by
  obtain ⟨blanks, hsplit, hblanks⟩ := exists_of_trimStart cs.reverse
  refine ⟨blanks.reverse, ?_, fun c hc => hblanks c (List.mem_reverse.1 hc)⟩
  have hreversed := congrArg List.reverse hsplit
  rwa [List.reverse_reverse, List.reverse_append] at hreversed

/-- A text that is split at its last blank is put together from both parts and the blank. -/
theorem exists_of_splitAtLastBlank {cs head tail : List Char}
    (h : splitAtLastBlank cs = some (head, tail)) :
    ∃ blank, cs = head ++ blank :: tail ∧ isBlank blank = true := by
  unfold splitAtLastBlank at h
  rw [List.span_eq_takeWhile_dropWhile] at h
  split at h
  · cases h
  · next tail' blank head' hspan =>
    obtain ⟨htail, hhead⟩ := Prod.mk.inj hspan
    obtain ⟨rfl, rfl⟩ := Prod.mk.inj (Option.some.inj h)
    refine ⟨blank, ?_, ?_⟩
    · have hsplit := List.takeWhile_append_dropWhile (p := fun c => !isBlank c) (l := cs.reverse)
      rw [htail, hhead] at hsplit
      have hreversed := congrArg List.reverse hsplit
      rw [List.reverse_reverse, List.reverse_append, List.reverse_cons, List.append_assoc] at hreversed
      exact hreversed.symm
    · have hfirst := List.head?_dropWhile_not (fun c => !isBlank c) cs.reverse
      rw [hhead] at hfirst
      simpa using hfirst

end Text

namespace Session

open Text

/-- A line is made up of blanks, the text between them, and more blanks. -/
theorem exists_of_trim (line : List Char) : ∃ indent behind, line = indent ++ trim line ++ behind ∧
    AllBlank indent ∧ AllBlank behind ∧ indentation line = byteLength indent := by
  obtain ⟨indent, hline, hindent⟩ := exists_of_trimStart line
  obtain ⟨behind, htext, hbehind⟩ := exists_of_trimEnd (trimStart line)
  refine ⟨indent, behind, ?_, hindent, hbehind, ?_⟩
  · rw [List.append_assoc, trim, ← htext, ← hline]
  · have hlength := congrArg byteLength hline
    rw [byteLength_append] at hlength
    rw [indentation, hlength, Nat.add_sub_cancel]

variable {command command' : Command} {line arguments : List Char} {offset : Nat}

/-- The text of the line is the word of the command and what is left of it. -/
theorem exists_rest (h : stripCommand command line = some (offset, arguments)) :
    ∃ rest, trimStart line = command.word.toList ++ rest ∧
      offset = byteLength line - byteLength (trimStart rest) ∧
      arguments = trimEnd (trimStart rest) := by
  simp only [stripCommand] at h
  split at h
  · next hword =>
    split at h
    · obtain ⟨rest, htext⟩ := List.isPrefixOf_iff_prefix.1 hword
      rw [← htext, List.drop_left] at h
      obtain ⟨rfl, rfl⟩ := Prod.mk.inj (Option.some.inj h)
      exact ⟨rest, htext.symm, rfl, rfl⟩
    · cases h
  · cases h

/-- Words of commands do not start with each other, so only one command fits a line. -/
theorem command_unique {offset' : Nat} {arguments' : List Char}
    (h : stripCommand command line = some (offset, arguments))
    (h' : stripCommand command' line = some (offset', arguments')) : command = command' := by
  have hwords : ∀ c c' : Command, c.word.toList <+: c'.word.toList → c = c' := by
    intro c c' hprefix
    have hstarts := List.isPrefixOf_iff_prefix.2 hprefix
    revert hstarts
    cases c <;> cases c' <;> decide
  obtain ⟨rest, htext, -⟩ := exists_rest h
  obtain ⟨rest', htext', -⟩ := exists_rest h'
  have hprefix : command.word.toList <+: trimStart line := ⟨rest, htext.symm⟩
  have hprefix' : command'.word.toList <+: trimStart line := ⟨rest', htext'.symm⟩
  rcases List.prefix_or_prefix_of_prefix hprefix hprefix' with hshorter | hshorter
  · exact hwords _ _ hshorter
  · exact (hwords _ _ hshorter).symm

/-- A line with a command is made up of blanks, the word of the command, and the arguments between
blanks. -/
theorem exists_of_stripCommand (h : stripCommand command line = some (offset, arguments)) :
    ∃ indent gap behind, line = indent ++ command.word.toList ++ gap ++ arguments ++ behind ∧
      AllBlank indent ∧ AllBlank gap ∧ AllBlank behind ∧
      offset = byteLength (indent ++ command.word.toList ++ gap) ∧
      indentation line = byteLength indent := by
  obtain ⟨rest, htext, rfl, rfl⟩ := exists_rest h
  obtain ⟨indent, hline, hindent⟩ := exists_of_trimStart line
  obtain ⟨gap, hgap, hgapBlank⟩ := exists_of_trimStart rest
  obtain ⟨behind, hbehind, hbehindBlank⟩ := exists_of_trimEnd (trimStart rest)
  have hsplit : line = indent ++ command.word.toList ++ gap ++ trimStart rest := by
    rw [List.append_assoc, ← hgap, List.append_assoc, ← htext, ← hline]
  refine ⟨indent, gap, behind, ?_, hindent, hgapBlank, hbehindBlank, ?_, ?_⟩
  · rw [List.append_assoc, ← hbehind, ← hsplit]
  · have hlength := congrArg byteLength hsplit
    rw [byteLength_append] at hlength
    rw [hlength, Nat.add_sub_cancel]
  · have hlength := congrArg byteLength hline
    rw [byteLength_append] at hlength
    rw [indentation, hlength, Nat.add_sub_cancel]

/-- Arguments are kept whole, or else they are a text and two numbers behind it, which are the range. -/
theorem splitRange_cases (arguments : List Char) : splitRange arguments = (arguments, none) ∨
    ∃ text gap low gap' high x y, splitRange arguments = (text, some (x, y)) ∧
      arguments = text ++ gap ++ low ++ gap' ++ high ∧ AllBlank gap ∧ AllBlank gap' ∧
      Decimal.read low = some x ∧ Decimal.read high = some y := by
  simp only [splitRange]
  split
  · next text range hrange =>
    obtain ⟨⟨head, high⟩, hlast, hrange⟩ := Option.bind_eq_some_iff.1 hrange
    obtain ⟨⟨equation, low⟩, hfirst, hrange⟩ := Option.bind_eq_some_iff.1 hrange
    obtain ⟨x, hx, hrange⟩ := Option.bind_eq_some_iff.1 hrange
    obtain ⟨y, hy, hrange⟩ := Option.bind_eq_some_iff.1 hrange
    obtain ⟨rfl, rfl⟩ := Prod.mk.inj (Option.some.inj hrange)
    obtain ⟨blank', harguments, hblank'⟩ := exists_of_splitAtLastBlank hlast
    obtain ⟨blank, hhead, hblank⟩ := exists_of_splitAtLastBlank hfirst
    obtain ⟨spaces', hspaces', hspacesBlank'⟩ := exists_of_trimEnd head
    obtain ⟨spaces, hspaces, hspacesBlank⟩ := exists_of_trimEnd equation
    refine .inr ⟨trimEnd equation, spaces ++ [blank], low, spaces' ++ [blank'], high, x, y, rfl, ?_, ?_,
      ?_, hx, hy⟩
    · calc arguments = trimEnd head ++ spaces' ++ blank' :: high := by rw [← hspaces', harguments]
        _ = equation ++ blank :: low ++ spaces' ++ blank' :: high := by rw [hhead]
        _ = trimEnd equation ++ spaces ++ blank :: low ++ spaces' ++ blank' :: high := by
          rw [← hspaces]
        _ = trimEnd equation ++ (spaces ++ [blank]) ++ low ++ (spaces' ++ [blank']) ++ high := by simp
    · exact allBlank_concat hspacesBlank hblank
    · exact allBlank_concat hspacesBlank' hblank'
  · exact .inl rfl

end Session

end ImplicitCurves

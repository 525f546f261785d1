import ImplicitCurves.Text.Blank
import ImplicitCurves.Text.Span

/-!
# Cleaned text

Before a text is read its blanks are removed, and then the commands `\left` and `\right`, which
only set the size of the delimiter after them.  The offsets of what stays are kept, so that every
range of the cleaned text can be traced back to the typed text.
-/

namespace ImplicitCurves

/-- A character together with the offset of its first byte in the typed text. -/
structure PlacedChar where
  char : Char
  offset : Nat
deriving DecidableEq

namespace PlacedChar

/-- The characters of a text, the first one at the given offset. -/
def place (offset : Nat) : List Char → List PlacedChar
  | [] => []
  | c :: cs => ⟨c, offset⟩ :: place (offset + c.utf8Size) cs

/-- The offsets of the bytes of a character. -/
def byteOffsets (p : PlacedChar) : List Nat :=
  List.range' p.offset p.char.utf8Size

end PlacedChar

/-- A text without blanks and sizing commands, with the place of each character. -/
structure Cleaned where
  chars : List PlacedChar
deriving DecidableEq

namespace Cleaned

/-- The commands that are removed. -/
def sizingCommands : List (List Char) :=
  ["\\left".toList, "\\right".toList]

/-- The length of the sizing command that a text starts with, or zero. -/
def sizingLength (cs : List PlacedChar) : Nat :=
  match sizingCommands.find? (·.isPrefixOf (cs.map (·.char))) with
  | some command => command.length
  | none => 0

/-- Removes sizing commands in one pass from left to right.  `skip` characters in front still
belong to a command. -/
def dropSizing : (skip : Nat) → List PlacedChar → List PlacedChar
  | _, [] => []
  | skip + 1, _ :: cs => dropSizing skip cs
  | 0, c :: cs =>
    match sizingLength (c :: cs) with
    | 0 => c :: dropSizing 0 cs
    | n + 1 => dropSizing n cs

/-- Cleans a text. -/
def ofText (cs : List Char) : Cleaned :=
  ⟨dropSizing 0 ((PlacedChar.place 0 cs).filter fun p => !Text.isBlank p.char)⟩

/-- The cleaned text. -/
def text (c : Cleaned) : List Char :=
  c.chars.map (·.char)

/-- For each byte of the cleaned text its offset in the typed text. -/
def offsets (c : Cleaned) : List Nat :=
  c.chars.flatMap PlacedChar.byteOffsets

end Cleaned

/-- The span of the typed text that a range of bytes of a cleaned text comes from, given the offset
of each of those bytes.  A range behind the end gives the end, and a range that is empty or reversed
gives an empty span where it starts or the span up to there. -/
def sourceSpan (offsets : Array Nat) (range : Span) : Span :=
  match offsets[range.start]? with
  | none =>
    let stop := (offsets.back?.map (· + 1)).getD 0
    ⟨stop, stop⟩
  | some start =>
    let stop :=
      if range.stop = 0 then start
      else (offsets[range.stop - 1]?.map (· + 1)).getD start
    ⟨start, max stop start⟩

end ImplicitCurves

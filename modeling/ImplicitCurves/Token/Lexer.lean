import ImplicitCurves.Decimal.Numeral
import ImplicitCurves.Error
import ImplicitCurves.Token
import ImplicitCurves.Token.Cleaned

/-!
# Reading tokens

At each place of a cleaned text the longest lexeme is taken.  A lexeme is one of the fixed spellings
below, a plain numeral, or an ASCII letter.  Where none matches, one character is unreadable.
-/

namespace ImplicitCurves

namespace TokenKind

/-- The fixed spellings.  Inverse functions can also be written with the prefix `arc`. -/
def spellings : List (List Char × TokenKind) :=
  [("+".toList, add), ("-".toList, sub), ("*".toList, mul), ("\\cdot".toList, mul),
    ("\\times".toList, mul), ("/".toList, div), ("\\div".toList, div), ("^".toList, caret),
    ("(".toList, openParen), (")".toList, closeParen), ("\x7b".toList, openCurly),
    ("\x7d".toList, closeCurly), ("\\frac".toList, frac), ("\\log".toList, function .lg),
    ("\\log_".toList, logBase), ("\\pi".toList, pi), (",".toList, comma), ("=".toList, assign),
    ("\\arcsin".toList, function .arcsin), ("\\arccos".toList, function .arccos),
    ("\\arctan".toList, function .arctan), ("\\arccsc".toList, function .arccsc),
    ("\\arcsec".toList, function .arcsec), ("\\arccot".toList, function .arccot)] ++
  UnaryFunction.all.map fun f => (f.command, function f)

/-- The longer of two matches; the first if they are equally long. -/
def longer (m n : Option (TokenKind × Nat)) : Option (TokenKind × Nat) :=
  match m, n with
  | some a, some b => if a.2 < b.2 then n else m
  | none, n => n
  | m, none => m

/-- The longest fixed spelling that a text starts with, and its length. -/
def matchSpelling (cs : List Char) : Option (TokenKind × Nat) :=
  spellings.foldl
    (fun best s => if s.1.isPrefixOf cs then longer best (some (s.2, s.1.length)) else best) none

/-- The plain numeral that a text starts with, and its length. -/
def matchNumber (cs : List Char) : Option (TokenKind × Nat) :=
  match Decimal.splitPlain cs with
  | ([], _, _) => none
  | (whole, [], _) => some (number (Decimal.ofDigits whole []), whole.length)
  | (whole, fraction, _) =>
    some (number (Decimal.ofDigits whole fraction), whole.length + 1 + fraction.length)

/-- The letter that a text starts with. -/
def matchLetter : List Char → Option (TokenKind × Nat)
  | c :: _ => if c.isAlpha then some (letter c, 1) else none
  | [] => none

/-- The longest lexeme that a text starts with, and its length in characters. -/
def longestLexeme (cs : List Char) : Option (TokenKind × Nat) :=
  longer (matchSpelling cs) (longer (matchNumber cs) (matchLetter cs))

end TokenKind

/-- What was read at one place: a lexeme of a kind, or a single character that starts none. -/
structure Lexeme where
  kind : Option TokenKind
  chars : List Char
deriving DecidableEq

/-- Splits a text into lexemes and unreadable characters, from left to right. -/
def lexemes : List Char → List Lexeme
  | [] => []
  | c :: cs =>
    match TokenKind.longestLexeme (c :: cs) with
    | some (kind, length) =>
      ⟨some kind, c :: cs.take (length - 1)⟩ :: lexemes (cs.drop (length - 1))
    | none => ⟨none, [c]⟩ :: lexemes cs
termination_by cs => cs.length
decreasing_by all_goals simp; try omega

/-- Gives each lexeme the range of bytes that it takes up, the first one from `offset` on. -/
def placeLexemes (offset : Nat) : List Lexeme → List (Lexeme × Span)
  | [] => []
  | l :: ls =>
    let stop := offset + Text.byteLength l.chars
    (l, ⟨offset, stop⟩) :: placeLexemes stop ls

/-- The tokens of lexemes, or an error at the first character that is unreadable. -/
def tokensOfLexemes (offsets : Array Nat) : List (Lexeme × Span) → Except Error (List Token)
  | [] => .ok []
  | (l, range) :: ls =>
    let span := sourceSpan offsets range
    match l.kind with
    | some kind => (tokensOfLexemes offsets ls).map (⟨kind, span⟩ :: ·)
    | none => .error ⟨.unrecognizedToken (String.ofList l.chars), [span]⟩

/-- The tokens of a text, with spans in that text.  There are no tokens at all if a part of the text
is unreadable. -/
def tokenize (cs : List Char) : Except Error (List Token) :=
  let cleaned := Cleaned.ofText cs
  tokensOfLexemes cleaned.offsets.toArray (placeLexemes 0 (lexemes cleaned.text))

end ImplicitCurves

import ImplicitCurves.Text.Span
import ImplicitCurves.UnaryFunction

/-!
# Tokens

The words of the notation, each with the span of the typed text that it was read from.
-/

namespace ImplicitCurves

/-- The kinds of tokens.  A minus is always an operator, so numbers have no sign. -/
inductive TokenKind where
  | add
  | sub
  | mul
  | div
  | caret
  | number (value : Float)
  | openParen
  | closeParen
  | openCurly
  | closeCurly
  | frac
  /-- The command of a function of one argument. -/
  | function (f : UnaryFunction)
  /-- The command of a logarithm whose base follows. -/
  | logBase
  | pi
  | comma
  | assign
  | letter (name : Char)
deriving DecidableEq

namespace TokenKind

/-- Whether the token opens a group. -/
def isOpen : TokenKind → Bool
  | openParen | openCurly => true
  | _ => false

/-- Whether the token closes a group. -/
def isClose : TokenKind → Bool
  | closeParen | closeCurly => true
  | _ => false

/-- The delimiter that closes what this one opens. -/
def closer : TokenKind → Option TokenKind
  | openParen => some closeParen
  | openCurly => some closeCurly
  | _ => none

/-- Whether the token is a plus or a minus. -/
def isSign : TokenKind → Bool
  | add | sub => true
  | _ => false

/-- The character of a delimiter. -/
def delimiter : TokenKind → Char
  | openParen => '('
  | closeParen => ')'
  | openCurly => '{'
  | _ => '}'

end TokenKind

/-- A token and where it was read. -/
structure Token where
  kind : TokenKind
  span : Span
deriving DecidableEq

end ImplicitCurves

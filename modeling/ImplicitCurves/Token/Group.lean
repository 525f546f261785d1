import ImplicitCurves.Error
import ImplicitCurves.Token

/-!
# Groups of tokens

Groups are delimited by parentheses and curly braces.  Two ways to match delimiters live here: the
partner of one opening delimiter, found by counting how deep the groups are nested, and the check of
a whole list of tokens, which keeps the delimiters that are still open.
-/

namespace ImplicitCurves

namespace Token

/-- The depth after a token, given the depth before it. -/
def depthAfter (depth : Int) (t : Token) : Int :=
  if t.kind.isOpen then depth + 1
  else if t.kind.isClose then depth - 1
  else depth

end Token

/-- Looks for the delimiter that brings the depth back to zero.  It has to be `closer`.  `index` is
the index of the first token. -/
def closeFrom (closer : TokenKind) (depth index : Nat) : List Token → Option Nat
  | [] => none
  | t :: ts =>
    if t.kind.isOpen then closeFrom closer (depth + 1) (index + 1) ts
    else if t.kind.isClose then
      match depth with
      | 0 => none
      | 1 => if t.kind = closer then some index else none
      | depth + 2 => closeFrom closer (depth + 1) (index + 1) ts
    else closeFrom closer depth (index + 1) ts

/-- The index of the token that closes the group opened at `start`.  There is none if the token at
`start` does not open a group, or if the group is not closed, or not by the right delimiter. -/
def matchingClose (tokens : List Token) (start : Nat) : Option Nat :=
  match tokens.drop start with
  | [] => none
  | t :: ts =>
    match t.kind.closer with
    | none => none
    | some closer => closeFrom closer 1 (start + 1) ts

/-- Whether the group opened at `start` is closed by the last token. -/
def closesAtEnd (tokens : List Token) (start : Nat) : Bool :=
  match matchingClose tokens start with
  | some stop => stop + 1 == tokens.length
  | none => false

/-- Puts a token in front of the first part. -/
def addToFirst (t : Token) : List (List Token) → List (List Token)
  | [] => [[t]]
  | part :: parts => (t :: part) :: parts

/-- Splits at each separator at depth zero, where `depth` is the depth of the first token.  There is
one part more than there are separators. -/
def splitTopLevel (separator : TokenKind) (depth : Int) : List Token → List (List Token)
  | [] => [[]]
  | t :: ts =>
    if depth = 0 ∧ t.kind = separator ∧ !t.kind.isOpen ∧ !t.kind.isClose then
      [] :: splitTopLevel separator depth ts
    else addToFirst t (splitTopLevel separator (t.depthAfter depth) ts)

/-- The span from the first token to the last. -/
def spanOf (tokens : List Token) : Option Span :=
  match tokens.head?, tokens.getLast? with
  | some first, some last => some ⟨first.span.start, last.span.stop⟩
  | _, _ => none

/-- The error of a delimiter that has no partner. -/
def unclosed (t : Token) (opening : Bool) : Error :=
  ⟨.unclosedGroup opening t.kind.delimiter, [t.span]⟩

/-- Checks that each group is closed by its delimiter.  `pending` are the delimiters that are open,
the innermost first. -/
def checkBalancedFrom (pending : List Token) : List Token → Except Error Unit
  | [] =>
    match pending with
    | [] => .ok ()
    | t :: _ => .error (unclosed t true)
  | t :: ts =>
    if t.kind.isOpen then checkBalancedFrom (t :: pending) ts
    else if t.kind.isClose then
      match pending with
      | [] => .error (unclosed t false)
      | u :: us =>
        if u.kind.closer = some t.kind then checkBalancedFrom us ts else .error (unclosed u true)
    else checkBalancedFrom pending ts

/-- Checks that each group is closed by its delimiter, and that no other delimiter closes one. -/
def checkBalanced (tokens : List Token) : Except Error Unit :=
  checkBalancedFrom [] tokens

end ImplicitCurves

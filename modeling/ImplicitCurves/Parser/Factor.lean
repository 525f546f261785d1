import ImplicitCurves.Token.Group
import ImplicitCurves.Tree

/-!
# Reading factors

Readers for each kind of factor from exactly the given tokens.  The expressions inside a factor are
read by the reader `inner`, which is only ever given fewer tokens than the factor has.
-/

namespace ImplicitCurves

namespace Factor

/-- A reader of expressions. -/
abbrev Reader := List Token → Option Expression

/-- The tokens without the first and the last one. -/
def between (tokens : List Token) : List Token :=
  tokens.tail.dropLast

/-- Reads `\frac`, then two groups in braces of which the second ends the tokens. -/
def readFraction (inner : Reader) : List Token → Option Factor
  | ⟨.frac, span⟩ :: ⟨.openCurly, span'⟩ :: rest =>
    let tokens := ⟨.frac, span⟩ :: ⟨.openCurly, span'⟩ :: rest
    match matchingClose tokens 1 with
    | none => none
    | some stop =>
      match tokens.drop (stop + 1) with
      | ⟨.openCurly, span''⟩ :: after =>
        if closesAtEnd tokens (stop + 1) then do
          let numerator ← inner (rest.take (stop - 2))
          let denominator ← inner (between (⟨.openCurly, span''⟩ :: after))
          return .fraction numerator denominator
        else none
      | _ => none
  | _ => none

/-- The tokens before and after the first `^` at depth zero, where `depth` is the depth of the first
token. -/
def splitCaret (depth : Int) : List Token → Option (List Token × List Token)
  | [] => none
  | t :: ts =>
    if depth = 0 ∧ t.kind = .caret then some ([], ts)
    else (splitCaret (t.depthAfter depth) ts).map fun (base, rest) => (t :: base, rest)

/-- The tokens of an exponent: what is in a group in braces, a group in parentheses, or a single
token. -/
def exponentTokens (rest : List Token) : Option (List Token) :=
  match rest with
  | [] => none
  | t :: ts =>
    if t.kind = .openCurly ∧ closesAtEnd rest 0 then some (between rest)
    else if t.kind = .openParen ∧ closesAtEnd rest 0 then some rest
    else if ts.isEmpty then some rest
    else none

/-- Reads a power from its first `^` at depth zero.  Everything in front of it is the base. -/
def readPower (inner : Reader) (tokens : List Token) : Option Factor := do
  let (base, rest) ← splitCaret 0 tokens
  if base.isEmpty then none
  else
    let exponent ← exponentTokens rest
    return .power (← inner base) (← inner exponent)

/-- Reads a letter other than `e` and a group in parentheses that ends the tokens, with arguments
between commas. -/
def readCall (inner : Reader) : List Token → Option Factor
  | ⟨.letter name, span⟩ :: ⟨.openParen, span'⟩ :: rest =>
    if name ≠ 'e' ∧ closesAtEnd (⟨.letter name, span⟩ :: ⟨.openParen, span'⟩ :: rest) 1 then do
      let arguments ← (splitTopLevel .comma 0 rest.dropLast).mapM inner
      return .call name arguments .unlinked
    else none
  | _ => none

/-- Reads a group of either kind that ends the tokens. -/
def readBracket (inner : Reader) (tokens : List Token) : Option Factor :=
  match tokens with
  | [] => none
  | t :: _ =>
    if t.kind.isOpen && closesAtEnd tokens 0 then (inner (between tokens)).map .bracket
    else none

/-- The tokens of the argument of a function, which are what follows the function.  Parentheses are
taken off if the first token opens and the last one closes some. -/
def argumentTokens (rest : List Token) : Option (List Token) :=
  match rest with
  | [] => none
  | t :: _ =>
    if 2 ≤ rest.length ∧ t.kind = .openParen ∧ rest.getLast?.map (·.kind) = some .closeParen then
      some (between rest)
    else some rest

/-- Reads a function of one argument. -/
def readUnary (inner : Reader) : List Token → Option Factor
  | ⟨.function f, _⟩ :: rest => do
    let argument ← inner (← argumentTokens rest)
    return .unary f argument
  | _ => none

/-- Reads a logarithm with a base, which is a group in braces or a single token. -/
def readLogarithm (inner : Reader) : List Token → Option Factor
  | ⟨.logBase, span⟩ :: t :: rest =>
    if t.kind = .openCurly then
      match matchingClose (⟨.logBase, span⟩ :: t :: rest) 1 with
      | none => none
      | some stop => do
        let base ← inner (rest.take (stop - 2))
        let antilog ← inner (← argumentTokens (rest.drop (stop - 1)))
        return .logarithm base antilog
    else do
      let base ← inner [t]
      let antilog ← inner (← argumentTokens rest)
      return .logarithm base antilog
  | _ => none

/-- Reads a single letter other than `e`. -/
def readVariable : List Token → Option Factor
  | [⟨.letter name, _⟩] => if name = 'e' then none else some (.variable name none)
  | _ => none

/-- Reads a number, the constant pi, or the constant `e`. -/
def readConstant : List Token → Option Factor
  | [⟨.number x, _⟩] => some (.number x)
  | [⟨.pi, _⟩] => some (.constant .pi)
  | [⟨.letter name, _⟩] => if name = 'e' then some (.constant .e) else none
  | _ => none

/-- Reads a factor of any kind.  The first kind that fits is taken. -/
def readWith (inner : Reader) (tokens : List Token) : Option Factor :=
  readFraction inner tokens <|> readPower inner tokens <|> readCall inner tokens <|>
    readBracket inner tokens <|> readUnary inner tokens <|> readLogarithm inner tokens <|>
    readVariable tokens <|> readConstant tokens

end Factor

end ImplicitCurves

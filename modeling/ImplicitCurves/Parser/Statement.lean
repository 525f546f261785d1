import ImplicitCurves.Parser.Expression
import ImplicitCurves.Tree.Statement

/-!
# Reading statements

Equations, definitions, and lines that can be any of these.
-/

namespace ImplicitCurves

namespace Equation

/-- The tokens before the first equals sign, that sign, and the tokens after it. -/
def splitAssign : List Token → Option (List Token × Token × List Token)
  | [] => none
  | t :: ts =>
    if t.kind = .assign then some ([], t, ts)
    else (splitAssign ts).map fun (lhs, sign, rhs) => (t :: lhs, sign, rhs)

/-- Reads an equation, whose sides are split at the first equals sign. -/
def read (tokens : List Token) : Option Equation := do
  let (lhs, _, rhs) ← splitAssign tokens
  return between (← Expression.read lhs) (← Expression.read rhs)

/-- The error for tokens that are no equation.  If both sides are faulty it is about the one on the
left. -/
def explain (tokens : List Token) : Error :=
  match splitAssign tokens with
  | none => errorAt .missingEquals tokens
  | some (lhs, sign, rhs) =>
    let failing := if (Expression.read lhs).isNone then lhs else rhs
    if failing.isEmpty then ⟨.emptyExpression, [sign.span]⟩
    else Expression.explain failing

end Equation

/-- The error of a definition at the token with the given index, or at the last token if there is
none with that index. -/
def definitionError (tokens : List Token) (index : Nat) (fault : DefinitionFault) : Error :=
  ⟨.invalidDefinition fault, ((tokens[index]?.or tokens.getLast?).map (·.span)).toList⟩

/-- The kind of the token with the given index. -/
def kindAt (tokens : List Token) (index : Nat) : Option TokenKind :=
  tokens[index]?.map (·.kind)

namespace VariableDefinition

/-- Reads a number with an optional sign. -/
def readSigned : List Token → Option Float
  | [⟨.number x, _⟩] => some x
  | [⟨.sub, _⟩, ⟨.number x, _⟩] => some (-x)
  | [⟨.add, _⟩, ⟨.number x, _⟩] => some x
  | _ => none

/-- Reads a definition of a variable, or says what is wrong with it. -/
def readOrExplain (tokens : List Token) : Except Error VariableDefinition :=
  match kindAt tokens 0 with
  | some (.letter name) =>
    if name = 'x' ∨ name = 'y' then .error (definitionError tokens 0 .coordinateDefined)
    else if name = 'e' then .error (definitionError tokens 0 .constantDefined)
    else if kindAt tokens 1 ≠ some .assign then
      .error (definitionError tokens 1 .assignAfterNameExpected)
    else
      match readSigned (tokens.drop 2) with
      | some value => .ok ⟨name, value⟩
      | none => .error (definitionError tokens 2 .numberExpected)
  | _ => .error (definitionError tokens 0 .variableNameExpected)

/-- Reads a definition of a variable. -/
def read (tokens : List Token) : Option VariableDefinition :=
  (readOrExplain tokens).toOption

/-- The error for tokens that are no definition of a variable. -/
def explain (tokens : List Token) : Error :=
  match readOrExplain tokens with
  | .error error => error
  | .ok _ => definitionError tokens 0 .none

end VariableDefinition

namespace FunctionDefinition

/-- What stands in front of the body of a function, and the tokens of the body. -/
structure Header where
  name : Char
  parameters : List Char
  body : List Token

/-- Reads parameters between commas up to the closing parenthesis.  `index` is the index of the
first of the remaining tokens.  Gives the index after the parenthesis and the tokens there. -/
def readParameters (tokens : List Token) (parameters : List Char) (index : Nat) :
    List Token → Except Error (List Char × Nat × List Token)
  | ⟨.letter name, _⟩ :: rest =>
    if name = 'e' then .error (definitionError tokens index .parameterNameExpected)
    else if parameters.contains name then
      .error (definitionError tokens index (.parameterRepeated name))
    else
      match rest with
      | ⟨.comma, _⟩ :: rest => readParameters tokens (parameters ++ [name]) (index + 2) rest
      | ⟨.closeParen, _⟩ :: rest => .ok (parameters ++ [name], index + 2, rest)
      | _ => .error (definitionError tokens (index + 1) .separatorExpected)
  | _ => .error (definitionError tokens index .parameterNameExpected)

/-- Reads what stands in front of the body of a function, or says what is wrong with it. -/
def readHeader (tokens : List Token) : Except Error Header :=
  match kindAt tokens 0 with
  | some (.letter name) =>
    if name = 'e' then .error (definitionError tokens 0 .functionNameExpected)
    else if kindAt tokens 1 ≠ some .openParen then
      .error (definitionError tokens 1 .parenAfterNameExpected)
    else
      match readParameters tokens [] 2 (tokens.drop 2) with
      | .error error => .error error
      | .ok (parameters, index, rest) =>
        match rest with
        | ⟨.assign, _⟩ :: body =>
          if body.isEmpty then .error (definitionError tokens index .bodyMissing)
          else .ok ⟨name, parameters, body⟩
        | _ => .error (definitionError tokens index .assignAfterParametersExpected)
  | _ => .error (definitionError tokens 0 .functionNameExpected)

/-- Reads a definition of a function. -/
def read (tokens : List Token) : Option FunctionDefinition :=
  match readHeader tokens with
  | .error _ => none
  | .ok header => (Expression.read header.body).map (make header.name header.parameters)

/-- The error for tokens that are no definition of a function. -/
def explain (tokens : List Token) : Error :=
  match readHeader tokens with
  | .error error => error
  | .ok header => Expression.explain header.body

end FunctionDefinition

namespace Statement

/-- Whether there is an equals sign. -/
def hasAssign (tokens : List Token) : Bool :=
  tokens.any fun t => t.kind = .assign

/-- Reads a statement: a definition if the tokens are one, else an equation if there is an equals
sign, else an expression. -/
def read (tokens : List Token) : Option Statement :=
  match VariableDefinition.read tokens with
  | some d => some (.variable d)
  | none =>
    match FunctionDefinition.read tokens with
    | some d => some (.function d)
    | none =>
      if hasAssign tokens then (Equation.read tokens).map .equation
      else (Expression.read tokens).map .expression

/-- The error for tokens that are no statement. -/
def explain (tokens : List Token) : Error :=
  if hasAssign tokens then Equation.explain tokens else Expression.explain tokens

end Statement

end ImplicitCurves

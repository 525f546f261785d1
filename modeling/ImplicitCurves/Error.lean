import ImplicitCurves.FunctionKey
import ImplicitCurves.Sampling.Fault
import ImplicitCurves.Session.Command
import ImplicitCurves.Text.Span

/-!
# Errors

Everything that can be wrong with what the user typed, as causes, and the words for each cause: a
message, a label for the marked part of the text, and a hint.
-/

namespace ImplicitCurves

/-- What is wrong with the head of a definition, or with the value of a variable. -/
inductive DefinitionFault where
  | coordinateDefined
  | constantDefined
  | variableNameExpected
  | assignAfterNameExpected
  | numberExpected
  | functionNameExpected
  | parenAfterNameExpected
  | parameterRepeated (name : Char)
  | parameterNameExpected
  | separatorExpected
  | assignAfterParametersExpected
  | bodyMissing
  /-- Nothing is wrong. -/
  | none
deriving DecidableEq, Repr

/-- The fault in words. -/
def DefinitionFault.reason : DefinitionFault → String
  | coordinateDefined => "`x` and `y` are coordinates, and cannot be defined"
  | constantDefined => "`e` is a constant, and cannot be defined"
  | variableNameExpected => "expected the name of the variable"
  | assignAfterNameExpected => "expected `=` after the name"
  | numberExpected => "the value of a variable must be a number"
  | functionNameExpected => "expected the name of the function"
  | parenAfterNameExpected => "expected `(` after the name"
  | parameterRepeated name => "`" ++ String.singleton name ++ "` is already a parameter"
  | parameterNameExpected => "expected the name of a parameter"
  | separatorExpected => "expected `,` or `)` after the parameter"
  | assignAfterParametersExpected => "expected `=` after the parameters"
  | bodyMissing => "the function has no body"
  | none => "this definition is valid"

/-- The cause of an error. -/
inductive Cause where
  /-- A part of the text is not in the notation. -/
  | unrecognizedToken (lexeme : String)
  /-- A delimiter has no partner. -/
  | unclosedGroup (opening : Bool) (delimiter : Char)
  /-- An expression is missing. -/
  | emptyExpression
  /-- A term makes no sense. -/
  | invalidTerm
  /-- An equation has no equals sign. -/
  | missingEquals
  /-- A definition is malformed. -/
  | invalidDefinition (fault : DefinitionFault)
  /-- A function is defined in terms of itself; the chain of calls ends where it starts. -/
  | recursiveFunction (name : Char) (chain : List FunctionKey)
  /-- The equation has not exactly one variable without a value. -/
  | rootPrecondition (unbound : List Char)
  /-- The numbers for a search or a sweep cannot be used. -/
  | invalidSampling (fault : SamplingFault Float)
  /-- A curve uses a variable without a value. -/
  | unsupportedVariable (name : Char)
  /-- A curve without an equals sign uses `y`. -/
  | curveMentionsY
  /-- A curve calls a function that is not defined. -/
  | undefinedFunction (key : FunctionKey)
  /-- A command is used wrongly. -/
  | invalidArguments (command : Command)
deriving DecidableEq

namespace Cause

/-- A character between single quotes.  Quotes, backslashes and control characters are escaped. -/
def quotedChar (c : Char) : String :=
  let body :=
    if c = '\'' then "\\'"
    else if c = '\\' then "\\\\"
    else if c = '\n' then "\\n"
    else if c = '\r' then "\\r"
    else if c = '\t' then "\\t"
    else if c.toNat = 0 then "\\0"
    else if c.toNat < 0x20 ∨ 0x7F ≤ c.toNat ∧ c.toNat < 0xA0 then
      "\\u\x7b" ++ String.ofList (Nat.toDigits 16 c.toNat) ++ "\x7d"
    else String.singleton c
  "'" ++ body ++ "'"

/-- A list of quoted characters in square brackets. -/
def quotedChars (cs : List Char) : String :=
  "[" ++ ", ".intercalate (cs.map quotedChar) ++ "]"

/-- What is wrong, in a few words. -/
def message : Cause → String
  | unrecognizedToken lexeme => "unrecognized input `" ++ lexeme ++ "`"
  | unclosedGroup _ delimiter => "unclosed `" ++ String.singleton delimiter ++ "`"
  | emptyExpression => "missing expression"
  | invalidTerm => "invalid term"
  | missingEquals => "expected an equation"
  | invalidDefinition _ => "invalid definition"
  | recursiveFunction name _ =>
    "function `" ++ String.singleton name ++ "` is defined in terms of itself"
  | rootPrecondition [] => "there is no variable to solve for"
  | rootPrecondition unbound =>
    "cannot solve for " ++ toString unbound.length ++ " variables at once"
  | invalidSampling _ => "invalid sampling options"
  | unsupportedVariable name => "undefined variable `" ++ String.singleton name ++ "`"
  | curveMentionsY => "cannot graph an expression of `y`"
  | undefinedFunction key =>
    "undefined function `" ++ String.singleton key.name ++ "` with " ++ toString key.arity ++
      " argument(s)"
  | invalidArguments command => "invalid arguments to `" ++ command.word ++ "`"

/-- What is said at the marked part of the text. -/
def label : Cause → Option String
  | unrecognizedToken _ => some "I don't know what this means"
  | unclosedGroup true _ => some "this delimiter is never closed"
  | unclosedGroup false _ => some "this delimiter was never opened"
  | emptyExpression => some "add an expression here"
  | invalidTerm => some "I could not make sense of this term"
  | missingEquals => some "there is no `=` in here"
  | invalidDefinition fault => some fault.reason
  | recursiveFunction name _ => some ("this call leads back to `" ++ String.singleton name ++ "`")
  | rootPrecondition _ => some "this equation"
  | invalidSampling _ => none
  | unsupportedVariable _ => some "this variable has no value"
  | curveMentionsY => some "`y` is used here"
  | undefinedFunction _ => some "this function"
  | invalidArguments _ => some "here"

/-- What to do about it. -/
def help : Cause → Option String
  | unrecognizedToken _ =>
    some "only single letters, numbers, operators, and commands like \\frac are understood"
  | unclosedGroup true _ => some "add the matching closing delimiter somewhere after this"
  | unclosedGroup false _ =>
    some "remove it, or add the matching opening delimiter somewhere before this"
  | emptyExpression => none
  | invalidTerm =>
    some
      "check for a missing operand, or write a group like \x7b...\x7d around ambiguous parts"
  | missingEquals => some "write both sides of the equation, like x^2+y^2=1"
  | invalidDefinition _ => some "variables are defined like a=2, functions like f(t)=t^2"
  | recursiveFunction _ chain =>
    some ("the chain of calls is " ++ " -> ".intercalate (chain.map FunctionKey.text))
  | rootPrecondition unbound =>
    some ("give a value to every variable except one; the unbound variables are " ++
      quotedChars unbound)
  | invalidSampling fault => some fault.reason
  | unsupportedVariable name =>
    some ("curves can only use x and y; define it with something like " ++ String.singleton name ++
      "=1")
  | curveMentionsY => some "write the curve as an equation instead, like x=y^2"
  | undefinedFunction key =>
    some ("define it with something like " ++ String.singleton key.name ++ "(t)=t^2")
  | invalidArguments command => some ("usage: " ++ command.usage)

end Cause

/-- An error: its cause and the parts of the text that it is about. -/
structure Error where
  cause : Cause
  spans : List Span
deriving DecidableEq

namespace Error

/-- The error of a text that starts `offset` bytes into a longer one, as an error of the longer
text. -/
def shift (e : Error) (offset : Nat) : Error :=
  { e with spans := e.spans.map (·.shift offset) }

/-- An error of numbers that cannot be used, which has no place in the text. -/
def ofFault (fault : SamplingFault Float) : Error :=
  ⟨.invalidSampling fault, []⟩

end Error

end ImplicitCurves

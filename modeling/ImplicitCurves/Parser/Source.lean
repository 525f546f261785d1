import ImplicitCurves.Parser.Statement
import ImplicitCurves.Token.Lexer

/-!
# Reading texts

A text is cut into tokens, its groups are checked, and then all of its tokens are read as one node.
Readers only say whether they accept the tokens; why they do not is found out afterwards.
-/

namespace ImplicitCurves

/-- A node that can be read from all tokens of a text. -/
class Readable (node : Type) where
  /-- Reads a node that makes up all of the tokens. -/
  read : List Token → Option node
  /-- The error for tokens that are no such node. -/
  explain : List Token → Error
  /-- The text of a node. -/
  text : node → List Char

instance : Readable Expression := ⟨Expression.read, Expression.explain, Expression.text⟩

instance : Readable Equation := ⟨Equation.read, Equation.explain, Equation.text⟩

instance : Readable VariableDefinition :=
  ⟨VariableDefinition.read, VariableDefinition.explain, VariableDefinition.text⟩

instance : Readable FunctionDefinition :=
  ⟨FunctionDefinition.read, FunctionDefinition.explain, FunctionDefinition.text⟩

instance : Readable Statement := ⟨Statement.read, Statement.explain, Statement.text⟩

/-- The tokens of a text whose groups are all closed. -/
def balancedTokens (source : List Char) : Except Error (List Token) := do
  let tokens ← tokenize source
  checkBalanced tokens
  return tokens

/-- Reads a node from the tokens of a text.  A text without tokens misses an expression. -/
def readTokens (node : Type) [Readable node] (source : List Char) (tokens : List Token) :
    Except Error node :=
  if tokens.isEmpty then .error ⟨.emptyExpression, [⟨0, Text.byteLength source⟩]⟩
  else
    match Readable.read tokens with
    | some value => .ok value
    | none => .error (Readable.explain node tokens)

/-- Reads a node from a text. -/
def parse (node : Type) [Readable node] (source : List Char) : Except Error node := do
  readTokens node source (← balancedTokens source)

end ImplicitCurves

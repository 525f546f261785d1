import ImplicitCurves.Decimal.Shortest
import ImplicitCurves.Tree

/-!
# Writing trees

The text of a tree in the notation that the parser reads.  Groups are always written with
parentheses, except for the parts of fractions and the exponents, which are written in braces.
-/

namespace ImplicitCurves

/-- Puts a text between parentheses. -/
def parenthesized (cs : List Char) : List Char :=
  '(' :: cs ++ [')']

/-- Puts a text between curly braces. -/
def braced (cs : List Char) : List Char :=
  '{' :: cs ++ ['}']

/-- The text of a number.  A negative number is put in parentheses, since a sign cannot stand inside
of a product. -/
def numberText (x : Float) : List Char :=
  if Decimal.isNegative x && !x.isNaN then parenthesized ('-' :: Decimal.text (-x))
  else Decimal.text x

/-- The text of a named constant. -/
def NamedConstant.text : NamedConstant → List Char
  | e => ['e']
  | pi => "\\pi".toList

/-- The text between two neighbouring factors that keeps them apart.  A number would run into a
digit in front of it, a variable in front of a parenthesis would be read as a call, and a letter
would run into the command for the constant pi. -/
def separator : Factor → Factor → List Char
  | _, .number _ => "\\cdot ".toList
  | .variable _ _, .bracket _ => "\\cdot ".toList
  | .variable _ _, .call _ _ _ => "\\cdot ".toList
  | .constant .pi, .variable _ _ => [' ']
  | .constant .pi, .call _ _ _ => [' ']
  | .constant .pi, .constant .e => [' ']
  | _, _ => []

/-- The sign in front of an item: a minus if it is negative, a plus only if another item is in front
of it. -/
def signText (first positive : Bool) : List Char :=
  match first, positive with
  | true, true => []
  | false, true => ['+']
  | _, false => ['-']

mutual

/-- The text of an expression.  An expression without items is written as zero. -/
def Expression.text : Expression → List Char
  | ⟨items⟩ => if items.isEmpty then ['0'] else textOfItems true items

/-- The text of items with their signs.  The first one has no plus in front if `first` is set. -/
def textOfItems (first : Bool) : List Item → List Char
  | [] => []
  | i :: is => signText first i.positive ++ i.factorsText ++ textOfItems false is

/-- The text of the factors of an item, without its sign. -/
def Item.factorsText : Item → List Char
  | ⟨_, factors⟩ => textOfFactors none factors

/-- The text of factors, with the text that separates the first from the factor in front of it. -/
def textOfFactors (previous : Option Factor) : List Factor → List Char
  | [] => []
  | f :: fs =>
    (match previous with
      | none => []
      | some p => separator p f) ++ f.text ++ textOfFactors (some f) fs

/-- The text of a factor. -/
def Factor.text : Factor → List Char
  | .number x => numberText x
  | .constant c => c.text
  | .variable name _ => [name]
  | .fraction a b => "\\frac".toList ++ braced a.text ++ braced b.text
  | .power base exponent => base.baseText ++ '^' :: braced exponent.text
  | .bracket a => parenthesized a.text
  | .unary f a => f.command ++ parenthesized a.text
  | .logarithm base antilog => "\\log_".toList ++ braced base.text ++ parenthesized antilog.text
  | .call name arguments _ => name :: parenthesized (textOfArguments true arguments)

/-- The text of the base of a power.  A base of a single positive factor needs no parentheses. -/
def Expression.baseText : Expression → List Char
  | ⟨[⟨true, [f]⟩]⟩ => f.text
  | ⟨items⟩ => parenthesized (if items.isEmpty then ['0'] else textOfItems true items)

/-- The text of arguments, with commas between them. -/
def textOfArguments (first : Bool) : List Expression → List Char
  | [] => []
  | e :: es => (if first then [] else [',']) ++ e.text ++ textOfArguments false es

end

/-- The text of an item on its own. -/
def Item.text (i : Item) : List Char :=
  signText true i.positive ++ i.factorsText

/-- The text of a definition of a function. -/
def FunctionDefinition.text (d : FunctionDefinition) : List Char :=
  d.name :: parenthesized (List.intercalate [','] (d.parameters.map fun p => [p])) ++
    '=' :: d.body.text

end ImplicitCurves

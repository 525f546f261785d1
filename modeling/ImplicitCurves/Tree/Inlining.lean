import ImplicitCurves.Tree.Linking
import ImplicitCurves.Tree.Substitution

/-!
# Inlining

Inlining replaces each call that the table has a definition for by the body of the definition, with
the arguments in place of the parameters.  Arguments are inlined before the call that they belong
to.  Calls without a definition stay.
-/

namespace ImplicitCurves

/-- The inlined body for a call with inlined arguments, if there is a definition. -/
abbrev Expander := FunctionKey → List Expression → Option (Except Error Expression)

mutual

/-- Inlines the calls of an expression.  Nothing is changed after a failure. -/
def Expression.inlineWith (expand : Expander) : Expression → Option Error →
    Expression × Option Error
  | ⟨items⟩, s =>
    let (items, s) := inlineItems expand items s
    (⟨items⟩, s)

/-- Inlines in items, one after another. -/
def inlineItems (expand : Expander) : List Item → Option Error → List Item × Option Error
  | [], s => ([], s)
  | i :: is, s =>
    let (i, s) := i.inlineWith expand s
    let (is, s) := inlineItems expand is s
    (i :: is, s)

/-- Inlines in the factors of an item. -/
def Item.inlineWith (expand : Expander) : Item → Option Error → Item × Option Error
  | ⟨positive, factors⟩, s =>
    let (factors, s) := inlineFactors expand factors s
    (⟨positive, factors⟩, s)

/-- Inlines in factors, one after another. -/
def inlineFactors (expand : Expander) : List Factor → Option Error → List Factor × Option Error
  | [], s => ([], s)
  | f :: fs, s =>
    let (f, s) := f.inlineWith expand s
    let (fs, s) := inlineFactors expand fs s
    (f :: fs, s)

/-- Inlines in the expressions inside a factor, and then the factor itself if it is a call. -/
def Factor.inlineWith (expand : Expander) : Factor → Option Error → Factor × Option Error
  | .number x, s => (.number x, s)
  | .constant c, s => (.constant c, s)
  | .variable name bound, s => (.variable name bound, s)
  | .fraction a b, s =>
    let (a, s) := a.inlineWith expand s
    let (b, s) := b.inlineWith expand s
    (.fraction a b, s)
  | .power a b, s =>
    let (a, s) := a.inlineWith expand s
    let (b, s) := b.inlineWith expand s
    (.power a b, s)
  | .bracket a, s =>
    let (a, s) := a.inlineWith expand s
    (.bracket a, s)
  | .unary f a, s =>
    let (a, s) := a.inlineWith expand s
    (.unary f a, s)
  | .logarithm a b, s =>
    let (a, s) := a.inlineWith expand s
    let (b, s) := b.inlineWith expand s
    (.logarithm a b, s)
  | .call name arguments link, s =>
    let (arguments, s) := inlineExpressions expand arguments s
    match s with
    | some error => (.call name arguments link, some error)
    | none =>
      match expand ⟨name, arguments.length⟩ arguments with
      | none => (.call name arguments link, none)
      | some (.error error) => (.call name arguments link, some error)
      | some (.ok body) => (.bracket body, none)

/-- Inlines in expressions, one after another. -/
def inlineExpressions (expand : Expander) : List Expression → Option Error →
    List Expression × Option Error
  | [], s => ([], s)
  | e :: es, s =>
    let (e, s) := e.inlineWith expand s
    let (es, s) := inlineExpressions expand es s
    (e :: es, s)

end

/-- Puts arguments in the place of parameters, the last one if a parameter is repeated. -/
def bindArguments (parameters : List Char) (arguments : List Expression) : Bindings :=
  (parameters.zip (arguments.map .expression)).reverse

/-- Expands a call while the definitions of `stack` are being inlined.  As in linking, a depth of
the number of definitions outside of the stack is enough. -/
def FunctionTable.expand (table : FunctionTable) :
    (depth : Nat) → (stack : List FunctionKey) → Expander
  | depth, stack, key, arguments =>
    match table.find? key with
    | none => none
    | some d =>
      if stack.contains key then some (.error (recursionError stack key))
      else
        match depth with
        | 0 => none
        | depth + 1 =>
          let body := d.body.substitute (bindArguments d.parameters arguments)
          match body.inlineWith (table.expand depth (stack ++ [key])) none with
          | (body, none) => some (.ok body)
          | (_, some error) => some (.error error)

namespace Expression

/-- Inlines all calls that the table has a definition for, with the error that stopped it, if there
is one. -/
def inline (table : FunctionTable) (e : Expression) : Expression × Option Error :=
  e.inlineWith (table.expand table.size []) none

end Expression

end ImplicitCurves

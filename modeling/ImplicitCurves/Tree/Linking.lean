import ImplicitCurves.Error
import ImplicitCurves.Tree.FunctionTable

/-!
# Linking

Linking gives each call the definition that the table has for it, with a body that is linked in the
same way.  A definition is linked once in a pass and then taken from there.  A definition that leads
back to itself cannot be linked; the tree then keeps the links made up to that point.
-/

namespace ImplicitCurves

/-- The error of a call to `key` while the definitions of `stack`, the outermost first, are being
worked on.  The chain starts where `key` was first called. -/
def recursionError (stack : List FunctionKey) (key : FunctionKey) : Error :=
  ⟨.recursiveFunction key.name (stack.dropWhile (· ≠ key) ++ [key]), []⟩

/-- How far a pass has come: the definitions that are linked, and what made it stop. -/
structure LinkState where
  done : List (FunctionKey × FunctionDefinition)
  failure : Option Error

/-- Looks up the definition for a key, linked. -/
abbrev Resolver := FunctionKey → LinkState → Option FunctionDefinition × LinkState

/-- The link to a definition, if there is one. -/
def Link.of (pass : Nat) : Option FunctionDefinition → Link
  | none => .unlinked
  | some d => .linked pass d

mutual

/-- Links the calls of an expression, each before those in its arguments. -/
def Expression.linkWith (pass : Nat) (resolve : Resolver) : Expression → LinkState →
    Expression × LinkState
  | ⟨items⟩, s =>
    let (items, s) := linkItems pass resolve items s
    (⟨items⟩, s)

/-- Links the calls in items, one after another. -/
def linkItems (pass : Nat) (resolve : Resolver) : List Item → LinkState → List Item × LinkState
  | [], s => ([], s)
  | i :: is, s =>
    let (i, s) := i.linkWith pass resolve s
    let (is, s) := linkItems pass resolve is s
    (i :: is, s)

/-- Links the calls in the factors of an item. -/
def Item.linkWith (pass : Nat) (resolve : Resolver) : Item → LinkState → Item × LinkState
  | ⟨positive, factors⟩, s =>
    let (factors, s) := linkFactors pass resolve factors s
    (⟨positive, factors⟩, s)

/-- Links the calls in factors, one after another. -/
def linkFactors (pass : Nat) (resolve : Resolver) : List Factor → LinkState →
    List Factor × LinkState
  | [], s => ([], s)
  | f :: fs, s =>
    let (f, s) := f.linkWith pass resolve s
    let (fs, s) := linkFactors pass resolve fs s
    (f :: fs, s)

/-- Links a factor if it is a call, and then the calls inside it. -/
def Factor.linkWith (pass : Nat) (resolve : Resolver) : Factor → LinkState → Factor × LinkState
  | .number x, s => (.number x, s)
  | .constant c, s => (.constant c, s)
  | .variable name bound, s => (.variable name bound, s)
  | .fraction a b, s =>
    let (a, s) := a.linkWith pass resolve s
    let (b, s) := b.linkWith pass resolve s
    (.fraction a b, s)
  | .power a b, s =>
    let (a, s) := a.linkWith pass resolve s
    let (b, s) := b.linkWith pass resolve s
    (.power a b, s)
  | .bracket a, s =>
    let (a, s) := a.linkWith pass resolve s
    (.bracket a, s)
  | .unary f a, s =>
    let (a, s) := a.linkWith pass resolve s
    (.unary f a, s)
  | .logarithm a b, s =>
    let (a, s) := a.linkWith pass resolve s
    let (b, s) := b.linkWith pass resolve s
    (.logarithm a b, s)
  | .call name arguments link, s =>
    if s.failure.isSome then (.call name arguments link, s)
    else
      let (definition, s) := resolve ⟨name, arguments.length⟩ s
      if s.failure.isSome then (.call name arguments link, s)
      else
        let (arguments, s) := linkExpressions pass resolve arguments s
        (.call name arguments (.of pass definition), s)

/-- Links the calls in expressions, one after another. -/
def linkExpressions (pass : Nat) (resolve : Resolver) : List Expression → LinkState →
    List Expression × LinkState
  | [], s => ([], s)
  | e :: es, s =>
    let (e, s) := e.linkWith pass resolve s
    let (es, s) := linkExpressions pass resolve es s
    (e :: es, s)

end

/-- Looks up a definition while those of `stack` are being linked.  Each definition that is started
adds its key to the stack, and a key is never added twice, so a depth of the number of definitions
outside of the stack is enough. -/
def FunctionTable.resolve (table : FunctionTable) (pass : Nat) :
    (depth : Nat) → (stack : List FunctionKey) → Resolver
  | depth, stack, key, s =>
    match s.done.lookup key with
    | some d => (some d, s)
    | none =>
      match table.find? key with
      | none => (none, s)
      | some d =>
        if stack.contains key then (none, { s with failure := some (recursionError stack key) })
        else
          match depth with
          | 0 => (none, s)
          | depth + 1 =>
            let (body, s) :=
              d.body.linkWith pass (table.resolve pass depth (stack ++ [key])) s
            if s.failure.isSome then (none, s)
            else
              let d := { d with body }
              (some d, { s with done := (key, d) :: s.done })

mutual

/-- The largest number of a pass that left a link in the tree. -/
def Expression.lastPass : Expression → Nat
  | ⟨items⟩ => lastPassOfItems items

/-- The last pass that made a link in items. -/
def lastPassOfItems : List Item → Nat
  | [] => 0
  | i :: is => max i.lastPass (lastPassOfItems is)

/-- The last pass that made a link in an item. -/
def Item.lastPass : Item → Nat
  | ⟨_, factors⟩ => lastPassOfFactors factors

/-- The last pass that made a link in factors. -/
def lastPassOfFactors : List Factor → Nat
  | [] => 0
  | f :: fs => max f.lastPass (lastPassOfFactors fs)

/-- The last pass that made a link in a factor. -/
def Factor.lastPass : Factor → Nat
  | .number _ | .constant _ | .variable _ _ => 0
  | .fraction a b | .power a b | .logarithm a b => max a.lastPass b.lastPass
  | .bracket a | .unary _ a => a.lastPass
  | .call _ arguments link => max link.pass (lastPassOfExpressions arguments)

/-- The last pass that made a link in expressions. -/
def lastPassOfExpressions : List Expression → Nat
  | [] => 0
  | e :: es => max e.lastPass (lastPassOfExpressions es)

/-- The number of the pass that made a link. -/
def Link.pass : Link → Nat
  | .unlinked => 0
  | .linked pass _ => pass

end

/-- Links expressions one after another in one pass, and gives the error that stopped it, if any. -/
def linkTogether (table : FunctionTable) (pass : Nat) (es : List Expression) :
    List Expression × Option Error :=
  let (es, s) := linkExpressions pass (table.resolve pass table.size []) es ⟨[], none⟩
  (es, s.failure)

/-- Links all calls of some expressions in one pass.  A pass that succeeds replaces every link, so
its links all have number zero.  A pass that fails leaves older links behind its last one; its own
get a number that no link has yet. -/
def linkAll (table : FunctionTable) (es : List Expression) : List Expression × Option Error :=
  match linkTogether table 0 es with
  | (linked, none) => (linked, none)
  | (_, some _) => linkTogether table (lastPassOfExpressions es + 1) es

namespace Expression

/-- Links all calls, with the error that stopped it, if any. -/
def link (table : FunctionTable) (e : Expression) : Expression × Option Error :=
  match linkAll table [e] with
  | ([linked], failure) => (linked, failure)
  | (_, failure) => (e, failure)

/-- The linked expression, or the error that stopped it. -/
def linked (table : FunctionTable) (e : Expression) : Except Error Expression :=
  match e.link table with
  | (e, none) => .ok e
  | (_, some error) => .error error

end Expression

end ImplicitCurves

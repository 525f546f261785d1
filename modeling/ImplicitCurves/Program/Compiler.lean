import ImplicitCurves.Program
import ImplicitCurves.Tree.Equality
import ImplicitCurves.Tree.Equation

/-!
# Compiling

Expressions are turned into code that leaves their value on the stack.  The body of a linked
definition becomes a chunk the first time that a call of it is met, and all calls with the same
link share the chunk.  A call that is not linked becomes an undefined value.
-/

namespace ImplicitCurves

/-- What tells links apart: the pass that made a link and the definition that it is to. -/
structure LinkId where
  pass : Nat
  definition : FunctionDefinition
deriving DecidableEq

/-- What has been compiled so far besides the code of the current chunk: the chunks, the names of
the variables by slot, and the chunks of linked definitions. -/
structure Assembly where
  chunks : Array Chunk
  symbols : List Char
  functions : List (LinkId × Nat)

namespace Assembly

/-- The start: room for the main chunk. -/
def initial : Assembly :=
  ⟨#[⟨0, #[]⟩], [], []⟩

/-- The instruction that loads a variable: a parameter of the current function is an argument, any
other variable has a slot. -/
def load (a : Assembly) (parameters : List Char) (name : Char) : Instruction × Assembly :=
  match slotOf parameters name with
  | some index => (.pushArg index, a)
  | none =>
    let (slot, symbols) := ensureSlot a.symbols name
    (.pushVar slot, { a with symbols })

/-- Makes room for the chunk of a linked definition. -/
def reserve (a : Assembly) (id : LinkId) (arity : Nat) : Assembly :=
  { a with
    chunks := a.chunks.push ⟨arity, #[]⟩
    functions := a.functions ++ [(id, a.chunks.size)] }

/-- Puts code into a chunk. -/
def fill (a : Assembly) (index arity : Nat) (code : List Instruction) : Assembly :=
  { a with chunks := a.chunks.setIfInBounds index ⟨arity, code.toArray⟩ }

end Assembly

mutual

/-- The code of an expression.  `parameters` are those of the function around it. -/
def Expression.compile (parameters : List Char) : Expression → Assembly →
    List Instruction × Assembly
  | ⟨items⟩, a => compileItems parameters true items a

/-- The code of items that are added to or subtracted from what is on the stack.  With `first` there
is nothing on the stack yet: a sum without items is zero, and an item that comes first and is
negative is subtracted from zero. -/
def compileItems (parameters : List Char) (first : Bool) : List Item → Assembly →
    List Instruction × Assembly
  | [], a => (if first then [.pushConst 0] else [], a)
  | i :: is, a =>
    let (code, a) := i.compileProduct parameters a
    let (rest, a) := compileItems parameters false is a
    let code :=
      if first then (if i.positive then code else .pushConst 0 :: code ++ [.sub])
      else code ++ [if i.positive then .add else .sub]
    (code ++ rest, a)

/-- The code of the product of the factors of an item, without its sign. -/
def Item.compileProduct (parameters : List Char) : Item → Assembly → List Instruction × Assembly
  | ⟨_, factors⟩, a => compileFactors parameters true factors a

/-- The code of factors that are multiplied to what is on the stack.  With `first` there is nothing
on the stack yet: a product without factors is one. -/
def compileFactors (parameters : List Char) (first : Bool) : List Factor → Assembly →
    List Instruction × Assembly
  | [], a => (if first then [.pushConst 1] else [], a)
  | f :: fs, a =>
    let (code, a) := f.compile parameters a
    let (rest, a) := compileFactors parameters false fs a
    (code ++ (if first then [] else [.mul]) ++ rest, a)

/-- The code of a factor. -/
def Factor.compile (parameters : List Char) : Factor → Assembly → List Instruction × Assembly
  | .number x, a => ([.pushConst x], a)
  | .constant c, a => ([.pushConst c.value], a)
  | .variable _ (some x), a => ([.pushConst x], a)
  | .variable name none, a =>
    let (i, a) := a.load parameters name
    ([i], a)
  | .fraction x y, a =>
    let (code, a) := x.compile parameters a
    let (code', a) := y.compile parameters a
    (code ++ code' ++ [.div], a)
  | .power x y, a =>
    let (code, a) := x.compile parameters a
    let (code', a) := y.compile parameters a
    (code ++ code' ++ [.pow], a)
  | .bracket x, a => x.compile parameters a
  | .unary f x, a =>
    let (code, a) := x.compile parameters a
    (code ++ [.call (.unary f) 1], a)
  | .logarithm x y, a =>
    let (code, a) := x.compile parameters a
    let (code', a) := y.compile parameters a
    (code ++ code' ++ [.call .logarithm 2], a)
  | .call _ _ .unlinked, a => ([.pushConst (0 / 0)], a)
  | .call _ arguments (.linked pass definition), a =>
    let (code, a) := compileArguments parameters arguments a
    let (index, a) := definition.chunkIndex pass a
    (code ++ [.call (.chunk index) arguments.length], a)

/-- The code of arguments, one after another. -/
def compileArguments (parameters : List Char) : List Expression → Assembly →
    List Instruction × Assembly
  | [], a => ([], a)
  | e :: es, a =>
    let (code, a) := e.compile parameters a
    let (rest, a) := compileArguments parameters es a
    (code ++ rest, a)

/-- The index of the chunk of a linked definition, which is compiled if there is none yet. -/
def FunctionDefinition.chunkIndex (pass : Nat) : FunctionDefinition → Assembly → Nat × Assembly
  | ⟨name, parameters, body, globals⟩, a =>
    let id : LinkId := ⟨pass, ⟨name, parameters, body, globals⟩⟩
    match a.functions.lookup id with
    | some index => (index, a)
    | none =>
      let index := a.chunks.size
      let (code, a) := body.compile parameters (a.reserve id parameters.length)
      (index, a.fill index parameters.length code)

end

/-- The program with the given main code. -/
def Program.ofCode (code : List Instruction) (a : Assembly) : Program :=
  let a := a.fill 0 0 code
  ⟨a.chunks, a.symbols⟩

/-- The program that computes an expression. -/
def Expression.program (e : Expression) : Program :=
  let (code, a) := e.compile [] .initial
  .ofCode code a

/-- The program that computes the difference of the sides of an equation. -/
def Equation.program (eq : Equation) : Program :=
  let (code, a) := eq.lhs.compile [] .initial
  let (code', a) := eq.rhs.compile [] a
  .ofCode (code ++ code' ++ [.sub]) a

end ImplicitCurves

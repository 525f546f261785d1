import ImplicitCurves.Decimal.Shortest
import ImplicitCurves.UnaryFunction

/-!
# Programs

A program is a list of chunks of instructions for a machine with a stack of values.  Chunk zero is
the main one, the others are the bodies of functions.
-/

namespace ImplicitCurves

/-- What a call instruction calls. -/
inductive Callee where
  | unary (f : UnaryFunction)
  /-- The logarithm with a base, which is the first argument. -/
  | logarithm
  /-- The chunk with the given index. -/
  | chunk (index : Nat)
deriving DecidableEq, Repr

/-- An instruction.  Operations take their right operand from the top of the stack. -/
inductive Instruction where
  | pushConst (value : Float)
  /-- Pushes the variable in a slot. -/
  | pushVar (slot : Nat)
  /-- Pushes an argument of the chunk that is running. -/
  | pushArg (index : Nat)
  | add
  | sub
  | mul
  | div
  | pow
  /-- Replaces the `arity` values on top of the stack, the first argument deepest, by the result of
  a call. -/
  | call (callee : Callee) (arity : Nat)
deriving DecidableEq

/-- Instructions that compute one value from `arity` arguments. -/
structure Chunk where
  arity : Nat
  instructions : Array Instruction
deriving DecidableEq

/-- Chunks, and the names of the variables by slot. -/
structure Program where
  chunks : Array Chunk
  symbols : List Char
deriving DecidableEq

/-- The slot of a name in a list of names. -/
def slotOf (symbols : List Char) (name : Char) : Option Nat :=
  symbols.findIdx? (· = name)

/-- The slot of a name, which gets the next free slot if it has none, and the names after that. -/
def ensureSlot (symbols : List Char) (name : Char) : Nat × List Char :=
  match slotOf symbols name with
  | some slot => (slot, symbols)
  | none => (symbols.length, symbols ++ [name])

theorem slotOf_cons (symbols : List Char) (c name : Char) :
    slotOf (c :: symbols) name =
      if c = name then some 0 else (slotOf symbols name).map (· + 1) := by
  simp only [slotOf, List.findIdx?_cons, decide_eq_true_eq]

theorem getElem?_of_slotOf {symbols : List Char} {name : Char} {slot : Nat}
    (h : slotOf symbols name = some slot) : symbols[slot]? = some name := by
  obtain ⟨hlt, hname, -⟩ := List.findIdx?_eq_some_iff_getElem.1 h
  rw [List.getElem?_eq_getElem hlt, of_decide_eq_true hname]

theorem getElem?_ensureSlot (symbols : List Char) (name : Char) :
    (ensureSlot symbols name).2[(ensureSlot symbols name).1]? = some name := by
  unfold ensureSlot
  split
  · next slot hslot => exact getElem?_of_slotOf hslot
  · simp

theorem prefix_ensureSlot (symbols : List Char) (name : Char) :
    symbols <+: (ensureSlot symbols name).2 := by
  unfold ensureSlot
  split
  · exact List.prefix_rfl
  · exact List.prefix_append _ _

namespace Program

/-- The slot of a variable, if the program reads it. -/
def slot (p : Program) (name : Char) : Option Nat :=
  slotOf p.symbols name

/-- The instruction at a place of a chunk. -/
def instruction? (p : Program) (chunk pc : Nat) : Option Instruction :=
  (p.chunks[chunk]?).bind fun c => c.instructions[pc]?

/-- The number of arguments of a chunk, zero if there is no such chunk. -/
def arity (p : Program) (chunk : Nat) : Nat :=
  ((p.chunks[chunk]?).map (·.arity)).getD 0

end Program

end ImplicitCurves

import ImplicitCurves.Environment
import ImplicitCurves.Program

/-!
# The machine

The machine runs a program with a stack of values and a stack of frames.  A frame sees the values
from its base on, which are first of all its arguments.  A run never fails: where a value is
missing, an undefined one takes its place, and a call that cannot be made gives up its arguments for
an undefined value.

There are no jumps, so a run can go on for ever only if a chunk calls itself, directly or through
other chunks.  More frames than chunks show that it does, and the run has no value then.
-/

namespace ImplicitCurves

/-- A chunk that is running: the index of its next instruction, and where its values start on the
stack. -/
structure Frame where
  chunk : Nat
  pc : Nat
  base : Nat
deriving DecidableEq, Repr

/-- What changes during a run: the frames, the innermost first, and the values. -/
structure MachineState (α : Type) where
  frames : List Frame
  stack : Array α

/-- What one step leads to. -/
inductive StepResult (α : Type) where
  | halted (value : α)
  | running (state : MachineState α)

variable {α : Type} [Scalar α]

/-- Takes the top value off, which is undefined if the frame with the given base has none left. -/
def popValue (base : Nat) (stack : Array α) : α × Array α :=
  if base < stack.size then (stack.back?.getD Scalar.undefined, stack.pop)
  else (Scalar.undefined, stack)

/-- Replaces the two values on top by the result of an operation. -/
def binaryOnStack (base : Nat) (op : α → α → α) (stack : Array α) : Array α :=
  let (rhs, stack) := popValue base stack
  let (lhs, stack) := popValue base stack
  stack.push (op lhs rhs)

/-- Takes up to `count` values of a frame off, and puts an undefined one in their place. -/
def discardArguments (base count : Nat) (stack : Array α) : Array α :=
  (stack.take (max (min base stack.size) (stack.size - count))).push Scalar.undefined

/-- Calls a function: either a new frame is started, or the arguments are replaced by a value. -/
def callOnStack (p : Program) (base : Nat) (callee : Callee) (arity : Nat) (stack : Array α) :
    Option Frame × Array α :=
  match callee with
  | .unary f =>
    if arity = 1 then
      let (argument, stack) := popValue base stack
      (none, stack.push (Scalar.apply f argument))
    else (none, discardArguments base arity stack)
  | .logarithm =>
    if arity = 2 then (none, binaryOnStack base Scalar.logarithm stack)
    else (none, discardArguments base arity stack)
  | .chunk index =>
    if base + arity ≤ stack.size ∧ (p.chunks[index]?).map (·.arity) = some arity then
      (some ⟨index, 0, stack.size - arity⟩, stack)
    else (none, discardArguments base arity stack)

/-- Executes an instruction in a frame: the frame that it starts, if any, and the values after
it. -/
def executeInstruction (p : Program) (slots : Array α) (frame : Frame) (stack : Array α) :
    Instruction → Option Frame × Array α
  | .pushConst x => (none, stack.push (Scalar.ofFloat x))
  | .pushVar slot => (none, stack.push (slots[slot]?.getD Scalar.undefined))
  | .pushArg index =>
    let value :=
      if index < p.arity frame.chunk then stack[frame.base + index]?.getD Scalar.undefined
      else Scalar.undefined
    (none, stack.push value)
  | .add => (none, binaryOnStack frame.base (· + ·) stack)
  | .sub => (none, binaryOnStack frame.base (· - ·) stack)
  | .mul => (none, binaryOnStack frame.base (· * ·) stack)
  | .div => (none, binaryOnStack frame.base (· / ·) stack)
  | .pow => (none, binaryOnStack frame.base Scalar.power stack)
  | .call callee arity => callOnStack p frame.base callee arity stack

/-- One step: the next instruction of the innermost frame, or, at the end of its chunk, its return,
which replaces its values by the one on top. -/
def machineStep (p : Program) (slots : Array α) (s : MachineState α) : StepResult α :=
  match s with
  | ⟨[], _⟩ => .halted Scalar.undefined
  | ⟨frame :: frames, stack⟩ =>
    match p.instruction? frame.chunk frame.pc with
    | some i =>
      let (started, stack) := executeInstruction p slots frame stack i
      .running ⟨started.toList ++ { frame with pc := frame.pc + 1 } :: frames, stack⟩
    | none =>
      let (value, stack) := popValue frame.base stack
      let stack := stack.take frame.base
      if frames.isEmpty then .halted value else .running ⟨frames, stack.push value⟩

/-- The number of instructions that a frame still has to execute, and one for its return. -/
def Frame.remaining (p : Program) (f : Frame) : Nat :=
  (((p.chunks[f.chunk]?).map (·.instructions.size)).getD 0 - f.pc) + 1

/-- One more than the number of steps that a single frame can take. -/
def Program.frameBound (p : Program) : Nat :=
  (p.chunks.toList.map (·.instructions.size)).foldr max 0 + 2

/-- The number of frames that a run is allowed to have at a time. -/
def Program.frameLimit (p : Program) : Nat :=
  p.chunks.size + 1

/-- What is left to do, as a number whose digits are the remaining steps of the frames, those of the
outermost frame in front. -/
def remainingSteps (p : Program) : List Frame → Nat
  | [] => 0
  | f :: fs =>
    f.remaining p * Nat.pow p.frameBound (p.frameLimit - (fs.length + 1)) + remainingSteps p fs

theorem size_le_of_mem_chunks {p : Program} {c : Chunk} {k : Nat} (h : p.chunks[k]? = some c) :
    c.instructions.size + 2 ≤ p.frameBound := by
  have hmem : c ∈ p.chunks.toList := by
    rw [← Array.getElem?_toList] at h
    exact List.mem_of_getElem? h
  have : ∀ {cs : List Chunk}, c ∈ cs →
      c.instructions.size ≤ (cs.map (·.instructions.size)).foldr max 0 := by
    intro cs hc
    induction cs with
    | nil => simp at hc
    | cons d ds ih =>
      rcases List.mem_cons.1 hc with rfl | hc
      · simp only [List.map_cons, List.foldr_cons]; omega
      · have := ih hc
        simp only [List.map_cons, List.foldr_cons]; omega
  have := this hmem
  unfold Program.frameBound
  omega

theorem Frame.remaining_lt (p : Program) (f : Frame) : f.remaining p < p.frameBound := by
  unfold Frame.remaining
  cases h : p.chunks[f.chunk]? with
  | none => simp [Program.frameBound]
  | some c =>
    have := size_le_of_mem_chunks h
    simp only [Option.map_some, Option.getD_some]
    omega

theorem Frame.remaining_advance {p : Program} {f : Frame} {i : Instruction}
    (h : p.instruction? f.chunk f.pc = some i) :
    Frame.remaining p { f with pc := f.pc + 1 } + 1 = f.remaining p := by
  unfold Program.instruction? at h
  unfold Frame.remaining
  cases hc : p.chunks[f.chunk]? with
  | none => simp [hc] at h
  | some c =>
    simp only [hc, Option.bind_some] at h
    have := (Array.getElem?_eq_some_iff.1 h).1
    simp only [Option.map_some, Option.getD_some]
    omega

/-- Each step that stays within the limit of frames leaves less to do. -/
theorem remainingSteps_lt {p : Program} {slots : Array α} {s t : MachineState α}
    (h : machineStep p slots s = .running t) (ht : t.frames.length ≤ p.frameLimit) :
    remainingSteps p t.frames < remainingSteps p s.frames := by
  obtain ⟨frames, stack⟩ := s
  cases frames with
  | nil => simp [machineStep] at h
  | cons f fs =>
    simp only [machineStep] at h
    have hpos : 0 < p.frameBound := by unfold Program.frameBound; omega
    have hpow : ∀ n, 0 < Nat.pow p.frameBound n := fun n => Nat.pow_pos hpos
    split at h
    · next i hi =>
      have hadv := Frame.remaining_advance hi
      cases hx : (executeInstruction p slots f stack i).1 with
      | none =>
        simp only [hx, Option.toList_none, List.nil_append, StepResult.running.injEq] at h
        subst h
        simp only [remainingSteps]
        rw [← hadv, Nat.add_mul]
        have := hpow (p.frameLimit - (fs.length + 1))
        omega
      | some g =>
        simp only [hx, Option.toList_some, List.cons_append, List.nil_append,
          StepResult.running.injEq] at h
        subst h
        simp only [List.length_cons] at ht
        simp only [remainingSteps, List.length_cons]
        obtain ⟨d, hd⟩ : ∃ d, p.frameLimit - (fs.length + 1) = d + 1 :=
          ⟨p.frameLimit - (fs.length + 1) - 1, by omega⟩
        have hd' : p.frameLimit - (fs.length + 1 + 1) = d := by omega
        have hsucc : Nat.pow p.frameBound (d + 1) = Nat.pow p.frameBound d * p.frameBound := rfl
        rw [hd, hd', ← hadv, Nat.add_mul, hsucc]
        have hg := Nat.mul_lt_mul_of_pos_right (Frame.remaining_lt p g) (hpow d)
        rw [Nat.mul_comm p.frameBound] at hg
        omega
    · split at h
      · simp at h
      · simp only [StepResult.running.injEq] at h
        subst h
        simp only [remainingSteps]
        have h1 : 0 < f.remaining p := by unfold Frame.remaining; omega
        have := Nat.mul_pos h1 (hpow (p.frameLimit - (fs.length + 1)))
        omega

/-- What a run that ends in a state leaves: its last frame is gone, and so are the values of this
frame. -/
def MachineState.left : MachineState α → MachineState α
  | ⟨[], stack⟩ => ⟨[], stack⟩
  | ⟨frame :: frames, stack⟩ => ⟨frames, (popValue frame.base stack).2.take frame.base⟩

/-- Runs from a state to the end: the value, and what is left.  There is no value if a chunk calls
itself. -/
def runThrough (p : Program) (slots : Array α) (s : MachineState α) :
    Option (α × MachineState α) :=
  match _h : machineStep p slots s with
  | .halted value => some (value, s.left)
  | .running t =>
    if _ht : t.frames.length ≤ p.frameLimit then runThrough p slots t else none
termination_by remainingSteps p s.frames
decreasing_by exact remainingSteps_lt _h _ht

/-- The value of a run from a state to the end. -/
def runFrom (p : Program) (slots : Array α) (s : MachineState α) : Option α :=
  (runThrough p slots s).map (·.1)

namespace Program

/-- The state in which a run starts. -/
def start : MachineState α :=
  ⟨[⟨0, 0, 0⟩], #[]⟩

/-- Runs a program with the given values of the variables, by slot. -/
def run? (p : Program) (slots : Array α) : Option α :=
  runFrom p slots start

/-- The value of a program with the given values of the variables, by slot. -/
def run (p : Program) (slots : Array α) : α :=
  (p.run? slots).getD Scalar.undefined

/-- The values of all variables, none of which has one. -/
def unbound (p : Program) : Array α :=
  (p.symbols.map fun _ => Scalar.undefined).toArray

/-- The values of the variables in an environment. -/
def bind (p : Program) (env : Environment α) : Array α :=
  (p.symbols.map fun name => (env.value? name).getD Scalar.undefined).toArray

/-- Changes the value of a slot.  Nothing happens if there is no such slot. -/
def setSlot (slots : Array α) (slot : Nat) (value : α) : Array α :=
  slots.setIfInBounds slot value

/-- Changes the value of a variable.  Nothing happens if the program does not read it. -/
def setVariable (p : Program) (slots : Array α) (name : Char) (value : α) : Array α :=
  match p.slot name with
  | some slot => setSlot slots slot value
  | none => slots

end Program

/-- A machine: the program that it runs, the values of the variables by slot, and what it has on its
stacks. -/
structure Machine (α : Type) where
  program : Program
  slots : Array α
  state : MachineState α

namespace Machine

/-- A machine that has not run yet.  No variable has a value. -/
def new (p : Program) : Machine α :=
  ⟨p, p.unbound, ⟨[], #[]⟩⟩

/-- Gives all variables their values in an environment. -/
def bind (m : Machine α) (env : Environment α) : Machine α :=
  { m with slots := m.program.bind env }

/-- Changes the value of a slot. -/
def setSlot (m : Machine α) (slot : Nat) (value : α) : Machine α :=
  { m with slots := Program.setSlot m.slots slot value }

/-- Takes away whatever the last run left. -/
def clear (m : Machine α) : Machine α :=
  { m with state := ⟨[], #[]⟩ }

/-- Puts a frame for the main chunk on top. -/
def enterMain (m : Machine α) : Machine α :=
  { m with state := { m.state with frames := ⟨0, 0, 0⟩ :: m.state.frames } }

/-- Runs the program: its value, and the machine after the run. -/
def eval (m : Machine α) : α × Machine α :=
  let m := m.clear.enterMain
  match runThrough m.program m.slots m.state with
  | some (value, state) => (value, { m with state })
  | none => (Scalar.undefined, m)

/-- Runs the program with another value in a slot, if there is one. -/
def evalAt (m : Machine α) (slot : Option Nat) (x : α) : α × Machine α :=
  match slot with
  | some slot => (m.setSlot slot x).eval
  | none => m.eval

omit [Scalar α] in
/-- A run starts the same way, whatever earlier runs left. -/
theorem enterMain_clear (m : Machine α) : m.clear.enterMain = { m with state := Program.start } :=
  rfl

theorem eval_fst (m : Machine α) : m.eval.1 = m.program.run m.slots := by
  unfold eval Program.run Program.run? runFrom
  rw [enterMain_clear]
  dsimp only
  cases runThrough m.program m.slots Program.start <;> rfl

end Machine

/-- The value of a program in an environment. -/
def Program.eval (p : Program) (env : Environment α) : α :=
  ((Machine.new p).bind env).eval.1

theorem Program.eval_eq (p : Program) (env : Environment α) : p.eval env = p.run (p.bind env) :=
  Machine.eval_fst _

end ImplicitCurves

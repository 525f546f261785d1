import ImplicitCurves.Proofs.Program.Run

/-!
# Well-formed programs

In a well-formed program each instruction finds its operands among the values that the code in front
of it in the same chunk has left, each chunk leaves one value, and slots, arguments and callees exist.
These are properties of the code alone.  The machine keeps to them: while it runs a chunk, with the
arguments of the chunk at the bottom, no frame takes what is not its own, and each returns exactly one
value (`Program.WellFormed.keepsFrames`).
-/

namespace ImplicitCurves

open Relation

/-- The number of values that an instruction replaces by one. -/
def Instruction.operands : Instruction → Nat
  | .pushConst _ | .pushVar _ | .pushArg _ => 0
  | .add | .sub | .mul | .div | .pow => 2
  | .call _ arity => arity

/-- The number of values above the arguments of a chunk after code that starts with `height` of them,
if each instruction finds its operands there. -/
def heightAfter (height : Nat) : List Instruction → Option Nat
  | [] => some height
  | i :: is => if i.operands ≤ height then heightAfter (height - i.operands + 1) is else none

theorem heightAfter_append (height : Nat) (code code' : List Instruction) :
    heightAfter height (code ++ code') =
      (heightAfter height code).bind fun height' => heightAfter height' code' := by
  induction code generalizing height with
  | nil => rfl
  | cons i is ih =>
    rw [List.cons_append, heightAfter, heightAfter]
    split
    · exact ih _
    · rfl

/-- If code keeps to the discipline, then so does each part at its front. -/
theorem exists_heightAfter_take {height height' : Nat} {code : List Instruction}
    (h : heightAfter height code = some height') (n : Nat) :
    ∃ between, heightAfter height (code.take n) = some between := by
  rw [← List.take_append_drop n code, heightAfter_append] at h
  obtain ⟨between, hbetween, -⟩ := Option.bind_eq_some_iff.1 h
  exact ⟨between, hbetween⟩

/-- What the next instruction does to the height. -/
theorem heightAfter_take_succ {height height' between n : Nat} {code : List Instruction}
    {i : Instruction} (h : heightAfter height code = some height') (hi : code[n]? = some i)
    (hbetween : heightAfter height (code.take n) = some between) :
    i.operands ≤ between ∧
      heightAfter height (code.take (n + 1)) = some (between - i.operands + 1) := by
  obtain ⟨after, hafter⟩ := exists_heightAfter_take h (n + 1)
  have hsucc : code.take (n + 1) = code.take n ++ [i] := by rw [List.take_add_one, hi]; rfl
  rw [hsucc, heightAfter_append, hbetween, Option.bind_some, heightAfter] at hafter ⊢
  split at hafter
  · next hle => exact ⟨hle, by rw [if_pos hle]; rfl⟩
  · cases hafter

/-- An instruction fits with so many slots, in a chunk of the given arity, if what it refers to exists
and functions are called with as many arguments as they take.  `callable` says this for chunks. -/
def Instruction.Fits (slots arity : Nat) (callable : Nat → Nat → Prop) : Instruction → Prop
  | .pushVar slot => slot < slots
  | .pushArg index => index < arity
  | .call (.unary _) count => count = 1
  | .call .logarithm count => count = 2
  | .call (.chunk index) count => callable index count
  | .pushConst _ | .add | .sub | .mul | .div | .pow => True

theorem Instruction.Fits.mono {slots slots' arity : Nat} {callable callable' : Nat → Nat → Prop}
    (hslots : slots ≤ slots') (hcallable : ∀ index count, callable index count →
      callable' index count) {i : Instruction} (h : i.Fits slots arity callable) :
    i.Fits slots' arity callable' := by
  cases i with
  | pushVar slot => exact Nat.lt_of_lt_of_le h hslots
  | call callee count =>
    cases callee with
    | chunk index => exact hcallable index count h
    | _ => exact h
  | _ => exact h

/-- A chunk other than the main one can be called with as many arguments as it takes. -/
def Program.Callable (p : Program) (index count : Nat) : Prop :=
  0 < index ∧ (p.chunks[index]?).map (·.arity) = some count

/-- The instructions of a chunk fit, find their operands and leave one value. -/
structure Chunk.WellFormed (p : Program) (c : Chunk) : Prop where
  fits : ∀ i ∈ c.instructions, i.Fits p.symbols.length c.arity p.Callable
  height : heightAfter 0 c.instructions.toList = some 1

/-- The chunks are well-formed, the main one takes no arguments, none can reach itself by calls, and
no variable has two slots. -/
structure Program.WellFormed (p : Program) : Prop where
  main : (p.chunks[0]?).map (·.arity) = some 0
  chunks : ∀ c ∈ p.chunks, c.WellFormed p
  acyclic : p.Acyclic
  nodup : p.symbols.Nodup

namespace Program

variable {α : Type} [Scalar α] {p : Program} {slots : Array α}

/-- The number of values that a frame has above its arguments. -/
def height? (p : Program) (f : Frame) : Option Nat :=
  (p.chunks[f.chunk]?).bind fun c => heightAfter 0 (c.instructions.toList.take f.pc)

/-- The frames share a stack of the given size.  The innermost has its arguments and its values at the
top.  The one around it is waiting for a value in place of what is the innermost's. -/
def Shares (p : Program) : List Frame → Nat → Prop
  | [], _ => True
  | f :: fs, size =>
    (∃ height, p.height? f = some height ∧ size = f.base + p.arity f.chunk + height) ∧
      Shares p fs (f.base + 1)

/-- While a chunk runs with its arguments at the bottom of its frame, the innermost frame has the
operands of its next instruction above its arguments, and at the end of its chunk it has exactly one
value there. -/
def KeepsFrames (p : Program) (slots : Array α) : Prop :=
  ∀ chunk base stack, chunk < p.chunks.size → stack.size = base + p.arity chunk →
    ∀ f fs stack', ReflTransGen (p.Step slots) ⟨[⟨chunk, 0, base⟩], stack⟩ ⟨f :: fs, stack'⟩ →
      match p.instruction? f.chunk f.pc with
      | some i => f.base + p.arity f.chunk + i.operands ≤ stack'.size
      | none => stack'.size = f.base + p.arity f.chunk + 1

theorem size_binaryOnStack {base : Nat} {stack : Array α} (h : base + 2 ≤ stack.size)
    (op : α → α → α) : (binaryOnStack base op stack).size = stack.size - 2 + 1 := by
  have hfirst : base < stack.size := by omega
  have hsecond : base < stack.size - 1 := by omega
  simp only [binaryOnStack, popValue, if_pos hfirst, if_pos hsecond, Array.size_push, Array.size_pop]
  omega

/-- An instruction that fits and has room for its operands replaces them by one value, or starts a
frame that has them as its arguments. -/
theorem size_executeInstruction (slots : Array α) {frame : Frame} {stack : Array α} {arity : Nat}
    {i : Instruction} (hfits : i.Fits p.symbols.length arity p.Callable)
    (hroom : frame.base + i.operands ≤ stack.size) :
    ((executeInstruction p slots frame stack i).1 = none ∧
      (executeInstruction p slots frame stack i).2.size = stack.size - i.operands + 1) ∨
    ∃ chunk, executeInstruction p slots frame stack i =
      (some ⟨chunk, 0, stack.size - i.operands⟩, stack) ∧
        (p.chunks[chunk]?).map (·.arity) = some i.operands := by
  cases i with
  | pushConst x => exact .inl ⟨rfl, Array.size_push _⟩
  | pushVar slot => exact .inl ⟨rfl, Array.size_push _⟩
  | pushArg index => exact .inl ⟨rfl, Array.size_push _⟩
  | add => exact .inl ⟨rfl, size_binaryOnStack hroom _⟩
  | sub => exact .inl ⟨rfl, size_binaryOnStack hroom _⟩
  | mul => exact .inl ⟨rfl, size_binaryOnStack hroom _⟩
  | div => exact .inl ⟨rfl, size_binaryOnStack hroom _⟩
  | pow => exact .inl ⟨rfl, size_binaryOnStack hroom _⟩
  | call callee count =>
    cases callee with
    | unary f =>
      obtain rfl : count = 1 := hfits
      have hlt : frame.base < stack.size := hroom
      refine .inl ⟨rfl, ?_⟩
      simp [executeInstruction, callOnStack, popValue, if_pos hlt, Instruction.operands]
    | logarithm =>
      obtain rfl : count = 2 := hfits
      exact .inl ⟨rfl, size_binaryOnStack hroom _⟩
    | chunk index =>
      have hcall : frame.base + count ≤ stack.size ∧
          (p.chunks[index]?).map (·.arity) = some count := ⟨hroom, hfits.2⟩
      refine .inr ⟨index, ?_, hfits.2⟩
      simp only [executeInstruction, callOnStack, if_pos hcall, Instruction.operands]

theorem arity_of_map {chunk n : Nat} (h : (p.chunks[chunk]?).map (·.arity) = some n) :
    p.arity chunk = n := by
  rw [arity, h, Option.getD_some]

/-- In a well-formed program the height tells what the next instruction finds, or that the chunk is at
its end. -/
theorem WellFormed.height_cases (hp : p.WellFormed) {f : Frame} {height : Nat}
    (h : p.height? f = some height) :
    (∃ i, p.instruction? f.chunk f.pc = some i ∧
      i.Fits p.symbols.length (p.arity f.chunk) p.Callable ∧ i.operands ≤ height ∧
        p.height? { f with pc := f.pc + 1 } = some (height - i.operands + 1)) ∨
    (p.instruction? f.chunk f.pc = none ∧ height = 1) := by
  obtain ⟨c, hchunk, hheight⟩ := Option.bind_eq_some_iff.1 h
  have hc := hp.chunks c (Array.mem_of_getElem? hchunk)
  have harity : p.arity f.chunk = c.arity := arity_of_map (by rw [hchunk]; rfl)
  have hinstruction : p.instruction? f.chunk f.pc = c.instructions.toList[f.pc]? := by
    simp [instruction?, hchunk]
  cases hi : c.instructions.toList[f.pc]? with
  | some i =>
    obtain ⟨hle, hnext⟩ := heightAfter_take_succ hc.height hi hheight
    have hmem : i ∈ c.instructions := Array.mem_toList_iff.1 (List.mem_of_getElem? hi)
    refine .inl ⟨i, hinstruction.trans hi, harity ▸ hc.fits i hmem, hle, ?_⟩
    simp only [height?, hchunk, Option.bind_some, hnext]
  | none =>
    have hend := List.getElem?_eq_none_iff.1 hi
    rw [List.take_of_length_le hend, hc.height] at hheight
    exact .inr ⟨hinstruction.trans hi, (Option.some.inj hheight).symm⟩

/-- A step keeps the stack shared. -/
theorem WellFormed.shares_step (hp : p.WellFormed) {s t : MachineState α}
    (hs : p.Shares s.frames s.stack.size) (h : p.Step slots s t) :
    p.Shares t.frames t.stack.size := by
  obtain ⟨frames, stack⟩ := s
  cases frames with
  | nil => simp [Step, machineStep] at h
  | cons f fs =>
    obtain ⟨⟨height, hheight, hsize⟩, hrest⟩ := hs
    simp only [Step, machineStep] at h
    dsimp only at hsize
    rcases hp.height_cases hheight with ⟨i, hi, hfits, hoperands, hnext⟩ | ⟨hend, rfl⟩
    · rw [hi] at h
      have hroom : f.base + i.operands ≤ stack.size := by omega
      rcases size_executeInstruction slots hfits hroom with
        ⟨hnone, hsize'⟩ | ⟨chunk, hstarted, harity⟩
      · simp only [hnone, Option.toList_none, List.nil_append, StepResult.running.injEq] at h
        subst h
        exact ⟨⟨_, hnext, by dsimp only; omega⟩, hrest⟩
      · simp only [hstarted, Option.toList_some, List.cons_append, List.nil_append,
          StepResult.running.injEq] at h
        subst h
        obtain ⟨c, hc, -⟩ := Option.map_eq_some_iff.1 harity
        have hstart : p.height? ⟨chunk, 0, stack.size - i.operands⟩ = some 0 := by
          simp [height?, hc, heightAfter]
        have harity' := arity_of_map harity
        exact ⟨⟨0, hstart, by dsimp only; omega⟩, ⟨_, hnext, by dsimp only; omega⟩, hrest⟩
    · rw [hend] at h
      have hlt : f.base < stack.size := by omega
      simp only [popValue, if_pos hlt] at h
      split at h
      · cases h
      · simp only [StepResult.running.injEq] at h
        subst h
        have hsize' : ((stack.pop.take f.base).push (stack.back?.getD Scalar.undefined)).size =
            f.base + 1 := by
          rw [Array.size_push, Array.take_eq_extract, Array.size_extract, Array.size_pop]
          omega
        rw [hsize']
        exact hrest

/-- A run keeps the stack shared. -/
theorem WellFormed.shares_run (hp : p.WellFormed) {s t : MachineState α}
    (hs : p.Shares s.frames s.stack.size) (h : ReflTransGen (p.Step slots) s t) :
    p.Shares t.frames t.stack.size := by
  induction h with
  | refl => exact hs
  | tail _ hstep ih => exact hp.shares_step ih hstep

/-- Well-formed programs keep their frames, whichever chunk the machine starts with and whatever is
below its arguments. -/
theorem WellFormed.keepsFrames (hp : p.WellFormed) : p.KeepsFrames slots := by
  intro chunk base stack hchunk hsize f fs stack' hrun
  have hstart : p.height? ⟨chunk, 0, base⟩ = some 0 := by
    simp [height?, Array.getElem?_eq_getElem hchunk, heightAfter]
  obtain ⟨⟨height, hheight, hsize'⟩, -⟩ :=
    hp.shares_run (s := ⟨[⟨chunk, 0, base⟩], stack⟩) ⟨⟨0, hstart, hsize⟩, trivial⟩ hrun
  dsimp only at hsize'
  rcases hp.height_cases hheight with ⟨i, hi, -, hoperands, -⟩ | ⟨hend, rfl⟩
  · rw [hi]
    dsimp only
    omega
  · rw [hend]
    exact hsize'

end Program

end ImplicitCurves

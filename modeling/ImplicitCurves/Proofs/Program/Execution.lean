import ImplicitCurves.Proofs.Program.Run

/-!
# Execution of code

What a piece of code does to the stack wherever it stands in a chunk and whatever frames are outside
of the one that runs it.  Pieces of code are put together with `Executes.append`, and there is one
lemma for each instruction.
-/

namespace ImplicitCurves

open Relation

variable {α : Type} [Scalar α]

namespace Program

/-- The code stands in a chunk from `pc` on. -/
def HasCode (p : Program) (chunk pc : Nat) (code : List Instruction) : Prop :=
  ∀ i < code.length, p.instruction? chunk (pc + i) = code[i]?

/-- Wherever the code stands in the chunk, the machine runs through it and changes the stack from
one to the other. -/
def Executes (p : Program) (slots : Array α) (chunk base : Nat) (code : List Instruction)
    (stack stack' : Array α) : Prop :=
  ∀ pc frames, p.HasCode chunk pc code →
    ReflTransGen (p.Step slots) ⟨⟨chunk, pc, base⟩ :: frames, stack⟩
      ⟨⟨chunk, pc + code.length, base⟩ :: frames, stack'⟩

variable {p : Program} {slots : Array α} {chunk base : Nat}

theorem HasCode.left {pc : Nat} {code code' : List Instruction}
    (h : p.HasCode chunk pc (code ++ code')) : p.HasCode chunk pc code := by
  intro i hi
  rw [h i (by rw [List.length_append]; omega), List.getElem?_append_left hi]

theorem HasCode.right {pc : Nat} {code code' : List Instruction}
    (h : p.HasCode chunk pc (code ++ code')) : p.HasCode chunk (pc + code.length) code' := by
  intro i hi
  have hfull := h (code.length + i) (by rw [List.length_append]; omega)
  rw [List.getElem?_append_right (Nat.le_add_right _ _), Nat.add_sub_cancel_left] at hfull
  rw [Nat.add_assoc, hfull]

theorem HasCode.first {pc : Nat} {i : Instruction} (h : p.HasCode chunk pc [i]) :
    p.instruction? chunk pc = some i := by
  simpa using h 0 (by simp)

/-- A chunk has its own code from its start. -/
theorem hasCode_of_getElem? {arity : Nat} {code : List Instruction}
    (h : p.chunks[chunk]? = some ⟨arity, code.toArray⟩) : p.HasCode chunk 0 code := by
  intro i _
  simp [instruction?, h]

theorem Executes.nil (stack : Array α) : p.Executes slots chunk base [] stack stack :=
  fun _ _ _ => .refl

/-- Code runs after code. -/
theorem Executes.append {code code' : List Instruction} {stack stack' stack'' : Array α}
    (h : p.Executes slots chunk base code stack stack')
    (h' : p.Executes slots chunk base code' stack' stack'') :
    p.Executes slots chunk base (code ++ code') stack stack'' := by
  intro pc frames hcode
  have hrest := h' (pc + code.length) frames hcode.right
  rw [List.length_append, ← Nat.add_assoc]
  exact (h pc frames hcode.left).trans hrest

/-- An instruction that starts no frame changes the stack in one step. -/
theorem executes_single {i : Instruction} {stack stack' : Array α}
    (h : ∀ pc, executeInstruction p slots ⟨chunk, pc, base⟩ stack i = (none, stack')) :
    p.Executes slots chunk base [i] stack stack' := by
  intro pc frames hcode
  refine .single ?_
  simp [Step, machineStep, hcode.first, h]

theorem executes_pushConst (x : Float) (stack : Array α) :
    p.Executes slots chunk base [.pushConst x] stack (stack.push (Scalar.ofFloat x)) :=
  executes_single fun _ => rfl

theorem executes_pushVar {slot : Nat} {value : α} (h : slots[slot]? = some value)
    (stack : Array α) : p.Executes slots chunk base [.pushVar slot] stack (stack.push value) :=
  executes_single fun _ => by simp [executeInstruction, h]

theorem executes_pushArg {index : Nat} {value : α} {stack : Array α}
    (hindex : index < p.arity chunk) (h : stack[base + index]? = some value) :
    p.Executes slots chunk base [.pushArg index] stack (stack.push value) :=
  executes_single fun _ => by simp [executeInstruction, hindex, h]

/-- A value of the frame is taken off the stack again. -/
theorem popValue_push {stack : Array α} (h : base ≤ stack.size) (value : α) :
    popValue base (stack.push value) = (value, stack) := by
  have hlt : base < (stack.push value).size := by rw [Array.size_push]; omega
  rw [popValue, if_pos hlt]
  simp

theorem binaryOnStack_push {stack : Array α} (h : base ≤ stack.size) (op : α → α → α)
    (lhs rhs : α) :
    binaryOnStack base op ((stack.push lhs).push rhs) = stack.push (op lhs rhs) := by
  have hlhs : base ≤ (stack.push lhs).size := by rw [Array.size_push]; omega
  simp only [binaryOnStack, popValue_push hlhs, popValue_push h]

/-- The operation that an instruction applies to the two values on top of the stack. -/
def binaryOperation : Instruction → Option (α → α → α)
  | .add => some (· + ·)
  | .sub => some (· - ·)
  | .mul => some (· * ·)
  | .div => some (· / ·)
  | .pow => some Scalar.power
  | .call .logarithm 2 => some Scalar.logarithm
  | _ => none

theorem executes_binary {i : Instruction} {op : α → α → α} (hi : binaryOperation i = some op)
    {stack : Array α} (h : base ≤ stack.size) (lhs rhs : α) :
    p.Executes slots chunk base [i] ((stack.push lhs).push rhs) (stack.push (op lhs rhs)) := by
  refine executes_single fun pc => ?_
  unfold binaryOperation at hi
  split at hi
  case h_7 => simp at hi
  all_goals
    obtain rfl := Option.some.inj hi
    simp [executeInstruction, callOnStack, binaryOnStack_push h]

theorem executes_unary {stack : Array α} (h : base ≤ stack.size) (f : UnaryFunction)
    (argument : α) : p.Executes slots chunk base [.call (.unary f) 1] (stack.push argument)
      (stack.push (Scalar.apply f argument)) :=
  executes_single fun _ => by
    simp [executeInstruction, callOnStack, popValue_push h]

/-- A call of a chunk whose code leaves one value more than it starts with.  `full` is the stack with
the arguments on it. -/
theorem executes_call {index arity : Nat} {code : List Instruction} {stack full : Array α} {value : α}
    (hbase : base ≤ stack.size) (hsize : full.size = stack.size + arity)
    (htake : full.take stack.size = stack)
    (hchunk : p.chunks[index]? = some ⟨arity, code.toArray⟩)
    (hcode : p.Executes slots index stack.size code full (full.push value)) :
    p.Executes slots chunk base [.call (.chunk index) arity] full (stack.push value) := by
  intro pc frames hcall
  have hfits : base + arity ≤ full.size ∧ (p.chunks[index]?).map (·.arity) = some arity := by
    rw [hchunk]
    exact ⟨by omega, rfl⟩
  have hstart : p.Step slots ⟨⟨chunk, pc, base⟩ :: frames, full⟩
      ⟨⟨index, 0, stack.size⟩ :: ⟨chunk, pc + 1, base⟩ :: frames, full⟩ := by
    have hbottom : full.size - arity = stack.size := by omega
    simp only [Step, machineStep, hcall.first, executeInstruction, callOnStack, if_pos hfits,
      hbottom, Option.toList_some, List.cons_append, List.nil_append]
  have hbody := hcode 0 (⟨chunk, pc + 1, base⟩ :: frames) (hasCode_of_getElem? hchunk)
  have hreturn : p.Step slots
      ⟨⟨index, 0 + code.length, stack.size⟩ :: ⟨chunk, pc + 1, base⟩ :: frames, full.push value⟩
      ⟨⟨chunk, pc + 1, base⟩ :: frames, stack.push value⟩ := by
    have hend : p.instruction? index (0 + code.length) = none := by simp [instruction?, hchunk]
    have hbelow : stack.size ≤ full.size := by omega
    simp only [Step, machineStep, hend, popValue_push hbelow, List.isEmpty_cons, Bool.false_eq_true,
      if_false, htake]
  exact (ReflTransGen.head hstart hbody).tail hreturn

/-- A call of a chunk with too few or too many arguments gives them up for an undefined value. -/
theorem executes_misfit {index count : Nat} {callee : Chunk} {stack full : Array α}
    (hbase : base ≤ stack.size) (hsize : full.size = stack.size + count)
    (htake : full.take stack.size = stack) (hchunk : p.chunks[index]? = some callee)
    (hcount : callee.arity ≠ count) :
    p.Executes slots chunk base [.call (.chunk index) count] full
      (stack.push Scalar.undefined) := by
  refine executes_single fun pc => ?_
  have hmisfit : ¬ (base + count ≤ full.size ∧
      (p.chunks[index]?).map (·.arity) = some count) := by
    rintro ⟨-, harity⟩
    rw [hchunk] at harity
    exact hcount (Option.some.inj harity)
  have hkept : max (min base full.size) (full.size - count) = stack.size := by omega
  simp only [executeInstruction, callOnStack, if_neg hmisfit, discardArguments, hkept, htake]

end Program

end ImplicitCurves

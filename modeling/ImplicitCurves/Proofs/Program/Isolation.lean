import ImplicitCurves.Proofs.Program.Run

/-!
# Isolation of frames

What a frame does depends on its chunk, on its values and on the variables alone.  To say so, a state
is put over other frames and values: the steps of the machine from there are the steps from the state
itself, until the outermost frame of the state returns.  Hence a frame leaves the values below its
base alone, and its return replaces its arguments by one value.  All this holds of any program
whatsoever.
-/

namespace ImplicitCurves

open Relation

variable {α : Type} [Scalar α]

/-- The frame with its base moved up the stack. -/
def Frame.raise (n : Nat) (f : Frame) : Frame :=
  { f with base := n + f.base }

omit [Scalar α] in
/-- The state with frames outside of its own and values below its own. -/
def MachineState.over (s : MachineState α) (outer : List Frame) (below : Array α) :
    MachineState α :=
  ⟨s.frames.map (Frame.raise below.size) ++ outer, below ++ s.stack⟩

section Stack

variable {base : Nat} {below stack : Array α}

omit [Scalar α] in
/-- What is taken from above is taken from the upper values. -/
theorem take_append (below stack : Array α) (n : Nat) :
    (below ++ stack).take (below.size + n) = below ++ stack.take n := by
  simp only [Array.take_eq_extract, Array.extract_append, Nat.zero_sub, Nat.add_sub_cancel_left]
  rw [Array.extract_eq_self_of_le (Nat.le_add_right _ _)]

theorem popValue_append (base : Nat) (below stack : Array α) :
    popValue (below.size + base) (below ++ stack) =
      ((popValue base stack).1, below ++ (popValue base stack).2) := by
  unfold popValue
  rw [Array.size_append]
  by_cases h : base < stack.size
  · have hne : stack.isEmpty = false := by
      rw [Array.isEmpty_eq_false_iff]
      rintro rfl
      exact absurd h (Nat.not_lt_zero _)
    obtain ⟨top, htop⟩ : ∃ top, stack.back? = some top := by
      rw [Array.back?_eq_getElem?]
      exact ⟨_, Array.getElem?_eq_getElem (by omega)⟩
    rw [if_pos h, if_pos (by omega), Array.back?_append, Array.pop_append, hne, htop]
    rfl
  · rw [if_neg h, if_neg (by omega)]

theorem binaryOnStack_append (op : α → α → α) :
    binaryOnStack (below.size + base) op (below ++ stack) =
      below ++ binaryOnStack base op stack := by
  simp only [binaryOnStack, popValue_append, Array.append_push]

theorem discardArguments_append (count : Nat) :
    discardArguments (below.size + base) count (below ++ stack) =
      below ++ discardArguments base count stack := by
  have hkept : max (min (below.size + base) (below ++ stack).size) ((below ++ stack).size - count) =
      below.size + max (min base stack.size) (stack.size - count) := by
    rw [Array.size_append]
    omega
  rw [discardArguments, discardArguments, hkept, take_append, Array.append_push]

end Stack

/-- An instruction does not see what is outside of its frame. -/
theorem executeInstruction_over (p : Program) (slots : Array α) (f : Frame) (below stack : Array α)
    (i : Instruction) : executeInstruction p slots (f.raise below.size) (below ++ stack) i =
      ((executeInstruction p slots f stack i).1.map (Frame.raise below.size),
        below ++ (executeInstruction p slots f stack i).2) := by
  cases i with
  | pushConst x => exact Prod.ext rfl Array.append_push.symm
  | pushVar slot => exact Prod.ext rfl Array.append_push.symm
  | pushArg index =>
    have hargument : (below ++ stack)[below.size + f.base + index]? = stack[f.base + index]? := by
      rw [Array.getElem?_append_right (by omega)]
      congr 1
      omega
    simp only [executeInstruction, Frame.raise, hargument, Array.append_push, Option.map_none]
  | add => exact Prod.ext rfl (binaryOnStack_append _)
  | sub => exact Prod.ext rfl (binaryOnStack_append _)
  | mul => exact Prod.ext rfl (binaryOnStack_append _)
  | div => exact Prod.ext rfl (binaryOnStack_append _)
  | pow => exact Prod.ext rfl (binaryOnStack_append _)
  | call callee arity =>
    cases callee with
    | unary g =>
      simp only [executeInstruction, callOnStack, Frame.raise]
      split
      · simp only [popValue_append, Array.append_push, Option.map_none]
      · simp only [discardArguments_append, Option.map_none]
    | logarithm =>
      simp only [executeInstruction, callOnStack, Frame.raise]
      split
      · simp only [binaryOnStack_append, Option.map_none]
      · simp only [discardArguments_append, Option.map_none]
    | chunk index =>
      have hfits : below.size + f.base + arity ≤ (below ++ stack).size ↔
          f.base + arity ≤ stack.size := by
        rw [Array.size_append]
        omega
      simp only [executeInstruction, callOnStack, Frame.raise, hfits]
      split
      · next hcall =>
        have hbottom : (below ++ stack).size - arity = below.size + (stack.size - arity) := by
          rw [Array.size_append]
          omega
        simp only [hbottom, Option.map_some, Frame.raise]
      · simp only [discardArguments_append, Option.map_none]

namespace MachineState

omit [Scalar α]

variable {s : MachineState α}

/-- The outermost frame starts at the bottom of the stack. -/
def Grounded (s : MachineState α) : Prop :=
  ∃ inner f, s.frames = inner ++ [f] ∧ f.base = 0

theorem Grounded.ne_nil (h : s.Grounded) : s.frames ≠ [] := by
  obtain ⟨inner, f, hframes, -⟩ := h
  rw [hframes]
  exact List.append_ne_nil_of_right_ne_nil _ (List.cons_ne_nil _ _)

end MachineState

namespace Program

variable {p : Program} {slots : Array α} {s t u : MachineState α} {outer : List Frame}
  {below : Array α}

/-- What a step does: an instruction, which may start a frame, or the return of a frame that is not
the outermost. -/
theorem step_cases (h : p.Step slots s t) : ∃ f fs, s.frames = f :: fs ∧
    ((∃ i, p.instruction? f.chunk f.pc = some i ∧
      t.frames = (executeInstruction p slots f s.stack i).1.toList ++ { f with pc := f.pc + 1 } :: fs ∧
        t.stack = (executeInstruction p slots f s.stack i).2) ∨
    (p.instruction? f.chunk f.pc = none ∧ fs ≠ [] ∧ t.frames = fs ∧
      t.stack = ((popValue f.base s.stack).2.take f.base).push (popValue f.base s.stack).1)) := by
  obtain ⟨frames, stack⟩ := s
  cases frames with
  | nil => simp [Step, machineStep] at h
  | cons f fs =>
    refine ⟨f, fs, rfl, ?_⟩
    simp only [Step, machineStep] at h
    split at h
    · next i hi =>
      simp only [StepResult.running.injEq] at h
      subst h
      exact .inl ⟨i, hi, rfl, rfl⟩
    · next hend =>
      split at h
      · exact absurd h (by simp)
      · next hne =>
        simp only [StepResult.running.injEq] at h
        subst h
        exact .inr ⟨hend, fun hnil => hne (by rw [hnil]; rfl), rfl, rfl⟩

/-- A run halts with the value on top when the outermost frame, which is the only one then, is at the
end of its chunk. -/
theorem halted_cases {value : α} (h : machineStep p slots s = .halted value) (hs : s.frames ≠ []) :
    ∃ f, s.frames = [f] ∧ p.instruction? f.chunk f.pc = none ∧
      value = (popValue f.base s.stack).1 := by
  obtain ⟨frames, stack⟩ := s
  cases frames with
  | nil => exact absurd rfl hs
  | cons f fs =>
    simp only [machineStep] at h
    split at h
    · exact absurd h (by simp)
    · next hend =>
      split at h
      · next hempty =>
        simp only [StepResult.halted.injEq] at h
        obtain rfl := List.isEmpty_iff.1 hempty
        exact ⟨f, rfl, hend, h.symm⟩
      · exact absurd h (by simp)

/-- A step keeps a frame at the bottom of the stack. -/
theorem Step.grounded (h : p.Step slots s t) (hs : s.Grounded) : t.Grounded := by
  obtain ⟨f, fs, hframes, hcases⟩ := step_cases h
  obtain ⟨inner, g, hinner, hbase⟩ := hs
  rw [hframes] at hinner
  rcases hcases with ⟨i, -, ht, -⟩ | ⟨-, hne, ht, -⟩
  · cases inner with
    | nil =>
      obtain ⟨rfl, rfl⟩ := List.cons.inj hinner
      exact ⟨_, _, ht, hbase⟩
    | cons f' inner =>
      obtain ⟨rfl, rfl⟩ := List.cons.inj hinner
      refine ⟨(executeInstruction p slots f s.stack i).1.toList ++
        { f with pc := f.pc + 1 } :: inner, g, ?_, hbase⟩
      rw [ht, List.append_assoc]
      rfl
  · cases inner with
    | nil => exact absurd (List.cons.inj hinner).2 hne
    | cons f' inner => exact ⟨inner, g, ht.trans (List.cons.inj hinner).2, hbase⟩

/-- A step is the same over other frames and values. -/
theorem Step.over (h : p.Step slots s t) (outer : List Frame) (below : Array α) :
    p.Step slots (s.over outer below) (t.over outer below) := by
  obtain ⟨f, fs, hframes, hcases⟩ := step_cases h
  obtain ⟨frames, stack⟩ := s
  obtain ⟨frames', stack'⟩ := t
  dsimp only at hframes hcases
  subst hframes
  rcases hcases with ⟨i, hi, rfl, rfl⟩ | ⟨hend, hne, rfl, rfl⟩
  · have hi' : p.instruction? (f.raise below.size).chunk (f.raise below.size).pc = some i := hi
    have hstarted : ∀ started : Option Frame,
        (started.map (Frame.raise below.size)).toList = started.toList.map (Frame.raise below.size) := by
      intro started
      cases started <;> rfl
    simp only [Step, MachineState.over, List.map_cons, List.cons_append, machineStep, hi',
      executeInstruction_over, List.map_append, List.append_assoc, hstarted]
    rfl
  · have hend' : p.instruction? (f.raise below.size).chunk (f.raise below.size).pc = none := hend
    have hempty : (frames'.map (Frame.raise below.size) ++ outer).isEmpty = false := by
      cases frames' with
      | nil => exact absurd rfl hne
      | cons g gs => rfl
    simp only [Step, MachineState.over, List.map_cons, List.cons_append, machineStep, hend', hempty]
    rw [Frame.raise, popValue_append, take_append, Array.append_push]
    rfl

/-- Where a run would halt, a frame returns to the frames outside of it. -/
theorem returns_of_halted {value : α} (h : machineStep p slots s = .halted value) (hs : s.Grounded)
    (houter : outer ≠ []) (below : Array α) : p.Step slots (s.over outer below) ⟨outer, below.push value⟩ := by
  obtain ⟨f, hframes, hend, rfl⟩ := halted_cases h hs.ne_nil
  obtain ⟨inner, g, hinner, hbase⟩ := hs
  rw [hframes] at hinner
  obtain ⟨rfl, hg⟩ := List.append_eq_singleton_iff.1 hinner.symm |>.resolve_right (by simp)
  obtain rfl := List.cons.inj hg |>.1
  obtain ⟨frames, stack⟩ := s
  dsimp only at hframes
  subst hframes
  have hend' : p.instruction? (g.raise below.size).chunk (g.raise below.size).pc = none := hend
  have hempty : outer.isEmpty = false := by
    cases outer with
    | nil => exact absurd rfl houter
    | cons g gs => rfl
  have hbelow : ∀ rest : Array α, (below ++ rest).take (below.size + 0) = below := by
    intro rest
    rw [take_append]
    simp
  simp only [Step, MachineState.over, List.map_cons, List.cons_append, machineStep, hend', hempty,
    List.map_nil, List.nil_append]
  rw [Frame.raise, hbase, popValue_append, hbelow]
  rfl

/-- Over other frames there are no other steps than these. -/
theorem step_over_cases (h : p.Step slots (s.over outer below) u) (hs : s.Grounded)
    (houter : outer ≠ []) :
    (∃ t, p.Step slots s t ∧ u = t.over outer below) ∨
      ∃ value, machineStep p slots s = .halted value ∧ u = ⟨outer, below.push value⟩ := by
  cases hstep : machineStep p slots s with
  | running t =>
    have hover := Step.over hstep outer below
    rw [Step, h] at hover
    exact .inl ⟨t, hstep, StepResult.running.inj hover⟩
  | halted value =>
    have hreturn := returns_of_halted hstep hs houter below
    rw [Step, h] at hreturn
    exact .inr ⟨value, rfl, StepResult.running.inj hreturn⟩

/-- The machine goes on from a state while more than the given number of frames stay. -/
def StaysWithin (p : Program) (slots : Array α) (outside : Nat) :
    MachineState α → MachineState α → Prop :=
  ReflTransGen fun s t => p.Step slots s t ∧ outside < t.frames.length

/-- What a frame does alone, it also does over other frames and values. -/
theorem StaysWithin.of_run (h : ReflTransGen (p.Step slots) s t) (hs : s.Grounded)
    (outer : List Frame) (below : Array α) :
    p.StaysWithin slots outer.length (s.over outer below) (t.over outer below) ∧ t.Grounded := by
  induction h with
  | refl => exact ⟨.refl, hs⟩
  | tail _ hstep ih =>
    obtain ⟨hstays, hgrounded⟩ := ih
    have hnext := hstep.grounded hgrounded
    refine ⟨hstays.tail ⟨hstep.over outer below, ?_⟩, hnext⟩
    have hpos := List.length_pos_iff.2 hnext.ne_nil
    simp only [MachineState.over, List.length_append, List.length_map]
    omega

/-- As long as a frame is there, the machine does what it would do without the frames outside of
it. -/
theorem StaysWithin.exists_over (h : p.StaysWithin slots outer.length (s.over outer below) u)
    (hs : s.Grounded) (houter : outer ≠ []) :
    ∃ t, ReflTransGen (p.Step slots) s t ∧ t.Grounded ∧ u = t.over outer below := by
  induction h with
  | refl => exact ⟨s, .refl, hs, rfl⟩
  | tail _ hstep ih =>
    obtain ⟨t, hrun, ht, rfl⟩ := ih
    rcases step_over_cases hstep.1 ht houter with ⟨t', ht', rfl⟩ | ⟨value, -, rfl⟩
    · exact ⟨t', hrun.tail ht', ht'.grounded ht, rfl⟩
    · exact absurd hstep.2 (Nat.lt_irrefl _)

/-- When a frame returns, the frames outside of it are as they were, and one value, which is that of
the run of the frame alone, is on top of the values below it. -/
theorem StaysWithin.exists_returned {w : MachineState α}
    (h : p.StaysWithin slots outer.length (s.over outer below) u) (hs : s.Grounded)
    (houter : outer ≠ []) (hw : p.Step slots u w) (hlength : w.frames.length = outer.length) :
    ∃ t value, ReflTransGen (p.Step slots) s t ∧ machineStep p slots t = .halted value ∧
      w = ⟨outer, below.push value⟩ := by
  obtain ⟨t, hrun, ht, rfl⟩ := h.exists_over hs houter
  rcases step_over_cases hw ht houter with ⟨t', ht', rfl⟩ | ⟨value, hvalue, rfl⟩
  · have hpos := List.length_pos_iff.2 (ht'.grounded ht).ne_nil
    simp only [MachineState.over, List.length_append, List.length_map] at hlength
    omega
  · exact ⟨t, value, hrun, hvalue, rfl⟩

end Program

/-- The stack is cut at the base of a frame. -/
theorem exists_append_of_le {α : Type} {stack : Array α} {base : Nat} (h : base ≤ stack.size) :
    ∃ below rest : Array α, stack = below ++ rest ∧ below.size = base := by
  refine ⟨stack.extract 0 base, stack.extract base stack.size, ?_, ?_⟩
  · rw [Array.extract_append_extract, Nat.zero_min, Nat.max_eq_right h, Array.extract_size]
  · rw [Array.size_extract, Nat.min_eq_left h, Nat.sub_zero]

/-- An instruction leaves what is below its frame as it is. -/
theorem executeInstruction_keeps (p : Program) (slots : Array α) (f : Frame)
    (below rest : Array α) (hf : below.size = f.base) (i : Instruction) :
    ∃ rest', (executeInstruction p slots f (below ++ rest) i).2 = below ++ rest' := by
  have hraise : Frame.raise below.size ⟨f.chunk, f.pc, 0⟩ = f := by
    rw [Frame.raise, hf]
    rfl
  have hexecuted := executeInstruction_over p slots ⟨f.chunk, f.pc, 0⟩ below rest i
  rw [hraise] at hexecuted
  exact ⟨_, congrArg Prod.snd hexecuted⟩

/-- A chunk at its beginning, with its arguments and nothing else. -/
def MachineState.entry (chunk : Nat) (args : Array α) : MachineState α :=
  ⟨[⟨chunk, 0, 0⟩], args⟩

omit [Scalar α] in
theorem MachineState.grounded_entry (chunk : Nat) (args : Array α) : (entry chunk args).Grounded :=
  ⟨[], ⟨chunk, 0, 0⟩, rfl, rfl⟩

/-- The frames lie above one another on the stack. -/
structure MachineState.Stacked (s : MachineState α) : Prop where
  ascending : s.frames.Pairwise fun inner outer => outer.base ≤ inner.base
  covered : ∀ f ∈ s.frames, f.base ≤ s.stack.size

namespace Program

variable {p : Program} {slots : Array α} {s t : MachineState α} {f : Frame} {fs : List Frame}

/-- A call takes its arguments from the values of the frame, and starts a chunk that takes as
many. -/
structure Enters (p : Program) (f : Frame) (fs : List Frame) (chunk : Nat) (below args : Array α)
    (s t : MachineState α) : Prop where
  called : p.instruction? f.chunk f.pc = some (.call (.chunk chunk) args.size)
  arity : (p.chunks[chunk]?).map (·.arity) = some args.size
  base_le : f.base ≤ below.size
  stack : s.stack = below ++ args
  entered : t = (MachineState.entry chunk args).over ({ f with pc := f.pc + 1 } :: fs) below

/-- A step goes on in the frame that takes it, starts a frame, or takes it away. -/
theorem Step.frames_cases (h : p.Step slots s t) (hframes : s.frames = f :: fs) :
    t.frames = { f with pc := f.pc + 1 } :: fs ∨
      (∃ chunk below args, p.Enters f fs chunk below args s t) ∨ t.frames = fs ∧ fs ≠ [] := by
  obtain ⟨f', fs', hframes', hcases⟩ := step_cases h
  obtain ⟨rfl, rfl⟩ := List.cons.inj (hframes.symm.trans hframes')
  rcases hcases with ⟨i, hi, ht, hstack⟩ | ⟨-, hne, ht, -⟩
  · cases hx : (executeInstruction p slots f s.stack i).1 with
    | none =>
      rw [hx] at ht
      exact .inl ht
    | some g =>
      obtain ⟨chunk, arity, rfl, hfits, harity, hexecuted⟩ := started_cases hx
      rw [hexecuted] at ht hstack
      obtain ⟨below, args, hcut, hsize⟩ :=
        exists_append_of_le (Nat.sub_le s.stack.size arity)
      have hargs : args.size = arity := by
        have := congrArg Array.size hcut
        rw [Array.size_append] at this
        omega
      subst hargs
      refine .inr (.inl ⟨chunk, below, args, hi, harity, by omega, hcut, ?_⟩)
      obtain ⟨frames, stack⟩ := t
      dsimp only at ht hstack
      rw [ht, hstack, ← hsize, hcut]
      rfl
  · exact .inr (.inr ⟨ht, hne⟩)

/-- A step leaves the values below the frame that takes it as they are. -/
theorem Step.keeps (h : p.Step slots s t) (hframes : s.frames = f :: fs)
    (hf : f.base ≤ s.stack.size) :
    ∃ below rest rest' : Array α, below.size = f.base ∧ s.stack = below ++ rest ∧
      t.stack = below ++ rest' := by
  obtain ⟨below, rest, hstack, hsize⟩ := exists_append_of_le hf
  obtain ⟨f', fs', hframes', hcases⟩ := step_cases h
  obtain ⟨rfl, rfl⟩ := List.cons.inj (hframes.symm.trans hframes')
  rw [hstack] at hcases
  rcases hcases with ⟨i, -, -, ht⟩ | ⟨-, -, -, ht⟩
  · obtain ⟨rest', hrest'⟩ := executeInstruction_keeps p slots f below rest hsize i
    exact ⟨below, rest, rest', hsize, hstack, ht.trans hrest'⟩
  · refine ⟨below, rest, #[(popValue f.base (below ++ rest)).1], hsize, hstack, ?_⟩
    have hpopped : (popValue f.base (below ++ rest)).2 = below ++ (popValue 0 rest).2 := by
      rw [← hsize]
      exact congrArg Prod.snd (popValue_append 0 below rest)
    have hcut : (below ++ (popValue 0 rest).2).take f.base = below := by
      rw [← hsize]
      exact (take_append below _ 0).trans (by simp)
    rw [ht, hpopped, hcut]
    rfl

/-- A step keeps the frames above one another. -/
theorem Step.stacked (h : p.Step slots s t) (hs : s.Stacked) : t.Stacked := by
  obtain ⟨f, fs, hframes, -⟩ := step_cases h
  obtain ⟨hascending, hcovered⟩ := hs
  rw [hframes] at hascending hcovered
  obtain ⟨hbase, houter⟩ := List.forall_mem_cons.1 hcovered
  obtain ⟨hbelow, hfs⟩ := List.pairwise_cons.1 hascending
  have hfloor : f.base ≤ t.stack.size := by
    obtain ⟨below, rest, rest', hsize, -, hstack⟩ := h.keeps hframes hbase
    rw [hstack, Array.size_append]
    omega
  have hadvanced : ({ f with pc := f.pc + 1 } :: fs).Pairwise
      fun inner outer => outer.base ≤ inner.base :=
    List.pairwise_cons.2 ⟨hbelow, hfs⟩
  have hlowest : ∀ g ∈ { f with pc := f.pc + 1 } :: fs, g.base ≤ f.base :=
    List.forall_mem_cons.2 ⟨Nat.le_refl _, hbelow⟩
  rcases h.frames_cases hframes with ht | ⟨chunk, below, args, hcall⟩ | ⟨ht, -⟩
  · refine ⟨ht ▸ hadvanced, fun g hg => ?_⟩
    exact Nat.le_trans (hlowest g (ht ▸ hg)) hfloor
  · obtain rfl := hcall.entered
    have hunder : ∀ g ∈ { f with pc := f.pc + 1 } :: fs, g.base ≤ below.size :=
      fun g hg => Nat.le_trans (hlowest g hg) hcall.base_le
    refine ⟨List.pairwise_cons.2 ⟨hunder, hadvanced⟩, List.forall_mem_cons.2 ⟨?_, fun g hg => ?_⟩⟩
    · exact Array.size_append ▸ Nat.le_add_right _ _
    · exact Array.size_append ▸ Nat.le_trans (hunder g hg) (Nat.le_add_right _ _)
  · refine ⟨ht ▸ hfs, fun g hg => ?_⟩
    exact Nat.le_trans (hbelow g (ht ▸ hg)) hfloor

omit [Scalar α] in
theorem stacked_start : (start : MachineState α).Stacked where
  ascending := List.pairwise_singleton _ _
  covered := List.forall_mem_singleton.2 (Nat.le_refl _)

/-- In all states of a run the frames are above one another. -/
theorem stacked_of_run (h : ReflTransGen (p.Step slots) start s) : s.Stacked := by
  induction h with
  | refl => exact stacked_start
  | tail _ hstep ih => exact hstep.stacked ih

end Program

end ImplicitCurves

import ImplicitCurves.Proofs.Program.Isolation
import Mathlib.Data.Finset.Card

/-!
# Halting

A run gives up when it has more frames than the program has chunks.  This never cuts a run short that
would come to an end: which steps are taken depends on the heights of the values alone, so each run
of a chunk takes the same number of steps, and a chunk that calls itself, directly or through others,
would have to take fewer steps than itself.  So a run has a value just if its steps end.

Main statement: `Program.isolated`, on any program whatsoever.
-/

namespace ImplicitCurves

open Relation

variable {α : Type} [Scalar α]

section Alike

variable {base : Nat} {stack stack' : Array α}

theorem size_popValue : (popValue base stack).2.size =
    if base < stack.size then stack.size - 1 else stack.size := by
  unfold popValue
  split
  · exact Array.size_pop
  · rfl

theorem size_binaryOnStack_eq (h : stack.size = stack'.size) (op op' : α → α → α) :
    (binaryOnStack base op stack).size = (binaryOnStack base op' stack').size := by
  simp only [binaryOnStack, Array.size_push, size_popValue, h]

theorem size_discardArguments_eq (h : stack.size = stack'.size) (count : Nat) :
    (discardArguments base count stack).size = (discardArguments base count stack').size := by
  simp only [discardArguments, Array.size_push, Array.take_eq_extract, Array.size_extract, h]

/-- Which frame an instruction starts, and how many values there are then, does not depend on what
the values are. -/
theorem executeInstruction_alike (p : Program) (slots : Array α) (f : Frame)
    (h : stack.size = stack'.size) (i : Instruction) :
    (executeInstruction p slots f stack i).1 = (executeInstruction p slots f stack' i).1 ∧
      (executeInstruction p slots f stack i).2.size =
        (executeInstruction p slots f stack' i).2.size := by
  cases i with
  | call callee arity =>
    cases callee with
    | unary g =>
      simp only [executeInstruction, callOnStack]
      split
      · exact ⟨rfl, by simp only [Array.size_push, size_popValue, h]⟩
      · exact ⟨rfl, size_discardArguments_eq h arity⟩
    | logarithm =>
      simp only [executeInstruction, callOnStack]
      split
      · exact ⟨rfl, size_binaryOnStack_eq h _ _⟩
      · exact ⟨rfl, size_discardArguments_eq h arity⟩
    | chunk index =>
      simp only [executeInstruction, callOnStack, h]
      split
      · exact ⟨rfl, h⟩
      · exact ⟨rfl, size_discardArguments_eq h arity⟩
  | add => exact ⟨rfl, size_binaryOnStack_eq h _ _⟩
  | sub => exact ⟨rfl, size_binaryOnStack_eq h _ _⟩
  | mul => exact ⟨rfl, size_binaryOnStack_eq h _ _⟩
  | div => exact ⟨rfl, size_binaryOnStack_eq h _ _⟩
  | pow => exact ⟨rfl, size_binaryOnStack_eq h _ _⟩
  | _ => simp only [executeInstruction, Array.size_push, h, and_self]

end Alike

omit [Scalar α] in
/-- The states have the same frames and equally many values. -/
def MachineState.Alike (s t : MachineState α) : Prop :=
  s.frames = t.frames ∧ s.stack.size = t.stack.size

namespace Program

variable {p : Program} {slots : Array α} {s t u : MachineState α} {outer : List Frame}
  {below : Array α} {n m : Nat}

/-- The machine takes as many steps from a state until it halts. -/
inductive HaltsIn (p : Program) (slots : Array α) : Nat → MachineState α → Prop
  | halted {s : MachineState α} {value : α} (h : machineStep p slots s = .halted value) :
    HaltsIn p slots 0 s
  | step {s t : MachineState α} {n : Nat} (h : p.Step slots s t) (ht : HaltsIn p slots n t) :
    HaltsIn p slots (n + 1) s

theorem Step.alike (h : p.Step slots s t) {s' : MachineState α} (hs : s.Alike s') :
    ∃ t', p.Step slots s' t' ∧ t.Alike t' := by
  obtain ⟨f, fs, hframes, hcases⟩ := step_cases h
  obtain ⟨frames, stack⟩ := s
  obtain ⟨frames', stack'⟩ := s'
  obtain ⟨hsame, hsize⟩ := hs
  dsimp only at hframes hsame hsize hcases
  subst hsame hframes
  rcases hcases with ⟨i, hi, ht, htstack⟩ | ⟨hend, hne, ht, htstack⟩
  · obtain ⟨hstarted, hheight⟩ := executeInstruction_alike p slots f hsize i
    refine ⟨_, by simp only [Step, machineStep, hi]; rfl, ?_, ?_⟩
    · rw [ht, hstarted]
    · rw [htstack, hheight]
  · have hempty : fs.isEmpty = false := List.isEmpty_eq_false_iff.2 hne
    refine ⟨_, by simp only [Step, machineStep, hend, hempty]; rfl, ht, ?_⟩
    rw [htstack]
    simp only [Array.size_push, Array.take_eq_extract, Array.size_extract, size_popValue, hsize]

theorem HaltsIn.alike (h : p.HaltsIn slots n s) {s' : MachineState α} (hs : s.Alike s') :
    p.HaltsIn slots n s' := by
  induction h generalizing s' with
  | @halted s value h =>
    cases hstep : machineStep p slots s' with
    | halted value' => exact .halted hstep
    | running t' =>
      have hsame : s'.Alike s := ⟨hs.1.symm, hs.2.symm⟩
      obtain ⟨t, ht, -⟩ := Step.alike hstep hsame
      rw [Step, h] at ht
      cases ht
  | step h _ ih =>
    obtain ⟨t', hstep, ht⟩ := h.alike hs
    exact .step hstep (ih ht)

theorem HaltsIn.unique (h : p.HaltsIn slots n s) (h' : p.HaltsIn slots m s) : n = m := by
  induction h generalizing m with
  | halted h =>
    cases h' with
    | halted => rfl
    | step hstep =>
      rw [Step, h] at hstep
      cases hstep
  | step hstep _ ih =>
    cases h' with
    | halted h =>
      rw [Step, h] at hstep
      cases hstep
    | step hstep' ht =>
      rw [Step, hstep] at hstep'
      cases hstep'
      rw [ih ht]

/-- A state on the way to the end is not further from it. -/
theorem HaltsIn.of_run (h : p.HaltsIn slots n s) (hrun : ReflTransGen (p.Step slots) s t) :
    ∃ m ≤ n, p.HaltsIn slots m t := by
  induction hrun with
  | refl => exact ⟨n, Nat.le_refl _, h⟩
  | tail _ hstep ih =>
    obtain ⟨m, hm, hmid⟩ := ih
    cases hmid with
    | halted hhalted =>
      rw [Step, hhalted] at hstep
      cases hstep
    | step hstep' ht =>
      rw [Step, hstep'] at hstep
      cases hstep
      exact ⟨_, by omega, ht⟩

theorem exists_haltsIn {value : α} (hrun : ReflTransGen (p.Step slots) s t)
    (ht : machineStep p slots t = .halted value) : ∃ n, p.HaltsIn slots n s := by
  induction hrun using ReflTransGen.head_induction_on with
  | refl => exact ⟨0, .halted ht⟩
  | head hstep _ ih =>
    obtain ⟨n, hn⟩ := ih
    exact ⟨n + 1, .step hstep hn⟩

/-- A frame that returns on the way to the end is closer to its own end than the machine is. -/
theorem HaltsIn.of_over (h : p.HaltsIn slots n (s.over outer below)) (hs : s.Grounded)
    (houter : outer ≠ []) : ∃ m < n, p.HaltsIn slots m s := by
  induction n generalizing s with
  | zero =>
    cases h with
    | halted h =>
      cases hstep : machineStep p slots s with
      | halted value =>
        have hreturn := returns_of_halted hstep hs houter below
        rw [Step, h] at hreturn
        cases hreturn
      | running t =>
        have hover := Step.over hstep outer below
        rw [Step, h] at hover
        cases hover
  | succ n ih =>
    cases h with
    | step hstep hrest =>
      rcases step_over_cases hstep hs houter with ⟨t, ht, rfl⟩ | ⟨value, hvalue, rfl⟩
      · obtain ⟨m, hm, hhalts⟩ := ih hrest (ht.grounded hs)
        exact ⟨m + 1, by omega, .step ht hhalts⟩
      · exact ⟨0, Nat.succ_pos _, .halted hvalue⟩

/-- If a chunk has more than one frame on top of nothing, then it is in a call: the frames of the
called chunk go on as they do alone. -/
theorem exists_call_of_run {chunk : Nat} {args : Array α}
    (h : ReflTransGen (p.Step slots) (.entry chunk args) s) (hs : s.frames.length ≠ 1) :
    ∃ callee args' bottom below t, (p.chunks[callee]?).map (·.arity) = some args'.size ∧
      ReflTransGen (p.Step slots) (.entry chunk args)
        ((MachineState.entry callee args').over [bottom] below) ∧
      ReflTransGen (p.Step slots) (.entry callee args') t ∧ s = t.over [bottom] below := by
  induction h with
  | refl => exact absurd rfl hs
  | @tail s s' hrun hstep ih =>
    by_cases hone : s.frames.length = 1
    · obtain ⟨f, hframes⟩ := List.length_eq_one_iff.1 hone
      rcases hstep.frames_cases hframes with hadvance | ⟨callee, below, args', hcall⟩ | ⟨-, hne⟩
      · exact absurd (congrArg List.length hadvance) hs
      · obtain rfl := hcall.entered
        exact ⟨callee, args', _, below, _, hcall.arity, hrun.tail hstep, .refl, rfl⟩
      · exact absurd rfl hne
    · obtain ⟨callee, args', bottom, below, t, harity, hcalled, ht, rfl⟩ := ih hone
      have hgrounded : t.Grounded := by
        clear harity hcalled hrun hstep hone hs ih
        induction ht with
        | refl => exact MachineState.grounded_entry callee args'
        | tail _ hstep ih => exact hstep.grounded ih
      rcases step_over_cases hstep hgrounded (List.cons_ne_nil _ _) with ⟨t', ht', rfl⟩ | ⟨_, -, rfl⟩
      · exact ⟨callee, args', bottom, below, t', harity, hcalled, ht.tail ht', rfl⟩
      · exact absurd rfl hs

open Classical in
/-- The chunks that halt in fewer steps, if they get as many arguments as they take. -/
noncomputable def quicker (p : Program) (slots : Array α) (n : Nat) : Finset Nat :=
  (Finset.range p.chunks.size).filter fun chunk => ∃ m < n, ∃ args : Array α,
    (p.chunks[chunk]?).map (·.arity) = some args.size ∧ p.HaltsIn slots m (.entry chunk args)

theorem mem_quicker {chunk : Nat} : chunk ∈ p.quicker slots n ↔ ∃ m < n, ∃ args : Array α,
    (p.chunks[chunk]?).map (·.arity) = some args.size ∧
      p.HaltsIn slots m (.entry chunk args) := by
  classical
  simp only [quicker, Finset.mem_filter, and_iff_right_iff_imp]
  rintro ⟨-, -, args, harity, -⟩
  obtain ⟨c, hc, -⟩ := Option.map_eq_some_iff.1 harity
  exact Finset.mem_range.2 (Array.getElem?_eq_some_iff.1 hc).1

open Classical in
theorem card_quicker_le (p : Program) (slots : Array α) (n : Nat) :
    (p.quicker slots n).card ≤ p.chunks.size :=
  (Finset.card_filter_le _ _).trans (Finset.card_range _).le

/-- A chunk that halts has at most one frame for each chunk that halts in fewer steps, and one of
its own. -/
theorem HaltsIn.length_le {chunk : Nat} {args : Array α} (h : p.HaltsIn slots n (.entry chunk args))
    (hrun : ReflTransGen (p.Step slots) (.entry chunk args) s) :
    s.frames.length ≤ (p.quicker slots n).card + 1 := by
  induction n using Nat.strong_induction_on generalizing chunk args s with
  | _ n ih =>
    by_cases hone : s.frames.length = 1
    · omega
    · obtain ⟨callee, args', bottom, below, t, harity, hcalled, ht, rfl⟩ :=
        exists_call_of_run hrun hone
      obtain ⟨k, hk, hover⟩ := h.of_run hcalled
      obtain ⟨m, hm, hcallee⟩ :=
        hover.of_over (MachineState.grounded_entry callee args') (List.cons_ne_nil _ _)
      have hfewer := ih m (by omega) hcallee ht
      have hstrict : p.quicker slots m ⊂ p.quicker slots n := by
        refine (Finset.ssubset_iff_of_subset fun c hc => ?_).2 ⟨callee, ?_, fun hmem => ?_⟩
        · obtain ⟨l, hl, hhalts⟩ := mem_quicker.1 hc
          exact mem_quicker.2 ⟨l, by omega, hhalts⟩
        · exact mem_quicker.2 ⟨m, by omega, args', harity, hcallee⟩
        · obtain ⟨l, hl, args'', harity', hhalts⟩ := mem_quicker.1 hmem
          have hsame : (MachineState.entry callee args'').Alike (.entry callee args') :=
            ⟨rfl, Option.some.inj (harity'.symm.trans harity)⟩
          have := (hhalts.alike hsame).unique hcallee
          omega
      have hcard := Finset.card_lt_card hstrict
      simp only [MachineState.over, List.length_append, List.length_map, List.length_singleton]
      omega

/-- A run has a value just if its steps end with it. -/
theorem run?_eq_some_iff {value : α} : p.run? slots = some value ↔
    ∃ t, ReflTransGen (p.Step slots) start t ∧ machineStep p slots t = .halted value := by
  refine ⟨exists_halted_of_runFrom, fun ⟨t, hrun, ht⟩ => ?_⟩
  obtain ⟨n, hn⟩ := exists_haltsIn hrun ht
  refine runFrom_eq_some_of_le (fun u hu => ?_) hrun ht
  have hentry : p.HaltsIn slots n (.entry 0 #[]) := hn
  have hlength := hentry.length_le hu
  have hcard := p.card_quicker_le slots n
  unfold frameLimit
  omega

omit [Scalar α] in
theorem grounded_start : (start : MachineState α).Grounded :=
  MachineState.grounded_entry 0 #[]

/-- Over whatever frames and values are left from before, the main chunk comes back with the value of
the run from an empty machine, and leaves them as they are. -/
theorem run?_eq_some_iff_over {value : α} (houter : outer ≠ []) : p.run? slots = some value ↔
    ∃ u, p.StaysWithin slots outer.length ((start : MachineState α).over outer below) u ∧
      p.Step slots u ⟨outer, below.push value⟩ := by
  rw [run?_eq_some_iff]
  constructor
  · rintro ⟨t, hrun, ht⟩
    obtain ⟨hstays, hgrounded⟩ := StaysWithin.of_run hrun grounded_start outer below
    exact ⟨_, hstays, returns_of_halted ht hgrounded houter below⟩
  · rintro ⟨u, hstays, hstep⟩
    obtain ⟨t, value', hrun, ht, hreturned⟩ :=
      hstays.exists_returned grounded_start houter hstep rfl
    obtain rfl : value = value' := (Array.push_eq_push.1 (congrArg MachineState.stack hreturned)).1
    exact ⟨t, hrun, ht⟩

/-- When a chunk that was called with `arity` arguments returns, the values are those before the call
with the arguments replaced by one value, and the frames are those that were there, the innermost of
them behind the call. -/
def ReturnsOne (p : Program) (slots : Array α) (s : MachineState α) : Prop :=
  ∀ {f fs chunk arity t u w}, s.frames = f :: fs →
    p.instruction? f.chunk f.pc = some (.call (.chunk chunk) arity) → p.Step slots s t →
    t.frames.length = s.frames.length + 1 → p.StaysWithin slots s.frames.length t u →
    p.Step slots u w → w.frames.length = s.frames.length →
      ∃ below args value, s.stack = below ++ args ∧ args.size = arity ∧
        w = ⟨{ f with pc := f.pc + 1 } :: fs, below.push value⟩

theorem returnsOne (p : Program) (slots : Array α) (s : MachineState α) :
    p.ReturnsOne slots s := by
  intro f fs chunk arity t u w hframes hcall hstep hentered hstays hw hreturned
  rcases hstep.frames_cases hframes with ht | ⟨callee, below, args, henters⟩ | ⟨ht, -⟩
  · rw [ht, hframes] at hentered
    simp only [List.length_cons] at hentered
    omega
  · have harity := henters.called.symm.trans hcall
    obtain rfl := henters.entered
    have houtside : s.frames.length = ({ f with pc := f.pc + 1 } :: fs).length := by
      rw [hframes]
      rfl
    rw [houtside] at hstays hreturned
    obtain ⟨-, value, -, -, rfl⟩ := hstays.exists_returned
      (MachineState.grounded_entry callee args) (List.cons_ne_nil _ _) hw hreturned
    simp only [Option.some.injEq, Instruction.call.injEq, Callee.chunk.injEq] at harity
    exact ⟨below, args, value, henters.stack, harity.2, rfl⟩
  · rw [ht, hframes] at hentered
    simp only [List.length_cons] at hentered
    omega

/-- The frames of a state are isolated: they lie above one another, the next step leaves the values
below the innermost of them as they are, and a call replaces its arguments by one value. -/
structure Isolated (p : Program) (slots : Array α) (s : MachineState α) : Prop where
  stacked : s.Stacked
  kept : ∀ {f fs t}, s.frames = f :: fs → p.Step slots s t →
    ∃ below rest rest' : Array α, below.size = f.base ∧ s.stack = below ++ rest ∧
      t.stack = below ++ rest'
  returned : p.ReturnsOne slots s

/-- The machine isolates frames, whatever the program.  In each state of a run the frames are
isolated; the value of a run is that to which the steps lead, also over whatever frames and values are
left from before, which a machine takes away before it runs; and if no chunk can reach itself by calls,
then there is one. -/
theorem isolated (p : Program) (slots : Array α) :
    (∀ s, ReflTransGen (p.Step slots) start s → p.Isolated slots s) ∧
    (∀ value, p.run? slots = some value ↔
      ∃ t, ReflTransGen (p.Step slots) start t ∧ machineStep p slots t = .halted value) ∧
    (∀ outer below value, outer ≠ [] → (p.run? slots = some value ↔
      ∃ u, p.StaysWithin slots outer.length ((start : MachineState α).over outer below) u ∧
        p.Step slots u ⟨outer, below.push value⟩)) ∧
    (∀ left, (Machine.eval ⟨p, slots, left⟩).1 = p.run slots) ∧
    (p.Acyclic → ∃ value, p.run? slots = some value) := by
  refine ⟨fun s hs => ?_, fun value => run?_eq_some_iff,
    fun outer below value houter => run?_eq_some_iff_over houter, fun left => Machine.eval_fst _,
    fun hp => ?_⟩
  · have hstacked := stacked_of_run hs
    refine ⟨hstacked, fun {f fs t} hframes hstep => ?_, returnsOne p slots s⟩
    exact hstep.keeps hframes (hstacked.covered f (hframes ▸ List.mem_cons_self))
  · exact exists_runFrom_eq_some hp (List.pairwise_singleton _ _)

/-- A chunk that multiplies its argument by a value that it does not have leaves the operand of its
caller alone. -/
theorem isolated_underflow :
    let p : Program := ⟨#[⟨0, #[.pushConst 1, .pushConst 2, .call (.chunk 1) 1, .add]⟩,
      ⟨1, #[.mul, .pushConst 5]⟩], []⟩
    p.run? #[] = some (6 : Float) ∧ p.Acyclic ∧ ∃ value : Float, p.run? #[] = some value := by
  intro p
  have hp : p.Acyclic := by
    refine acyclic_of_rank (fun chunk => 1 - chunk) fun caller callee ⟨pc, arity, hcall, _⟩ => ?_
    match caller with
    | 0 =>
      match pc with
      | 2 => cases hcall; decide
      | 0 | 1 | 3 => cases hcall
      | _ + 4 => cases hcall
    | 1 =>
      match pc with
      | 0 | 1 => cases hcall
      | _ + 2 => cases hcall
    | _ + 2 => cases hcall
  have step : ∀ {s t : MachineState Float}, machineStep p #[] s = .running t → p.Step #[] s t := id
  refine ⟨((isolated p #[]).2.1 6).2 ⟨⟨[⟨0, 4, 0⟩], #[6]⟩, ?_, rfl⟩, hp, (isolated p #[]).2.2.2.2 hp⟩
  refine .head (b := ⟨[⟨0, 1, 0⟩], #[1]⟩) (step rfl) ?_
  refine .head (b := ⟨[⟨0, 2, 0⟩], #[1, 2]⟩) (step rfl) ?_
  refine .head (b := ⟨[⟨1, 0, 1⟩, ⟨0, 3, 0⟩], #[1, 2]⟩) (step rfl) ?_
  refine .head (b := ⟨[⟨1, 1, 1⟩, ⟨0, 3, 0⟩], #[1, Scalar.undefined * 2]⟩) (step rfl) ?_
  refine .head (b := ⟨[⟨1, 2, 1⟩, ⟨0, 3, 0⟩], #[1, Scalar.undefined * 2, 5]⟩) (step rfl) ?_
  refine .head (b := ⟨[⟨0, 3, 0⟩], #[1, 5]⟩) (step rfl) ?_
  exact .single <| step <|
    congrArg (fun x : Float => StepResult.running ⟨[⟨0, 4, 0⟩], #[x]⟩) (by decide +kernel)

end Program

end ImplicitCurves

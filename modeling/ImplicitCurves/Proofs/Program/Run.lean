import ImplicitCurves.Program.Machine
import Mathlib.Data.List.Perm.Subperm
import Mathlib.Logic.Relation

/-!
# Runs of programs

A run is a sequence of steps of the machine.  The frames of a state form a chain: each was started
by a call in the one outside of it.  If no chunk can reach itself by calls, then no chunk occurs
twice in such a chain, so a run never meets the limit of frames, and what the steps lead to is what
the run gives: main statement `Program.runFrom_eq_some`.
-/

namespace ImplicitCurves

open Relation

variable {α : Type} [Scalar α]

namespace Program

/-- The machine goes from one state to another in one step. -/
def Step (p : Program) (slots : Array α) (s t : MachineState α) : Prop :=
  machineStep p slots s = .running t

/-- A chunk has an instruction that calls another chunk with as many arguments as that one takes. -/
def Calls (p : Program) (caller callee : Nat) : Prop :=
  ∃ pc arity, p.instruction? caller pc = some (.call (.chunk callee) arity) ∧
    (p.chunks[callee]?).map (·.arity) = some arity

/-- No chunk can reach itself by calls. -/
def Acyclic (p : Program) : Prop :=
  ∀ chunk, ¬ TransGen p.Calls chunk chunk

/-- Each frame runs a chunk that the chunks of the frames outside of it can reach by calls. -/
def Nested (p : Program) (frames : List Frame) : Prop :=
  frames.Pairwise fun inner outer => TransGen p.Calls outer.chunk inner.chunk

variable {p : Program} {slots : Array α}

/-- A rank that decreases with each call rules out cycles. -/
theorem acyclic_of_rank (rank : Nat → Nat)
    (h : ∀ caller callee, p.Calls caller callee → rank callee < rank caller) : p.Acyclic := by
  have hlt : ∀ {caller callee}, TransGen p.Calls caller callee → rank callee < rank caller := by
    intro caller callee hcalls
    induction hcalls with
    | single hcall => exact h _ _ hcall
    | tail _ hcall ih => exact Nat.lt_trans (h _ _ hcall) ih
  intro chunk hcycle
  exact Nat.lt_irrefl _ (hlt hcycle)

theorem lt_size_of_calls {caller callee : Nat} (h : TransGen p.Calls caller callee) :
    callee < p.chunks.size := by
  have hcall : ∃ c, p.Calls c callee := by
    cases h with
    | single hcall => exact ⟨_, hcall⟩
    | tail _ hcall => exact ⟨_, hcall⟩
  obtain ⟨caller', pc, arity, -, harity⟩ := hcall
  obtain ⟨chunk, hchunk, -⟩ := Option.map_eq_some_iff.1 harity
  exact (Array.getElem?_eq_some_iff.1 hchunk).1

/-- A chain of frames without repeated chunks is not longer than the limit. -/
theorem length_le_frameLimit (hp : p.Acyclic) {frames : List Frame} (h : p.Nested frames) :
    frames.length ≤ p.frameLimit := by
  rcases List.eq_nil_or_concat frames with rfl | ⟨inner, outermost, rfl⟩
  · exact Nat.zero_le _
  · rw [List.concat_eq_append] at h ⊢
    obtain ⟨hinner, -, hreach⟩ := List.pairwise_append.1 h
    have hnodup : (inner.map (·.chunk)).Nodup := by
      refine List.pairwise_map.2 (hinner.imp fun {f g} hcalls heq => ?_)
      exact hp _ (heq ▸ hcalls)
    have hsub : inner.map (·.chunk) ⊆ List.range p.chunks.size := by
      intro chunk hchunk
      obtain ⟨f, hf, rfl⟩ := List.mem_map.1 hchunk
      exact List.mem_range.2 (lt_size_of_calls (hreach f hf outermost (List.mem_singleton.2 rfl)))
    have hlen := (hnodup.subperm hsub).length_le
    simp only [List.length_map, List.length_range] at hlen
    simp only [List.length_append, List.length_singleton, frameLimit]
    omega

/-- Only a call of a chunk that fits starts a frame, which has the arguments of the call. -/
theorem started_cases {frame started : Frame} {stack : Array α}
    {i : Instruction} (h : (executeInstruction p slots frame stack i).1 = some started) :
    ∃ index arity, i = .call (.chunk index) arity ∧ frame.base + arity ≤ stack.size ∧
      (p.chunks[index]?).map (·.arity) = some arity ∧
        executeInstruction p slots frame stack i = (some ⟨index, 0, stack.size - arity⟩, stack) := by
  cases i with
  | call callee arity =>
    cases callee with
    | chunk index =>
      rw [executeInstruction, callOnStack] at h
      split at h
      · next hfits =>
        refine ⟨index, arity, rfl, hfits.1, hfits.2, ?_⟩
        rw [executeInstruction, callOnStack, if_pos hfits]
      · simp at h
    | unary f =>
      simp only [executeInstruction, callOnStack] at h
      split at h <;> simp at h
    | logarithm =>
      simp only [executeInstruction, callOnStack] at h
      split at h <;> simp at h
  | _ => simp [executeInstruction] at h

theorem calls_of_started {frame started : Frame} {stack : Array α} {i : Instruction}
    (hi : p.instruction? frame.chunk frame.pc = some i)
    (h : (executeInstruction p slots frame stack i).1 = some started) :
    p.Calls frame.chunk started.chunk := by
  obtain ⟨index, arity, rfl, -, harity, hexecuted⟩ := started_cases h
  rw [hexecuted] at h
  obtain rfl := Option.some.inj h
  exact ⟨frame.pc, arity, hi, harity⟩

/-- A step keeps the frames nested. -/
theorem Nested.step {s t : MachineState α} (hs : p.Nested s.frames) (h : p.Step slots s t) :
    p.Nested t.frames := by
  obtain ⟨frames, stack⟩ := s
  cases frames with
  | nil => simp [Step, machineStep] at h
  | cons f fs =>
    obtain ⟨houter, hfs⟩ := List.pairwise_cons.1 hs
    simp only [Step, machineStep] at h
    split at h
    · next i hi =>
      have hadvanced : p.Nested ({ f with pc := f.pc + 1 } :: fs) :=
        List.pairwise_cons.2 ⟨houter, hfs⟩
      cases hx : (executeInstruction p slots f stack i).1 with
      | none =>
        simp only [hx, Option.toList_none, List.nil_append, StepResult.running.injEq] at h
        subst h
        exact hadvanced
      | some g =>
        simp only [hx, Option.toList_some, List.cons_append, List.nil_append,
          StepResult.running.injEq] at h
        subst h
        have hcall := calls_of_started hi hx
        refine List.pairwise_cons.2 ⟨fun outer hmem => ?_, hadvanced⟩
        rcases List.mem_cons.1 hmem with rfl | hmem
        · exact .single hcall
        · exact (houter outer hmem).tail hcall
    · split at h
      · simp at h
      · simp only [StepResult.running.injEq] at h
        subst h
        exact hfs

theorem runFrom_of_halted {s : MachineState α} {value : α}
    (h : machineStep p slots s = .halted value) : runFrom p slots s = some value := by
  rw [runFrom, runThrough]
  split
  · next hstep => rw [h] at hstep; cases hstep; rfl
  · next hstep => rw [h] at hstep; cases hstep

theorem runFrom_of_step {s t : MachineState α} (h : p.Step slots s t) :
    runFrom p slots s = if t.frames.length ≤ p.frameLimit then runFrom p slots t else none := by
  rw [runFrom, runThrough]
  split
  · next hstep => rw [Step, hstep] at h; cases h
  · next hstep =>
    rw [Step, hstep] at h
    cases h
    split <;> rfl

/-- If the frames of all states stay within the limit, then a run follows the steps to their end. -/
theorem runFrom_eq_some_of_le {s t : MachineState α} {value : α}
    (hlimit : ∀ u, ReflTransGen (p.Step slots) s u → u.frames.length ≤ p.frameLimit)
    (hsteps : ReflTransGen (p.Step slots) s t) (ht : machineStep p slots t = .halted value) :
    runFrom p slots s = some value := by
  induction hsteps using ReflTransGen.head_induction_on with
  | refl => exact runFrom_of_halted ht
  | head hstep _ ih =>
    rw [runFrom_of_step hstep, if_pos (hlimit _ (.single hstep))]
    exact ih fun u hu => hlimit u (.head hstep hu)

/-- A run that has a value comes to it by steps. -/
theorem exists_halted_of_runFrom {s : MachineState α} {value : α}
    (h : runFrom p slots s = some value) :
    ∃ t, ReflTransGen (p.Step slots) s t ∧ machineStep p slots t = .halted value := by
  induction s using runThrough.induct p slots with
  | case1 s value' hstep =>
    rw [runFrom_of_halted hstep] at h
    obtain rfl := Option.some.inj h
    exact ⟨s, .refl, hstep⟩
  | case2 s t hstep hlimit ih =>
    rw [runFrom_of_step hstep, if_pos hlimit] at h
    obtain ⟨u, hsteps, hu⟩ := ih h
    exact ⟨u, hsteps.head hstep, hu⟩
  | case3 s t hstep hlimit =>
    rw [runFrom_of_step hstep, if_neg hlimit] at h
    cases h

/-- A run keeps the frames nested. -/
theorem Nested.run {s t : MachineState α} (hs : p.Nested s.frames)
    (h : ReflTransGen (p.Step slots) s t) : p.Nested t.frames := by
  induction h with
  | refl => exact hs
  | tail _ hstep ih => exact ih.step hstep

/-- If no chunk can reach itself, then a run follows the steps to their end. -/
theorem runFrom_eq_some (hp : p.Acyclic) {s t : MachineState α} {value : α}
    (hs : p.Nested s.frames) (hsteps : ReflTransGen (p.Step slots) s t)
    (ht : machineStep p slots t = .halted value) : runFrom p slots s = some value :=
  runFrom_eq_some_of_le (fun _ hu => length_le_frameLimit hp (hs.run hu)) hsteps ht

/-- If no chunk can reach itself, then a run comes to an end. -/
theorem exists_runFrom_eq_some (hp : p.Acyclic) {s : MachineState α} (hs : p.Nested s.frames) :
    ∃ value, runFrom p slots s = some value := by
  induction s using runThrough.induct p slots with
  | case1 s value hstep => exact ⟨value, runFrom_of_halted hstep⟩
  | case2 s t hstep hlimit ih =>
    rw [runFrom_of_step hstep, if_pos hlimit]
    exact ih (hs.step hstep)
  | case3 s t hstep hlimit => exact absurd (length_le_frameLimit hp (hs.step hstep)) hlimit

end Program

end ImplicitCurves

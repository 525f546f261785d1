import ImplicitCurves.Proofs.Program.Assembly
import ImplicitCurves.Proofs.Program.Run

/-!
# Calls of compiled code

A chunk of compiled code calls only the chunks of linked definitions that are inside of the tree
that it was compiled from.  So calls lead to ever smaller definitions, and a finished program has no
chunk that can reach itself: main statement `Assembly.acyclic_ofCode`.
-/

namespace ImplicitCurves

/-- The chunks that code calls are those of linked definitions below a size. -/
def CallsBelow (functions : List (LinkId × Nat)) (bound : Nat) (code : List Instruction) : Prop :=
  ∀ index arity, .call (.chunk index) arity ∈ code →
    ∃ id, (id, index) ∈ functions ∧ sizeOf id.definition < bound

variable {functions functions' : List (LinkId × Nat)} {bound bound' : Nat}
  {code code' : List Instruction}

theorem CallsBelow.mono (h : CallsBelow functions bound code)
    (hfunctions : functions ⊆ functions') (hbound : bound ≤ bound') :
    CallsBelow functions' bound' code := by
  intro index arity hmem
  obtain ⟨id, hid, hlt⟩ := h index arity hmem
  exact ⟨id, hfunctions hid, Nat.lt_of_lt_of_le hlt hbound⟩

theorem CallsBelow.append (h : CallsBelow functions bound code)
    (h' : CallsBelow functions bound code') : CallsBelow functions bound (code ++ code') := by
  intro index arity hmem
  rcases List.mem_append.1 hmem with hmem | hmem
  · exact h index arity hmem
  · exact h' index arity hmem

/-- The instruction calls no chunk. -/
def Instruction.callsNoChunk : Instruction → Bool
  | .call (.chunk _) _ => false
  | _ => true

theorem callsBelow_of_callsNoChunk (h : ∀ i ∈ code, i.callsNoChunk) :
    CallsBelow functions bound code := by
  intro index arity hmem
  exact absurd (h _ hmem) Bool.false_ne_true

/-- Code of a part, then code of another part that is compiled after it. -/
theorem CallsBelow.append_grows {a b : Assembly} {n m : Nat}
    (h : CallsBelow a.functions n code) (hgrows : a.Grows b)
    (h' : CallsBelow b.functions m code') (hn : n ≤ bound) (hm : m ≤ bound) :
    CallsBelow b.functions bound (code ++ code') :=
  (h.mono hgrows.functions.subset hn).append (h'.mono (List.Subset.refl _) hm)

theorem CallsBelow.operation (h : CallsBelow functions bound code) {i : Instruction}
    (hi : i.callsNoChunk = true) : CallsBelow functions bound (code ++ [i]) :=
  h.append (callsBelow_of_callsNoChunk (by simpa using hi))

/-- A call of the chunk of a definition leads to that definition. -/
theorem FunctionDefinition.callsBelow_chunkIndex (d : FunctionDefinition) (pass : Nat)
    (a : Assembly) (arity : Nat) (h : sizeOf d < bound) :
    CallsBelow (d.chunkIndex pass a).2.functions bound
      [.call (.chunk (d.chunkIndex pass a).1) arity] := by
  intro index arity' hmem
  obtain ⟨rfl, -⟩ : index = (d.chunkIndex pass a).1 ∧ arity' = arity := by
    simpa using List.mem_singleton.1 hmem
  exact ⟨⟨pass, d⟩, d.mem_chunkIndex pass a, h⟩

mutual

/-- The code of an expression calls the chunks of definitions that are smaller than it. -/
theorem Expression.callsBelow_compile : ∀ (e : Expression) (parameters : List Char) (a : Assembly),
    CallsBelow (e.compile parameters a).2.functions (sizeOf e) (e.compile parameters a).1
  | ⟨items⟩, parameters, a =>
    (callsBelow_compileItems items parameters true a).mono (List.Subset.refl _) (by simp)

theorem callsBelow_compileItems : ∀ (is : List Item) (parameters : List Char) (first : Bool)
    (a : Assembly), CallsBelow (compileItems parameters first is a).2.functions (sizeOf is)
      (compileItems parameters first is a).1
  | [], _, first, _ => by
    refine callsBelow_of_callsNoChunk ?_
    cases first <;> simp [compileItems, Instruction.callsNoChunk]
  | i :: is, parameters, first, a => by
    have hitem := i.callsBelow_compileProduct parameters a
    have hrest := callsBelow_compileItems is parameters false (i.compileProduct parameters a).2
    have hgrows := grows_compileItems is parameters false (i.compileProduct parameters a).2
    refine CallsBelow.append_grows (n := sizeOf i) ?_ hgrows hrest (by simp; omega) (by simp)
    have hzero : CallsBelow (i.compileProduct parameters a).2.functions (sizeOf i)
        [.pushConst 0] := callsBelow_of_callsNoChunk (by simp [Instruction.callsNoChunk])
    cases first <;> cases i.positive
    · exact hitem.operation rfl
    · exact hitem.operation rfl
    · exact (hzero.append hitem).operation rfl
    · exact hitem

theorem Item.callsBelow_compileProduct : ∀ (i : Item) (parameters : List Char) (a : Assembly),
    CallsBelow (i.compileProduct parameters a).2.functions (sizeOf i)
      (i.compileProduct parameters a).1
  | ⟨_, factors⟩, parameters, a =>
    (callsBelow_compileFactors factors parameters true a).mono (List.Subset.refl _) (by simp)

theorem callsBelow_compileFactors : ∀ (fs : List Factor) (parameters : List Char) (first : Bool)
    (a : Assembly), CallsBelow (compileFactors parameters first fs a).2.functions (sizeOf fs)
      (compileFactors parameters first fs a).1
  | [], _, first, _ => by
    refine callsBelow_of_callsNoChunk ?_
    cases first <;> simp [compileFactors, Instruction.callsNoChunk]
  | f :: fs, parameters, first, a => by
    have hfactor := f.callsBelow_compile parameters a
    have hrest := callsBelow_compileFactors fs parameters false (f.compile parameters a).2
    have hgrows := grows_compileFactors fs parameters false (f.compile parameters a).2
    refine CallsBelow.append_grows (n := sizeOf f) ?_ hgrows hrest (by simp; omega) (by simp)
    cases first
    · exact hfactor.operation rfl
    · simpa using hfactor

theorem Factor.callsBelow_compile : ∀ (f : Factor) (parameters : List Char) (a : Assembly),
    CallsBelow (f.compile parameters a).2.functions (sizeOf f) (f.compile parameters a).1
  | .number _, _, _ | .constant _, _, _ | .variable _ (some _), _, _ | .call _ _ .unlinked, _, _ =>
    callsBelow_of_callsNoChunk (by simp [Factor.compile, Instruction.callsNoChunk])
  | .variable name none, parameters, a => by
    refine callsBelow_of_callsNoChunk ?_
    simp only [Factor.compile, Assembly.load]
    split <;> simp [Instruction.callsNoChunk]
  | .fraction x y, parameters, a => by
    have hx := x.callsBelow_compile parameters a
    have hy := y.callsBelow_compile parameters (x.compile parameters a).2
    have hboth := hx.append_grows (y.grows_compile parameters _) hy
      (Nat.le_add_right _ (sizeOf y)) (Nat.le_add_left _ _)
    exact (hboth.mono (List.Subset.refl _) (by simp)).operation rfl
  | .power x y, parameters, a => by
    have hx := x.callsBelow_compile parameters a
    have hy := y.callsBelow_compile parameters (x.compile parameters a).2
    have hboth := hx.append_grows (y.grows_compile parameters _) hy
      (Nat.le_add_right _ (sizeOf y)) (Nat.le_add_left _ _)
    exact (hboth.mono (List.Subset.refl _) (by simp)).operation rfl
  | .bracket x, parameters, a =>
    (x.callsBelow_compile parameters a).mono (List.Subset.refl _) (by simp)
  | .unary _ x, parameters, a =>
    ((x.callsBelow_compile parameters a).mono (List.Subset.refl _) (by simp)).operation rfl
  | .logarithm x y, parameters, a => by
    have hx := x.callsBelow_compile parameters a
    have hy := y.callsBelow_compile parameters (x.compile parameters a).2
    have hboth := hx.append_grows (y.grows_compile parameters _) hy
      (Nat.le_add_right _ (sizeOf y)) (Nat.le_add_left _ _)
    exact (hboth.mono (List.Subset.refl _) (by simp)).operation rfl
  | .call _ arguments (.linked pass d), parameters, a => by
    have harguments := callsBelow_compileArguments arguments parameters a
    have hcall := d.callsBelow_chunkIndex pass (compileArguments parameters arguments a).2
      arguments.length (Nat.lt_succ_self _)
    exact harguments.append_grows (d.grows_chunkIndex pass _) hcall (by simp; omega)
      (by simp; omega)

theorem callsBelow_compileArguments : ∀ (es : List Expression) (parameters : List Char)
    (a : Assembly), CallsBelow (compileArguments parameters es a).2.functions (sizeOf es)
      (compileArguments parameters es a).1
  | [], _, _ => callsBelow_of_callsNoChunk (by simp [compileArguments])
  | e :: es, parameters, a => by
    have hfirst := e.callsBelow_compile parameters a
    have hrest := callsBelow_compileArguments es parameters (e.compile parameters a).2
    exact hfirst.append_grows (grows_compileArguments es parameters _) hrest (by simp; omega)
      (by simp)

end

namespace Assembly

/-- What is compiled from the start is aligned. -/
theorem aligned_initial : initial.Aligned := by
  simp [Aligned, initial]

/-- The linked definition of a chunk is found by the index of the chunk. -/
theorem Aligned.getElem? {a : Assembly} (h : a.Aligned) {id : LinkId} {index : Nat}
    (hmem : (id, index) ∈ a.functions) : 0 < index ∧ a.functions[index - 1]? = some (id, index) := by
  obtain ⟨k, hk⟩ := List.mem_iff_getElem?.1 hmem
  have hlt := (List.getElem?_eq_some_iff.1 hk).1
  have hindex : (a.functions.map (·.2))[k]? = some index := by rw [List.getElem?_map, hk]; rfl
  rw [h.1, List.getElem?_range' hlt] at hindex
  obtain rfl : 1 + 1 * k = index := Option.some.inj hindex
  refine ⟨by omega, ?_⟩
  rw [show 1 + 1 * k - 1 = k by omega, hk]

/-- Every chunk but the main one is that of a linked definition. -/
theorem Aligned.exists_mem {a : Assembly} (h : a.Aligned) {index : Nat} (hpos : 0 < index)
    (hlt : index < a.chunks.size) : ∃ id, (id, index) ∈ a.functions := by
  have hsize := h.2
  have hmem : index ∈ a.functions.map (·.2) := by
    rw [h.1]
    exact List.mem_range'_1.2 ⟨hpos, by omega⟩
  obtain ⟨⟨id, index'⟩, hid, rfl⟩ := List.mem_map.1 hmem
  exact ⟨id, hid⟩

/-- What is compiled from the start keeps a filled chunk for each linked definition. -/
theorem Grows.holds {a : Assembly} (h : initial.Grows a) {id : LinkId} {index : Nat}
    (hmem : (id, index) ∈ a.functions) : 0 < index ∧ a.Holds id index :=
  h.filled id index hmem List.not_mem_nil

/-- The size of what the chunk with the given index was compiled from. -/
noncomputable def rank (a : Assembly) (bound index : Nat) : Nat :=
  if index = 0 then bound else ((a.functions[index - 1]?).map fun x => sizeOf x.1.definition).getD 0

theorem rank_of_mem {a : Assembly} (h : a.Aligned) (bound : Nat) {id : LinkId} {index : Nat}
    (hmem : (id, index) ∈ a.functions) : a.rank bound index = sizeOf id.definition := by
  obtain ⟨hpos, hindex⟩ := h.getElem? hmem
  rw [rank, if_neg (by omega), hindex]
  rfl

theorem getElem?_ofCode {a : Assembly} {code : List Instruction} {index : Nat} (h : 0 < index) :
    (Program.ofCode code a).chunks[index]? = a.chunks[index]? := by
  simp [Program.ofCode, fill, Nat.ne_of_lt h]

/-- A finished program has no chunk that can reach itself by calls. -/
theorem acyclic_ofCode {a : Assembly} {code : List Instruction} {bound : Nat}
    (h : initial.Grows a) (hcode : CallsBelow a.functions bound code) :
    (Program.ofCode code a).Acyclic := by
  have haligned := h.aligned aligned_initial
  refine Program.acyclic_of_rank (a.rank bound) fun caller callee hcall => ?_
  obtain ⟨pc, arity, hpc, -⟩ := hcall
  obtain ⟨chunk, hchunk, hinstruction⟩ := Option.bind_eq_some_iff.1 hpc
  have hcall := Array.mem_of_getElem? hinstruction
  rcases Nat.eq_zero_or_pos caller with rfl | hpos
  · -- The main chunk holds the code itself.
    obtain rfl : (⟨0, code.toArray⟩ : Chunk) = chunk := by
      have hsize := haligned.2
      have hmain : 0 < a.chunks.size := by omega
      simpa [Program.ofCode, fill, hmain] using hchunk
    obtain ⟨id, hid, hlt⟩ := hcode callee arity (by simpa using hcall)
    rw [rank_of_mem haligned bound hid]
    exact hlt
  · -- Any other chunk holds the code of the body of its definition.
    rw [getElem?_ofCode hpos] at hchunk
    obtain ⟨id, hid⟩ := haligned.exists_mem hpos (Array.getElem?_eq_some_iff.1 hchunk).1
    obtain ⟨-, b, code', b', hcompile, -, hfunctions, hchunk'⟩ := h.holds hid
    obtain rfl := Option.some.inj (hchunk.symm.trans hchunk')
    have hbody := id.definition.body.callsBelow_compile id.definition.parameters b
    rw [hcompile] at hbody
    obtain ⟨id', hid', hlt⟩ := hbody callee arity (by simpa using hcall)
    rw [rank_of_mem haligned bound hid, rank_of_mem haligned bound (hfunctions.subset hid')]
    have hpart : sizeOf id.definition.body < sizeOf id.definition := by
      cases id.definition
      simp
      omega
    exact Nat.lt_trans hlt hpart

end Assembly

end ImplicitCurves

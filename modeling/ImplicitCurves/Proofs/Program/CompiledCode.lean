import ImplicitCurves.Proofs.Program.CallGraph
import ImplicitCurves.Proofs.Program.WellFormed
import Mathlib.Data.List.Nodup

/-!
# Compiled code is well-formed

The code of a tree whose calls fit their definitions finds its operands, leaves one value, and refers
only to what the assembly has given out, or has after more has been compiled.  The functions of an
assembly are those that are called from the code, each once.  So finished programs are well-formed:
main statement `Assembly.wellFormed_ofCode`.
-/

namespace ImplicitCurves

/-- The chunk of a linked definition can be called with as many arguments as the definition has
parameters. -/
def Assembly.Callable (a : Assembly) (index count : Nat) : Prop :=
  ∃ id, (id, index) ∈ a.functions ∧ id.arity = count

/-- Code in a chunk of the given arity fits the assembly and changes the height from one number to
another, wherever it starts.  The definitions of `calls` have chunks. -/
structure Assembly.Emits (a : Assembly) (arity : Nat) (calls : List (FunctionKey × LinkId))
    (code : List Instruction) (before after : Nat) : Prop where
  fits : ∀ i ∈ code, i.Fits a.symbols.length arity a.Callable
  height : ∀ below, heightAfter (below + before) code = some (below + after)
  callees : ∀ key id, (key, id) ∈ calls → ∃ index, (id, index) ∈ a.functions

namespace Assembly

variable {a b : Assembly} {arity before between after : Nat}
  {calls calls' : List (FunctionKey × LinkId)} {code code' : List Instruction}

theorem Grows.fits (h : a.Grows b) {i : Instruction}
    (hi : i.Fits a.symbols.length arity a.Callable) : i.Fits b.symbols.length arity b.Callable :=
  hi.mono h.symbols.length_le fun _ _ ⟨id, hid, hcount⟩ => ⟨id, h.functions.subset hid, hcount⟩

theorem Emits.nil (a : Assembly) (arity height : Nat) : a.Emits arity [] [] height height where
  fits _ hmem := absurd hmem List.not_mem_nil
  height _ := rfl
  callees _ _ hmem := absurd hmem List.not_mem_nil

/-- An instruction that fits. -/
theorem emits_single (a : Assembly) (arity : Nat) {i : Instruction}
    (h : i.Fits a.symbols.length arity a.Callable) : a.Emits arity [] [i] i.operands 1 where
  fits j hmem := by rwa [List.mem_singleton.1 hmem]
  height below := by
    rw [heightAfter, if_pos (Nat.le_add_left _ _), Nat.add_sub_cancel, heightAfter]
  callees _ _ hmem := absurd hmem List.not_mem_nil

/-- Code keeps what is below it. -/
theorem Emits.above (h : a.Emits arity calls code before after) (below : Nat) :
    a.Emits arity calls code (below + before) (below + after) where
  fits := h.fits
  height lower := by rw [← Nat.add_assoc, ← Nat.add_assoc]; exact h.height (lower + below)
  callees := h.callees

/-- Code, then code that is compiled after it. -/
theorem Emits.append (h : a.Emits arity calls code before between) (hgrows : a.Grows b)
    (h' : b.Emits arity calls' code' between after) :
    b.Emits arity (calls ++ calls') (code ++ code') before after where
  fits i hmem := by
    rcases List.mem_append.1 hmem with hmem | hmem
    · exact hgrows.fits (h.fits i hmem)
    · exact h'.fits i hmem
  height below := by rw [heightAfter_append, h.height, Option.bind_some, h'.height]
  callees := by
    refine forall_mem_append_calls (fun key id hmem => ?_) h'.callees
    obtain ⟨index, hindex⟩ := h.callees key id hmem
    exact ⟨index, hgrows.functions.subset hindex⟩

/-- An operation on what the code has left. -/
theorem Emits.operation (h : a.Emits arity calls code before after) {i : Instruction}
    (hi : i.Fits a.symbols.length arity a.Callable) (hafter : i.operands = after) :
    a.Emits arity calls (code ++ [i]) before 1 := by
  subst hafter
  simpa using h.append (.refl a) (emits_single a arity hi)

/-- Two operands and an operation on them. -/
theorem Emits.operands (h : a.Emits arity calls code 0 1) (hgrows : a.Grows b)
    (h' : b.Emits arity calls' code' 0 1) {i : Instruction}
    (hi : i.Fits b.symbols.length arity b.Callable) (hoperands : i.operands = 2) :
    b.Emits arity (calls ++ calls') (code ++ code' ++ [i]) 0 1 :=
  (h.append hgrows (h'.above 1)).operation hi hoperands

/-- A loaded variable. -/
theorem emits_load (a : Assembly) (parameters : List Char) (name : Char) :
    (a.load parameters name).2.Emits parameters.length [] [(a.load parameters name).1] 0 1 := by
  have hload : (a.load parameters name).1.Fits (a.load parameters name).2.symbols.length
      parameters.length (a.load parameters name).2.Callable ∧
        (a.load parameters name).1.operands = 0 := by
    unfold load
    split
    · next index hindex =>
      exact ⟨(List.getElem?_eq_some_iff.1 (getElem?_of_slotOf hindex)).1, rfl⟩
    · exact ⟨(List.getElem?_eq_some_iff.1 (getElem?_ensureSlot a.symbols name)).1, rfl⟩
  have hsingle := emits_single _ _ hload.1
  rwa [hload.2] at hsingle

end Assembly

open Assembly

mutual

/-- The code of an expression leaves one value. -/
theorem Expression.emits_compile : ∀ (e : Expression) (parameters : List Char) (a : Assembly),
    e.callsFit = true → (e.compile parameters a).2.Emits parameters.length e.linkedCalls
      (e.compile parameters a).1 0 1
  | ⟨items⟩, parameters, a, h => emits_compileItems items parameters true a h

theorem emits_compileItems : ∀ (is : List Item) (parameters : List Char) (first : Bool)
    (a : Assembly), itemsFit is = true →
      (compileItems parameters first is a).2.Emits parameters.length (linkedCallsOfItems is)
        (compileItems parameters first is a).1 (if first then 0 else 1) 1
  | [], parameters, true, a, _ => emits_single a parameters.length (i := .pushConst 0) trivial
  | [], parameters, false, a, _ => .nil a parameters.length 1
  | i :: is, parameters, first, a, h => by
    obtain ⟨hitem, hrest⟩ := Bool.and_eq_true_iff.1 h
    have hproduct := i.emits_compileProduct parameters a hitem
    have hgrows := grows_compileItems is parameters false (i.compileProduct parameters a).2
    have hafter := emits_compileItems is parameters false (i.compileProduct parameters a).2 hrest
    refine Emits.append ?_ hgrows hafter
    cases first with
    | true =>
      cases i.positive with
      | true => exact hproduct
      | false =>
        have hzero := emits_single (i.compileProduct parameters a).2 parameters.length
          (i := .pushConst 0) trivial
        exact (hzero.append (.refl _) (hproduct.above 1)).operation (i := .sub) trivial rfl
    | false =>
      cases i.positive with
      | true => exact (hproduct.above 1).operation (i := .add) trivial rfl
      | false => exact (hproduct.above 1).operation (i := .sub) trivial rfl

theorem Item.emits_compileProduct : ∀ (i : Item) (parameters : List Char) (a : Assembly),
    i.callsFit = true → (i.compileProduct parameters a).2.Emits parameters.length i.linkedCalls
      (i.compileProduct parameters a).1 0 1
  | ⟨_, factors⟩, parameters, a, h => emits_compileFactors factors parameters true a h

theorem emits_compileFactors : ∀ (fs : List Factor) (parameters : List Char) (first : Bool)
    (a : Assembly), factorsFit fs = true →
      (compileFactors parameters first fs a).2.Emits parameters.length (linkedCallsOfFactors fs)
        (compileFactors parameters first fs a).1 (if first then 0 else 1) 1
  | [], parameters, true, a, _ => emits_single a parameters.length (i := .pushConst 1) trivial
  | [], parameters, false, a, _ => .nil a parameters.length 1
  | f :: fs, parameters, first, a, h => by
    obtain ⟨hfactor, hrest⟩ := Bool.and_eq_true_iff.1 h
    have hcode := f.emits_compile parameters a hfactor
    have hgrows := grows_compileFactors fs parameters false (f.compile parameters a).2
    have hafter := emits_compileFactors fs parameters false (f.compile parameters a).2 hrest
    refine Emits.append ?_ hgrows hafter
    cases first with
    | true => simpa using hcode
    | false => exact (hcode.above 1).operation (i := .mul) trivial rfl

theorem Factor.emits_compile : ∀ (f : Factor) (parameters : List Char) (a : Assembly),
    f.callsFit = true → (f.compile parameters a).2.Emits parameters.length f.linkedCalls
      (f.compile parameters a).1 0 1
  | .number x, parameters, a, _ | .variable _ (some x), parameters, a, _ =>
    emits_single a parameters.length (i := .pushConst x) trivial
  | .constant c, parameters, a, _ =>
    emits_single a parameters.length (i := .pushConst c.value) trivial
  | .variable name none, parameters, a, _ => a.emits_load parameters name
  | .fraction x y, parameters, a, h => by
    obtain ⟨hx, hy⟩ := Bool.and_eq_true_iff.1 h
    exact (x.emits_compile parameters a hx).operands (y.grows_compile parameters _)
      (y.emits_compile parameters _ hy) (i := .div) trivial rfl
  | .power x y, parameters, a, h => by
    obtain ⟨hx, hy⟩ := Bool.and_eq_true_iff.1 h
    exact (x.emits_compile parameters a hx).operands (y.grows_compile parameters _)
      (y.emits_compile parameters _ hy) (i := .pow) trivial rfl
  | .bracket x, parameters, a, h => x.emits_compile parameters a h
  | .unary f x, parameters, a, h =>
    (x.emits_compile parameters a h).operation (i := .call (.unary f) 1) rfl rfl
  | .logarithm x y, parameters, a, h => by
    obtain ⟨hx, hy⟩ := Bool.and_eq_true_iff.1 h
    exact (x.emits_compile parameters a hx).operands (y.grows_compile parameters _)
      (y.emits_compile parameters _ hy) (i := .call .logarithm 2) rfl rfl
  | .call _ _ .unlinked, parameters, a, _ =>
    emits_single a parameters.length (i := .pushConst (0 / 0)) trivial
  | .call name arguments (.linked pass d), parameters, a, h => by
    obtain ⟨hfirst, -⟩ := Bool.and_eq_true_iff.1 h
    obtain ⟨harguments, hlength⟩ := Bool.and_eq_true_iff.1 hfirst
    have hcode := emits_compileArguments arguments parameters a harguments
    have hindex := d.mem_chunkIndex pass (compileArguments parameters arguments a).2
    have hcall : (d.chunkIndex pass (compileArguments parameters arguments a).2).2.Emits
        parameters.length [(⟨name, arguments.length⟩, ⟨pass, d⟩)]
        [.call (.chunk (d.chunkIndex pass (compileArguments parameters arguments a).2).1)
          arguments.length] arguments.length 1 := by
      have hfits : (Instruction.call (.chunk (d.chunkIndex pass
          (compileArguments parameters arguments a).2).1) arguments.length).Fits
            (d.chunkIndex pass (compileArguments parameters arguments a).2).2.symbols.length
            parameters.length (d.chunkIndex pass (compileArguments parameters arguments a).2).2.Callable :=
        ⟨⟨pass, d⟩, hindex, eq_of_beq hlength⟩
      refine { emits_single _ parameters.length hfits with callees := fun key id hmem => ?_ }
      obtain ⟨-, rfl⟩ := Prod.mk.inj (List.mem_singleton.1 hmem)
      exact ⟨_, hindex⟩
    exact hcode.append (d.grows_chunkIndex pass _) hcall

theorem emits_compileArguments : ∀ (es : List Expression) (parameters : List Char) (a : Assembly),
    argumentsFit es = true → (compileArguments parameters es a).2.Emits parameters.length
      (linkedCallsOfArguments es) (compileArguments parameters es a).1 0 es.length
  | [], parameters, a, _ => .nil a parameters.length 0
  | e :: es, parameters, a, h => by
    obtain ⟨hfirst, hrest⟩ := Bool.and_eq_true_iff.1 h
    have hcode := e.emits_compile parameters a hfirst
    have hafter := emits_compileArguments es parameters (e.compile parameters a).2 hrest
    have happend := hcode.append (grows_compileArguments es parameters _) (hafter.above 1)
    rwa [Nat.add_comm 1] at happend

end

/-- Each variable has one slot, each linked definition one chunk, and the linked definitions are among
those that `P` holds of. -/
structure Assembly.Registers (P : LinkId → Prop) (a : Assembly) : Prop where
  symbols : a.symbols.Nodup
  keys : (a.functions.map (·.1)).Nodup
  functions : ∀ id index, (id, index) ∈ a.functions → P id

namespace Assembly

variable {P : LinkId → Prop} {a : Assembly}

theorem registers_initial (P : LinkId → Prop) : initial.Registers P where
  symbols := List.nodup_nil
  keys := List.nodup_nil
  functions _ _ hmem := absurd hmem List.not_mem_nil

theorem nodup_ensureSlot {symbols : List Char} (h : symbols.Nodup) (name : Char) :
    (ensureSlot symbols name).2.Nodup := by
  unfold ensureSlot
  split
  · exact h
  · next hnone =>
    have hnew : name ∉ symbols := by
      intro hmem
      have hno := List.findIdx?_eq_none_iff.1 hnone name hmem
      simp at hno
    exact List.concat_eq_append ▸ h.concat hnew

theorem Registers.load (h : a.Registers P) (parameters : List Char) (name : Char) :
    (a.load parameters name).2.Registers P := by
  unfold Assembly.load
  split
  · exact h
  · exact ⟨nodup_ensureSlot h.symbols name, h.keys, h.functions⟩

/-- A definition that has no chunk yet can be given one. -/
theorem Registers.reserve (h : a.Registers P) {id : LinkId} (hid : P id)
    (hnew : a.functions.lookup id = none) (arity : Nat) : (a.reserve id arity).Registers P where
  symbols := h.symbols
  keys := by
    have hkey : id ∉ a.functions.map (·.1) := by
      intro hmem
      obtain ⟨⟨id', index⟩, hpair, rfl⟩ := List.mem_map.1 hmem
      have hne := List.lookup_eq_none_iff.1 hnew _ hpair
      simp at hne
    rw [Assembly.reserve, List.map_append, List.map_singleton, ← List.concat_eq_append]
    exact h.keys.concat hkey
  functions id' index hmem := by
    rcases List.mem_append.1 hmem with hmem | hmem
    · exact h.functions id' index hmem
    · obtain ⟨rfl, -⟩ := Prod.mk.inj (List.mem_singleton.1 hmem)
      exact hid

theorem Registers.fill (h : a.Registers P) (index arity : Nat) (code : List Instruction) :
    (a.fill index arity code).Registers P :=
  ⟨h.symbols, h.keys, h.functions⟩

end Assembly

section Registers

variable {P : LinkId → Prop}

/-- What is passed on to the calls in the bodies of definitions. -/
def PassedOn (P : LinkId → Prop) : Prop :=
  ∀ id, P id → ∀ key id', (key, id') ∈ id.definition.body.linkedCalls → P id'

mutual

/-- Compiling gives chunks to definitions that are called, and to each only once. -/
theorem Expression.registers_compile (hP : PassedOn P) : ∀ (e : Expression)
    (parameters : List Char) (a : Assembly), (∀ key id, (key, id) ∈ e.linkedCalls → P id) →
      a.Registers P → (e.compile parameters a).2.Registers P
  | ⟨items⟩, parameters, a, hcalls, ha => registers_compileItems hP items parameters true a hcalls ha

theorem registers_compileItems (hP : PassedOn P) : ∀ (is : List Item) (parameters : List Char)
    (first : Bool) (a : Assembly), (∀ key id, (key, id) ∈ linkedCallsOfItems is → P id) →
      a.Registers P → (compileItems parameters first is a).2.Registers P
  | [], _, _, _, _, ha => ha
  | ⟨_, factors⟩ :: is, parameters, _, a, hcalls, ha =>
    registers_compileItems hP is parameters false _
      (fun key id hmem => hcalls key id (List.mem_append_right _ hmem))
      (registers_compileFactors hP factors parameters true a
        (fun key id hmem => hcalls key id (List.mem_append_left _ hmem)) ha)

theorem registers_compileFactors (hP : PassedOn P) : ∀ (fs : List Factor)
    (parameters : List Char) (first : Bool) (a : Assembly),
      (∀ key id, (key, id) ∈ linkedCallsOfFactors fs → P id) →
      a.Registers P → (compileFactors parameters first fs a).2.Registers P
  | [], _, _, _, _, ha => ha
  | f :: fs, parameters, _, a, hcalls, ha =>
    registers_compileFactors hP fs parameters false _
      (fun key id hmem => hcalls key id (List.mem_append_right _ hmem))
      (f.registers_compile hP parameters a
        (fun key id hmem => hcalls key id (List.mem_append_left _ hmem)) ha)

theorem Factor.registers_compile (hP : PassedOn P) : ∀ (f : Factor) (parameters : List Char)
    (a : Assembly), (∀ key id, (key, id) ∈ f.linkedCalls → P id) →
      a.Registers P → (f.compile parameters a).2.Registers P
  | .number _, _, _, _, ha | .constant _, _, _, _, ha | .variable _ (some _), _, _, _, ha
  | .call _ _ .unlinked, _, _, _, ha => ha
  | .variable name none, parameters, _, _, ha => ha.load parameters name
  | .fraction x y, parameters, a, hcalls, ha | .power x y, parameters, a, hcalls, ha
  | .logarithm x y, parameters, a, hcalls, ha =>
    y.registers_compile hP parameters _
      (fun key id hmem => hcalls key id (List.mem_append_right _ hmem))
      (x.registers_compile hP parameters a
        (fun key id hmem => hcalls key id (List.mem_append_left _ hmem)) ha)
  | .bracket x, parameters, a, hcalls, ha | .unary _ x, parameters, a, hcalls, ha =>
    x.registers_compile hP parameters a hcalls ha
  | .call _ arguments (.linked pass d), parameters, a, hcalls, ha =>
    d.registers_chunkIndex hP pass _
      (hcalls _ _ (List.mem_append_right _ (List.mem_singleton.2 rfl)))
      (registers_compileArguments hP arguments parameters a
        (fun key id hmem => hcalls key id (List.mem_append_left _ hmem)) ha)

theorem registers_compileArguments (hP : PassedOn P) : ∀ (es : List Expression)
    (parameters : List Char) (a : Assembly),
      (∀ key id, (key, id) ∈ linkedCallsOfArguments es → P id) →
      a.Registers P → (compileArguments parameters es a).2.Registers P
  | [], _, _, _, ha => ha
  | e :: es, parameters, a, hcalls, ha =>
    registers_compileArguments hP es parameters _
      (fun key id hmem => hcalls key id (List.mem_append_right _ hmem))
      (e.registers_compile hP parameters a
        (fun key id hmem => hcalls key id (List.mem_append_left _ hmem)) ha)

theorem FunctionDefinition.registers_chunkIndex (hP : PassedOn P) : ∀ (d : FunctionDefinition)
    (pass : Nat) (a : Assembly), P ⟨pass, d⟩ → a.Registers P →
      (d.chunkIndex pass a).2.Registers P
  | ⟨name, parameters, body, globals⟩, pass, a, hd, ha => by
    simp only [FunctionDefinition.chunkIndex]
    split
    · exact ha
    · next hnew =>
      have hbody := body.registers_compile hP parameters _
        (fun key id hmem => hP _ hd key id hmem) (ha.reserve hd hnew parameters.length)
      exact hbody.fill _ _ _

end

end Registers

namespace Assembly

variable {a : Assembly} {calls : List (FunctionKey × LinkId)} {code : List Instruction} {bound : Nat}

/-- A chunk of a finished program holds the main code or the code of the body of a definition. -/
theorem chunk_cases (h : initial.Grows a) {c : Chunk} (hc : c ∈ (Program.ofCode code a).chunks) :
    c = ⟨0, code.toArray⟩ ∨ ∃ id index, (id, index) ∈ a.functions ∧ a.chunks[index]? = some c := by
  obtain ⟨index, hindex⟩ := Array.mem_iff_getElem?.1 hc
  rcases Nat.eq_zero_or_pos index with rfl | hpos
  · have hmain : 0 < a.chunks.size := h.size
    have hchunk : (Program.ofCode code a).chunks[0]? = some ⟨0, code.toArray⟩ := by
      simp [Program.ofCode, Assembly.fill, hmain]
    exact .inl (Option.some.inj (hindex.symm.trans hchunk))
  · rw [getElem?_ofCode hpos] at hindex
    obtain ⟨id, hid⟩ := (h.aligned aligned_initial).exists_mem hpos
      (Array.getElem?_eq_some_iff.1 hindex).1
    exact .inr ⟨id, index, hid, hindex⟩

/-- What can be called in an assembly can be called in the finished program. -/
theorem callable_ofCode (h : initial.Grows a) {index count : Nat} (hcall : a.Callable index count) :
    (Program.ofCode code a).Callable index count := by
  obtain ⟨id, hid, rfl⟩ := hcall
  obtain ⟨hpos, b, code', b', -, -, -, hchunk⟩ := h.holds hid
  exact ⟨hpos, by rw [getElem?_ofCode hpos, hchunk]; rfl⟩

/-- A finished program is well-formed if the calls in its definitions fit. -/
theorem wellFormed_ofCode (h : initial.Grows a)
    (hregisters : a.Registers fun id => id.definition.bodyFits = true)
    (hcode : a.Emits 0 calls code 0 1) (hcalls : CallsBelow a.functions bound code) :
    (Program.ofCode code a).WellFormed where
  main := by
    have hmain : 0 < a.chunks.size := h.size
    simp [Program.ofCode, Assembly.fill, hmain]
  chunks c hc := by
    have hmono : ∀ {arity : Nat} {i : Instruction}, i.Fits a.symbols.length arity a.Callable →
        i.Fits (Program.ofCode code a).symbols.length arity (Program.ofCode code a).Callable :=
      fun hi => hi.mono (Nat.le_refl _) fun _ _ => callable_ofCode h
    rcases chunk_cases h hc with rfl | ⟨id, index, hid, hchunk⟩
    · exact ⟨fun i hi => hmono (hcode.fits i (by simpa using hi)), by simpa using hcode.height 0⟩
    · obtain ⟨-, b, code', b', hcompile, hsymbols, hfunctions, hchunk'⟩ := h.holds hid
      obtain rfl := Option.some.inj (hchunk.symm.trans hchunk')
      have hfits : id.definition.body.callsFit = true := by
        have hbody := hregisters.functions id index hid
        cases hd : id.definition
        rwa [hd] at hbody
      have hemits := id.definition.body.emits_compile id.definition.parameters b hfits
      rw [hcompile] at hemits
      refine ⟨fun i hi => hmono ?_, by simpa using hemits.height 0⟩
      refine (hemits.fits i (by simpa using hi)).mono hsymbols.length_le fun _ _ hcallable => ?_
      obtain ⟨id', hid', hcount⟩ := hcallable
      exact ⟨id', hfunctions.subset hid', hcount⟩
  acyclic := acyclic_ofCode h hcalls
  nodup := hregisters.symbols

end Assembly

end ImplicitCurves

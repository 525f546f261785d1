import ImplicitCurves.Proofs.Program.CompiledCode
import ImplicitCurves.Proofs.Tree.OnePass

/-!
# Compiled programs

The programs of expressions and equations are well-formed.  If their links are those of one pass, then
apart from the main chunk there is exactly one for each function that is called.
-/

namespace ImplicitCurves

/-- Apart from the main chunk there is exactly one for each function that is called from the code of
some expressions, with the code of the body of the definition that its calls are linked to. -/
def Program.ChunkPerFunction (p : Program) (es : List Expression) : Prop :=
  ∃ chunkOf : FunctionKey → Nat,
    (∀ key id, Called es key id → 0 < chunkOf key ∧ ∃ a, p.chunks[chunkOf key]? =
      some ⟨key.arity, (id.definition.body.compile id.definition.parameters a).1.toArray⟩) ∧
    (∀ key id key' id', Called es key id → Called es key' id' → chunkOf key = chunkOf key' →
      key = key') ∧
    ∀ chunk, 0 < chunk → chunk < p.chunks.size → ∃ key id, Called es key id ∧ chunkOf key = chunk

/-- The main code of a program for some expressions, and the assembly after all of them have been
compiled. -/
structure Assembly.Completes (a : Assembly) (es : List Expression) (code : List Instruction) :
    Prop where
  grows : initial.Grows a
  emits : a.Emits 0 (linkedCallsOfArguments es) code 0 1
  registers : ∀ P, PassedOn P → (∀ key id, (key, id) ∈ linkedCallsOfArguments es → P id) →
    a.Registers P
  calls : ∃ bound, CallsBelow a.functions bound code

theorem mem_linkedCallsOfArguments {key : FunctionKey} {id : LinkId} {es : List Expression} :
    (key, id) ∈ linkedCallsOfArguments es ↔ ∃ e ∈ es, (key, id) ∈ e.linkedCalls := by
  induction es with
  | nil => simp [linkedCallsOfArguments]
  | cons e es ih => simp [linkedCallsOfArguments, ih]

/-- A definition with a chunk is found there. -/
theorem Assembly.Registers.lookup {P : LinkId → Prop} {a : Assembly} (h : a.Registers P)
    {id : LinkId} {index : Nat} (hmem : (id, index) ∈ a.functions) :
    a.functions.lookup id = some index := by
  cases hlookup : a.functions.lookup id with
  | none =>
    have hne := List.lookup_eq_none_iff.1 hlookup _ hmem
    simp at hne
  | some index' =>
    have hmem' := mem_of_lookup_eq_some hlookup
    exact congrArg (some ·.2) (List.inj_on_of_nodup_map h.keys hmem' hmem rfl)

namespace Assembly.Completes

variable {a : Assembly} {es : List Expression} {code : List Instruction}

theorem wellFormed (h : a.Completes es code) (hfits : argumentsFit es = true) :
    (Program.ofCode code a).WellFormed := by
  obtain ⟨bound, hcalls⟩ := h.calls
  have hregisters : a.Registers fun id => id.definition.bodyFits = true := by
    refine h.registers _ (fun id hid key id' hmem => ?_) fun key id hmem =>
      (callFits_arguments es hfits key id hmem).2
    have hcall : CallFits ⟨id.definition.name, id.arity⟩ id := ⟨rfl, hid⟩
    exact (hcall.body key id' hmem).2
  exact wellFormed_ofCode h.grows hregisters h.emits hcalls

/-- The definitions with chunks are those that are called. -/
theorem exists_function_iff (h : a.Completes es code) (hfits : argumentsFit es = true) (id : LinkId) :
    (∃ index, (id, index) ∈ a.functions) ↔ ∃ key, Called es key id := by
  constructor
  · rintro ⟨index, hmem⟩
    have hregisters : a.Registers fun id => ∃ key, Called es key id := by
      refine h.registers _ (fun id ⟨key, hid⟩ key' id' hcall => ⟨key', .inside hid hcall⟩) ?_
      intro key id hcall
      obtain ⟨e, he, hcall⟩ := mem_linkedCallsOfArguments.1 hcall
      exact ⟨key, .direct he hcall⟩
    exact hregisters.functions id index hmem
  · rintro ⟨key, hcalled⟩
    suffices hboth : CallFits key id ∧ ∃ index, (id, index) ∈ a.functions from hboth.2
    refine hcalled.of_closed (P := fun key id => CallFits key id ∧
      ∃ index, (id, index) ∈ a.functions) ?_ ?_
    · intro e he key id hcall
      have hmem := mem_linkedCallsOfArguments.2 ⟨e, he, hcall⟩
      exact ⟨callFits_arguments es hfits key id hmem, h.emits.callees key id hmem⟩
    · rintro key id ⟨hid, index, hindex⟩ key' id' hcall
      obtain ⟨-, b, code', b', hcompile, -, hfunctions, -⟩ := h.grows.holds hindex
      have hbody : id.definition.body.callsFit = true := by
        have hfits' := hid.2
        cases hd : id.definition
        rwa [hd] at hfits'
      have hemits := id.definition.body.emits_compile id.definition.parameters b hbody
      rw [hcompile] at hemits
      obtain ⟨index', hindex'⟩ := hemits.callees key' id' hcall
      exact ⟨hid.body key' id' hcall, index', hfunctions.subset hindex'⟩

/-- If all links are those of one pass, then each function that is called has one chunk. -/
theorem chunkPerFunction (h : a.Completes es code) (hfits : argumentsFit es = true) {pass : Nat}
    {done : List (FunctionKey × FunctionDefinition)} (hdone : Coherent pass done)
    (hlinks : LinksFrom pass done (linkedCallsOfArguments es)) :
    (Program.ofCode code a).ChunkPerFunction es := by
  have haligned := h.grows.aligned aligned_initial
  have hregisters := h.registers (fun _ => True) (fun _ _ _ _ _ => trivial) fun _ _ _ => trivial
  have hcalled : ∀ {key id}, Called es key id →
      id.pass = pass ∧ done.lookup key = some id.definition := by
    intro key id hid
    refine hid.of_closed (P := fun key id => id.pass = pass ∧ done.lookup key = some id.definition)
      (fun e he key id hcall => hlinks key id (mem_linkedCallsOfArguments.2 ⟨e, he, hcall⟩)) ?_
    exact fun key id hid => (hdone key id.definition hid.2).2
  have hkey : ∀ {key id}, Called es key id → id.definition.key = key :=
    fun hid => (hdone _ _ (hcalled hid).2).1
  obtain ⟨chunkOf, hchunkOf⟩ : ∃ chunkOf : FunctionKey → Nat, ∀ key id index, Called es key id →
      (id, index) ∈ a.functions → chunkOf key = index := by
    refine ⟨fun key => ((done.lookup key).bind fun d => a.functions.lookup ⟨pass, d⟩).getD 0, ?_⟩
    intro key id index hid hmem
    obtain ⟨hpass, hlookup⟩ := hcalled hid
    have hfound : a.functions.lookup ⟨pass, id.definition⟩ = some index := by
      rw [← hpass]
      exact hregisters.lookup hmem
    simp only [hlookup, Option.bind_some, hfound, Option.getD_some]
  refine ⟨chunkOf, fun key id hid => ?_, fun key id key' id' hid hid' hsame => ?_,
    fun chunk hpos hlt => ?_⟩
  · obtain ⟨index, hindex⟩ := (h.exists_function_iff hfits id).2 ⟨key, hid⟩
    obtain ⟨hpos, b, code', b', hcompile, -, -, hchunk⟩ := h.grows.holds hindex
    have harity : id.arity = key.arity := congrArg FunctionKey.arity (hkey hid)
    rw [hchunkOf key id index hid hindex, getElem?_ofCode hpos, hchunk, harity]
    exact ⟨hpos, b, by rw [hcompile]⟩
  · obtain ⟨index, hindex⟩ := (h.exists_function_iff hfits id).2 ⟨key, hid⟩
    obtain ⟨index', hindex'⟩ := (h.exists_function_iff hfits id').2 ⟨key', hid'⟩
    rw [hchunkOf key id index hid hindex, hchunkOf key' id' index' hid' hindex'] at hsame
    subst hsame
    have hplace := (haligned.getElem? hindex).2
    rw [(haligned.getElem? hindex').2] at hplace
    obtain rfl : id' = id := congrArg Prod.fst (Option.some.inj hplace)
    exact (hkey hid).symm.trans (hkey hid')
  · have hsize : (Program.ofCode code a).chunks.size = a.chunks.size := by
      simp [Program.ofCode, Assembly.fill]
    obtain ⟨id, hid⟩ := haligned.exists_mem hpos (hsize ▸ hlt)
    obtain ⟨key, hcall⟩ := (h.exists_function_iff hfits id).1 ⟨chunk, hid⟩
    exact ⟨key, id, hcall, hchunkOf key id chunk hcall hid⟩

end Assembly.Completes

/-- The program of an expression. -/
theorem Expression.completes_program (e : Expression) (h : e.callsFit = true) :
    (e.compile [] .initial).2.Completes [e] (e.compile [] .initial).1 where
  grows := e.grows_compile [] _
  emits := by
    simpa [linkedCallsOfArguments] using e.emits_compile [] .initial h
  registers P hP hcalls :=
    e.registers_compile hP [] _
      (fun key id hmem => hcalls key id (List.mem_append_left _ hmem)) (Assembly.registers_initial P)
  calls := ⟨_, e.callsBelow_compile [] .initial⟩

/-- The program of an equation. -/
theorem Equation.completes_program (eq : Equation) (hlhs : eq.lhs.callsFit = true)
    (hrhs : eq.rhs.callsFit = true) :
    (eq.rhs.compile [] (eq.lhs.compile [] .initial).2).2.Completes [eq.lhs, eq.rhs]
      ((eq.lhs.compile [] .initial).1 ++ (eq.rhs.compile [] (eq.lhs.compile [] .initial).2).1 ++
        [.sub]) where
  grows := (eq.lhs.grows_compile [] _).trans (eq.rhs.grows_compile [] _)
  emits := by
    have hsides := (eq.lhs.emits_compile [] .initial hlhs).operands (eq.rhs.grows_compile [] _)
      (eq.rhs.emits_compile [] _ hrhs) (i := .sub) trivial rfl
    simpa [linkedCallsOfArguments] using hsides
  registers P hP hcalls :=
    eq.rhs.registers_compile hP [] _
      (fun key id hmem => hcalls key id
        (List.mem_append_right _ (List.mem_append_left _ hmem)))
      (eq.lhs.registers_compile hP [] _
        (fun key id hmem => hcalls key id (List.mem_append_left _ hmem))
        (Assembly.registers_initial P))
  calls := by
    have hsides := (eq.lhs.callsBelow_compile [] .initial).append_grows
      (eq.rhs.grows_compile [] _) (eq.rhs.callsBelow_compile [] _)
      (Nat.le_add_right _ (sizeOf eq.rhs)) (Nat.le_add_left _ _)
    exact ⟨_, hsides.operation rfl⟩

/-- The programs of expressions and of equations whose calls fit are well-formed, and machines keep
their frames while running them.  If all links are those that one pass has made, then there is one
chunk for each function that is called. -/
theorem Program.compiled_wellFormed {α : Type} [Scalar α] :
    (∀ e : Expression, e.callsFit = true →
      e.program.WellFormed ∧ (∀ slots : Array α, e.program.KeepsFrames slots) ∧
        ∀ (table : FunctionTable) (pass : Nat) (sources : List Expression),
          LinksFrom pass (table.doneBy pass sources) e.linkedCalls →
            e.program.ChunkPerFunction [e]) ∧
    ∀ eq : Equation, eq.lhs.callsFit = true → eq.rhs.callsFit = true →
      eq.program.WellFormed ∧ (∀ slots : Array α, eq.program.KeepsFrames slots) ∧
        ∀ (table : FunctionTable) (pass : Nat) (sources : List Expression),
          LinksFrom pass (table.doneBy pass sources) (eq.lhs.linkedCalls ++ eq.rhs.linkedCalls) →
            eq.program.ChunkPerFunction [eq.lhs, eq.rhs] := by
  constructor
  · intro e hfits
    have hcompletes := e.completes_program hfits
    have hside : argumentsFit [e] = true := by simp [argumentsFit, hfits]
    have hwell : e.program.WellFormed := hcompletes.wellFormed hside
    refine ⟨hwell, fun slots => hwell.keepsFrames, fun table pass sources hlinks => ?_⟩
    exact hcompletes.chunkPerFunction hside (table.coherent_doneBy pass sources)
      (by simpa [linkedCallsOfArguments] using hlinks)
  · intro eq hlhs hrhs
    have hcompletes := eq.completes_program hlhs hrhs
    have hsides : argumentsFit [eq.lhs, eq.rhs] = true := by simp [argumentsFit, hlhs, hrhs]
    have hwell : eq.program.WellFormed := hcompletes.wellFormed hsides
    refine ⟨hwell, fun slots => hwell.keepsFrames, fun table pass sources hlinks => ?_⟩
    exact hcompletes.chunkPerFunction hsides (table.coherent_doneBy pass sources)
      (by simpa [linkedCallsOfArguments] using hlinks)

/-- With `g(u) = u + a` and `f(t) = g(t)g(2)`, linking `f(x) + g(f(1))` gives a program with two chunks
besides the main one, and so does the equation that it is zero. -/
theorem Program.compiled_wellFormed_nested :
    let call (name : Char) (argument : Factor) : Factor :=
      .call name [.ofFactor argument] .unlinked
    let g : FunctionDefinition := ⟨'g', ['u'],
      ⟨[⟨true, [.variable 'u' none]⟩, ⟨true, [.variable 'a' none]⟩]⟩, ['a']⟩
    let f : FunctionDefinition := ⟨'f', ['t'],
      ⟨[⟨true, [call 'g' (.variable 't' none), call 'g' (.number 2)]⟩]⟩, []⟩
    let table : FunctionTable := (Directory.empty.insert f).insert g
    let e : Expression :=
      ⟨[⟨true, [call 'f' (.variable 'x' none)]⟩, ⟨true, [call 'g' (call 'f' (.number 1))]⟩]⟩
    let linked := (e.link table).1
    let eq : Equation := .withZero linked
    (linked.callsFit = true ∧ linked.program.WellFormed ∧ linked.program.ChunkPerFunction [linked] ∧
      linked.program.chunks.size = 3) ∧
    (eq.rhs.callsFit = true ∧ eq.program.WellFormed ∧ eq.program.ChunkPerFunction [linked, .zero] ∧
      eq.program.chunks.size = 3) := by
  intro call g f table e linked eq
  have hfits : linked.callsFit = true := by decide +kernel
  have hlink : e.link table = (linked, none) := Prod.ext rfl (by decide +kernel)
  obtain ⟨pass, hpass⟩ := Expression.exists_pass_of_link hlink
  have hlinks : LinksFrom pass (table.doneBy pass [e]) linked.linkedCalls := by
    simpa [linkedCallsOfArguments] using FunctionTable.linksFrom_doneBy hpass
  have hzero : eq.rhs.callsFit = true := rfl
  obtain ⟨hexpression, hequation⟩ := @Program.compiled_wellFormed Float _
  obtain ⟨hwell, -, hchunks⟩ := hexpression linked hfits
  obtain ⟨hwell', -, hchunks'⟩ := hequation eq hfits hzero
  have hlinks' : LinksFrom pass (table.doneBy pass [e]) (eq.lhs.linkedCalls ++ eq.rhs.linkedCalls) :=
    forall_mem_append_calls hlinks (linksFrom_nil pass _)
  exact ⟨⟨hfits, hwell, hchunks table pass [e] hlinks, by decide +kernel⟩,
    hzero, hwell', hchunks' table pass [e] hlinks', by decide +kernel⟩

end ImplicitCurves

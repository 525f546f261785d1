import ImplicitCurves.Proofs.Program.LinkedCalls
import Mathlib.Data.List.Basic

/-!
# Growth of assemblies

Compiling only ever adds to an assembly: slots are given out in order, chunks that are there stay as
they are, and each linked definition that gets an index has its chunk filled with the code of its
body by the time that compiling goes on.  All functions of the compiler keep this, which is what
`Assembly.Grows` says.
-/

namespace ImplicitCurves

namespace Assembly

/-- The chunk with the given index holds the code of the body of a definition, and what that code
relies on is part of the assembly. -/
def Holds (a : Assembly) (id : LinkId) (index : Nat) : Prop :=
  ∃ b code b', id.definition.body.compile id.definition.parameters b = (code, b') ∧
    b'.symbols <+: a.symbols ∧ b'.functions <+: a.functions ∧
    a.chunks[index]? = some ⟨id.arity, code.toArray⟩

/-- Chunks after the main one belong to linked definitions, in the same order. -/
def Aligned (a : Assembly) : Prop :=
  a.functions.map (·.2) = List.range' 1 a.functions.length ∧
    a.chunks.size = a.functions.length + 1

/-- The second assembly has everything that the first one has, in the same places, and a filled chunk
for each linked definition that is new. -/
structure Grows (a b : Assembly) : Prop where
  symbols : a.symbols <+: b.symbols
  functions : a.functions <+: b.functions
  size : a.chunks.size ≤ b.chunks.size
  chunks : ∀ index < a.chunks.size, b.chunks[index]? = a.chunks[index]?
  filled : ∀ id index, (id, index) ∈ b.functions → (id, index) ∉ a.functions →
    a.chunks.size ≤ index ∧ b.Holds id index
  aligned : a.Aligned → b.Aligned

theorem Grows.refl (a : Assembly) : a.Grows a where
  symbols := List.prefix_rfl
  functions := List.prefix_rfl
  size := Nat.le_refl _
  chunks _ _ := rfl
  filled _ _ hmem hnew := absurd hmem hnew
  aligned h := h

/-- A filled chunk stays filled. -/
theorem Holds.mono {a b : Assembly} (h : a.Grows b) {id : LinkId} {index : Nat}
    (hid : a.Holds id index) : b.Holds id index := by
  obtain ⟨c, code, c', hcompile, hsymbols, hfunctions, hchunk⟩ := hid
  have hlt := (Array.getElem?_eq_some_iff.1 hchunk).1
  refine ⟨c, code, c', hcompile, hsymbols.trans h.symbols, hfunctions.trans h.functions, ?_⟩
  rw [h.chunks index hlt, hchunk]

theorem Grows.trans {a b c : Assembly} (hab : a.Grows b) (hbc : b.Grows c) : a.Grows c where
  symbols := hab.symbols.trans hbc.symbols
  functions := hab.functions.trans hbc.functions
  size := Nat.le_trans hab.size hbc.size
  chunks index hindex := by
    rw [hbc.chunks index (Nat.lt_of_lt_of_le hindex hab.size), hab.chunks index hindex]
  filled id index hmem hnew := by
    by_cases hb : (id, index) ∈ b.functions
    · obtain ⟨hle, hid⟩ := hab.filled id index hb hnew
      exact ⟨hle, hid.mono hbc⟩
    · obtain ⟨hle, hid⟩ := hbc.filled id index hmem hb
      exact ⟨Nat.le_trans hab.size hle, hid⟩
  aligned h := hbc.aligned (hab.aligned h)

/-- Loading a variable at most gives out a slot. -/
theorem grows_load (a : Assembly) (parameters : List Char) (name : Char) :
    a.Grows (a.load parameters name).2 := by
  unfold load
  split
  · exact Grows.refl a
  · refine ⟨prefix_ensureSlot a.symbols name, List.prefix_rfl, Nat.le_refl _, fun _ _ => rfl, ?_, id⟩
    intro id index hmem hnew
    exact absurd hmem hnew

/-- If compiling the body of a definition only adds to the assembly with room for its chunk, then
filling that chunk with the code of the body completes a larger assembly. -/
theorem grows_fill {a b : Assembly} {id : LinkId} {code : List Instruction}
    (hgrows : (a.reserve id id.arity).Grows b)
    (hcode : id.definition.body.compile id.definition.parameters (a.reserve id id.arity) =
      (code, b)) : a.Grows (b.fill a.chunks.size id.arity code) := by
  have hroom : a.chunks.size < b.chunks.size := by
    have := hgrows.size
    simp only [reserve, Array.size_push] at this
    omega
  have hfunctions : a.functions <+: b.functions :=
    (List.prefix_append _ _).trans hgrows.functions
  have hkeep : ∀ index, index ≠ a.chunks.size →
      (b.fill a.chunks.size id.arity code).chunks[index]? = b.chunks[index]? := fun index hne => by
    simp [fill, Ne.symm hne]
  refine ⟨hgrows.symbols, hfunctions, ?_, ?_, ?_, ?_⟩
  · simp only [fill, Array.size_setIfInBounds]; omega
  · intro index hindex
    have hchunk := hgrows.chunks index (by simp only [reserve, Array.size_push]; omega)
    rw [hkeep index (by omega), hchunk]
    simp [reserve, Array.getElem?_push, Nat.ne_of_lt hindex]
  · intro id' index hmem hnew
    by_cases hreserved : (id', index) ∈ (a.reserve id id.arity).functions
    · -- The definition itself.
      rcases List.mem_append.1 hreserved with hold | hself
      · exact absurd hold hnew
      · obtain ⟨rfl, rfl⟩ := Prod.mk.inj (List.mem_singleton.1 hself)
        refine ⟨Nat.le_refl _, _, code, b, hcode, List.prefix_rfl, List.prefix_rfl, ?_⟩
        simp [fill, hroom]
    · -- A definition inside of the body: its chunk was filled while the body was compiled.
      obtain ⟨hle, c, code', c', hcompile, hsymbols, hfunctions', hchunk⟩ :=
        hgrows.filled id' index hmem hreserved
      simp only [reserve, Array.size_push] at hle
      refine ⟨by omega, c, code', c', hcompile, hsymbols, hfunctions', ?_⟩
      rw [hkeep index (by omega), hchunk]
  · intro haligned
    have hreserve : (a.reserve id id.arity).Aligned := by
      obtain ⟨hindices, hsize⟩ := haligned
      refine ⟨?_, ?_⟩
      · simp only [reserve, List.map_append, hindices, List.map_cons, List.map_nil, hsize,
          List.length_append, List.length_singleton, List.range'_concat, Nat.one_mul]
        rw [Nat.add_comm 1]
      · simp only [reserve, Array.size_push, List.length_append, List.length_singleton, hsize]
    obtain ⟨hindices, hsize⟩ := hgrows.aligned hreserve
    exact ⟨hindices, by simpa only [fill, Array.size_setIfInBounds] using hsize⟩

end Assembly

mutual

theorem Expression.grows_compile : ∀ (e : Expression) (parameters : List Char) (a : Assembly),
    a.Grows (e.compile parameters a).2
  | ⟨items⟩, parameters, a => grows_compileItems items parameters true a

theorem grows_compileItems : ∀ (is : List Item) (parameters : List Char) (first : Bool)
    (a : Assembly), a.Grows (compileItems parameters first is a).2
  | [], _, _, a => .refl a
  | i :: is, parameters, _, a =>
    (i.grows_compileProduct parameters a).trans (grows_compileItems is parameters false _)

theorem Item.grows_compileProduct : ∀ (i : Item) (parameters : List Char) (a : Assembly),
    a.Grows (i.compileProduct parameters a).2
  | ⟨_, factors⟩, parameters, a => grows_compileFactors factors parameters true a

theorem grows_compileFactors : ∀ (fs : List Factor) (parameters : List Char) (first : Bool)
    (a : Assembly), a.Grows (compileFactors parameters first fs a).2
  | [], _, _, a => .refl a
  | f :: fs, parameters, _, a =>
    (f.grows_compile parameters a).trans (grows_compileFactors fs parameters false _)

theorem Factor.grows_compile : ∀ (f : Factor) (parameters : List Char) (a : Assembly),
    a.Grows (f.compile parameters a).2
  | .number _, _, a => .refl a
  | .constant _, _, a => .refl a
  | .variable _ (some _), _, a => .refl a
  | .variable name none, parameters, a => a.grows_load parameters name
  | .fraction x y, parameters, a =>
    (x.grows_compile parameters a).trans (y.grows_compile parameters _)
  | .power x y, parameters, a =>
    (x.grows_compile parameters a).trans (y.grows_compile parameters _)
  | .bracket x, parameters, a => x.grows_compile parameters a
  | .unary _ x, parameters, a => x.grows_compile parameters a
  | .logarithm x y, parameters, a =>
    (x.grows_compile parameters a).trans (y.grows_compile parameters _)
  | .call _ _ .unlinked, _, a => .refl a
  | .call _ arguments (.linked pass definition), parameters, a =>
    (grows_compileArguments arguments parameters a).trans (definition.grows_chunkIndex pass _)

theorem grows_compileArguments : ∀ (es : List Expression) (parameters : List Char) (a : Assembly),
    a.Grows (compileArguments parameters es a).2
  | [], _, a => .refl a
  | e :: es, parameters, a =>
    (e.grows_compile parameters a).trans (grows_compileArguments es parameters _)

theorem FunctionDefinition.grows_chunkIndex : ∀ (d : FunctionDefinition) (pass : Nat)
    (a : Assembly), a.Grows (d.chunkIndex pass a).2
  | ⟨name, parameters, body, globals⟩, pass, a => by
    simp only [FunctionDefinition.chunkIndex]
    split
    · exact .refl a
    · exact Assembly.grows_fill (body.grows_compile parameters _) rfl

end

/-- The index of a definition is among those that have been given out. -/
theorem FunctionDefinition.mem_chunkIndex (d : FunctionDefinition) (pass : Nat) (a : Assembly) :
    (⟨pass, d⟩, (d.chunkIndex pass a).1) ∈ (d.chunkIndex pass a).2.functions := by
  obtain ⟨name, parameters, body, globals⟩ := d
  simp only [FunctionDefinition.chunkIndex]
  split
  · next index hindex =>
    obtain ⟨xs, ys, hfunctions, -⟩ := List.lookup_eq_some_iff.1 hindex
    simp [hfunctions]
  · refine (body.grows_compile parameters _).functions.subset ?_
    simp [Assembly.reserve]

end ImplicitCurves

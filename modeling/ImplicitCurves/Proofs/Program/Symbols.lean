import ImplicitCurves.Proofs.Program.CompiledCode
import ImplicitCurves.Proofs.Tree.Dependence
import ImplicitCurves.Proofs.Tree.FittingCalls

/-!
# The symbols of a program

Compiling gives slots only to variables that are read from the environment: those that are free in the
tree, and those that the bodies of linked definitions read besides their parameters.  If every call is
linked, then all of them get one.  So what is computed depends on no other variables: main statement
`freeVariablesLinked_exact`.
-/

namespace ImplicitCurves

/-- A name is read from the environment by factors in a function with the given parameters, or by the
definitions that are linked in them, which read the given variables. -/
def IsRead (parameters : List Char) (factors : List Factor) (globals : List Char) (name : Char) :
    Prop :=
  (∃ f ∈ factors, f.freeName? = some name ∧ name ∉ parameters) ∨ name ∈ globals

section IsRead

variable {parameters globals globals' : List Char} {factors factors' : List Factor} {name : Char}

theorem isRead_append : IsRead parameters (factors ++ factors') (globals ++ globals') name ↔
    IsRead parameters factors globals name ∨ IsRead parameters factors' globals' name := by
  simp only [IsRead, List.mem_append, or_and_right, exists_or]
  exact or_or_or_comm

theorem IsRead.cons (h : IsRead parameters factors globals name) (f : Factor) :
    IsRead parameters (f :: factors) globals name :=
  h.imp_left fun ⟨g, hg, hname⟩ => ⟨g, List.mem_cons_of_mem f hg, hname⟩

theorem FunctionDefinition.mem_reads {d : FunctionDefinition} :
    name ∈ d.reads ↔ IsRead d.parameters d.body.factors d.body.linkedGlobals name := by
  obtain ⟨dname, parameters, body, dglobals⟩ := d
  simp only [FunctionDefinition.reads, IsRead, Expression.freeVariables, List.mem_append,
    List.mem_filter, mem_distinct, List.mem_filterMap, Bool.not_eq_eq_eq_not, Bool.not_true,
    List.contains_eq_mem, decide_eq_false_iff_not, ← exists_and_right, and_assoc]

theorem Expression.mem_freeVariablesLinked {e : Expression} :
    name ∈ e.freeVariablesLinked ↔ IsRead [] e.factors e.linkedGlobals name := by
  simp [Expression.freeVariablesLinked, IsRead, Expression.freeVariables, mem_distinct,
    mem_addAllNew_iff]

end IsRead

/-! ### Slots that are given out -/

/-- The second assembly has no other symbols than the first one and those that satisfy `P`. -/
def Assembly.AddsOnly (P : Char → Prop) (a b : Assembly) : Prop :=
  ∀ name ∈ b.symbols, name ∈ a.symbols ∨ P name

namespace Assembly

variable {P Q : Char → Prop} {a b c : Assembly}

theorem addsOnly_refl (P : Char → Prop) (a : Assembly) : AddsOnly P a a :=
  fun _ => .inl

theorem AddsOnly.imp (h : AddsOnly P a b) (himp : ∀ name, P name → Q name) : AddsOnly Q a b :=
  fun name hname => (h name hname).imp_right (himp name)

theorem AddsOnly.trans (h : AddsOnly P a b) (h' : AddsOnly P b c) : AddsOnly P a c := by
  intro name hname
  rcases h' name hname with hname | hP
  · exact h name hname
  · exact .inr hP

variable {parameters globals globals' : List Char} {factors factors' : List Factor}

/-- A part after a part. -/
theorem AddsOnly.append (h : AddsOnly (IsRead parameters factors globals) a b)
    (h' : AddsOnly (IsRead parameters factors' globals') b c) :
    AddsOnly (IsRead parameters (factors ++ factors') (globals ++ globals')) a c :=
  (h.imp fun _ hname => isRead_append.2 (.inl hname)).trans
    (h'.imp fun _ hname => isRead_append.2 (.inr hname))

/-- The factor around the parts. -/
theorem AddsOnly.cons (h : AddsOnly (IsRead parameters factors globals) a b) (f : Factor) :
    AddsOnly (IsRead parameters (f :: factors) globals) a b :=
  h.imp fun _ hname => hname.cons f

/-- A variable that is no parameter may get a slot. -/
theorem addsOnly_load (a : Assembly) (parameters : List Char) (name : Char) :
    AddsOnly (IsRead parameters [.variable name none] []) a (a.load parameters name).2 := by
  unfold load
  split
  · exact addsOnly_refl _ a
  · next hno =>
    have hparameter : name ∉ parameters := by
      intro hmem
      have := List.findIdx?_eq_none_iff.1 hno name hmem
      simp at this
    intro name' hname'
    simp only [ensureSlot] at hname'
    split at hname'
    · exact .inl hname'
    · rcases List.mem_append.1 hname' with hold | hnew
      · exact .inl hold
      · obtain rfl := List.mem_singleton.1 hnew
        exact .inr (.inl ⟨_, List.mem_cons_self, rfl, hparameter⟩)

end Assembly

open Assembly

mutual

/-- Compiling an expression gives slots only to variables that are read. -/
theorem Expression.addsOnly_compile : ∀ (e : Expression) (parameters : List Char) (a : Assembly),
    AddsOnly (IsRead parameters e.factors e.linkedGlobals) a (e.compile parameters a).2
  | ⟨items⟩, parameters, a => addsOnly_compileItems items parameters true a

theorem addsOnly_compileItems : ∀ (is : List Item) (parameters : List Char) (first : Bool)
    (a : Assembly), AddsOnly (IsRead parameters (factorsOfItems is) (linkedGlobalsOfItems is)) a
      (compileItems parameters first is a).2
  | [], _, _, a => addsOnly_refl _ a
  | ⟨_, factors⟩ :: is, parameters, _, a =>
    (addsOnly_compileFactors factors parameters true a).append
      (addsOnly_compileItems is parameters false _)

theorem addsOnly_compileFactors : ∀ (fs : List Factor) (parameters : List Char) (first : Bool)
    (a : Assembly), AddsOnly (IsRead parameters (factorsOfFactors fs) (linkedGlobalsOfFactors fs)) a
      (compileFactors parameters first fs a).2
  | [], _, _, a => addsOnly_refl _ a
  | f :: fs, parameters, _, a =>
    (f.addsOnly_compile parameters a).append (addsOnly_compileFactors fs parameters false _)

theorem Factor.addsOnly_compile : ∀ (f : Factor) (parameters : List Char) (a : Assembly),
    AddsOnly (IsRead parameters f.withInner f.linkedGlobals) a (f.compile parameters a).2
  | .number _, _, a | .constant _, _, a | .variable _ (some _), _, a | .call _ _ .unlinked, _, a =>
    addsOnly_refl _ a
  | .variable name none, parameters, a => a.addsOnly_load parameters name
  | .fraction x y, parameters, a | .power x y, parameters, a | .logarithm x y, parameters, a =>
    ((x.addsOnly_compile parameters a).append (y.addsOnly_compile parameters _)).cons _
  | .bracket x, parameters, a | .unary _ x, parameters, a =>
    (x.addsOnly_compile parameters a).cons _
  | .call name arguments (.linked pass d), parameters, a => by
    have harguments := addsOnly_compileArguments arguments parameters a
    have hbody := d.addsOnly_chunkIndex pass (compileArguments parameters arguments a).2
    intro name hname
    rcases hbody name hname with hname | hread
    · refine (harguments name hname).imp_right fun hread => IsRead.cons ?_ _
      exact hread.imp_right (List.mem_append_right _)
    · exact .inr (.inr (List.mem_append_left _ hread))

theorem addsOnly_compileArguments : ∀ (es : List Expression) (parameters : List Char)
    (a : Assembly), AddsOnly (IsRead parameters (factorsOfExpressions es)
      (linkedGlobalsOfExpressions es)) a (compileArguments parameters es a).2
  | [], _, a => addsOnly_refl _ a
  | e :: es, parameters, a =>
    (e.addsOnly_compile parameters a).append (addsOnly_compileArguments es parameters _)

/-- The chunk of a definition adds what the definition reads. -/
theorem FunctionDefinition.addsOnly_chunkIndex : ∀ (d : FunctionDefinition) (pass : Nat)
    (a : Assembly), AddsOnly (· ∈ d.reads) a (d.chunkIndex pass a).2
  | ⟨dname, parameters, body, dglobals⟩, pass, a => by
    simp only [FunctionDefinition.chunkIndex]
    split
    · exact addsOnly_refl _ a
    · intro name hname
      have hbody := body.addsOnly_compile parameters
        (a.reserve ⟨pass, ⟨dname, parameters, body, dglobals⟩⟩ parameters.length)
      exact (hbody name hname).imp_right FunctionDefinition.mem_reads.2

end

/-! ### Slots that have to be there -/

/-- The assembly has what the code of a factor refers to, in a function with the given parameters: a
slot for a free variable, and a chunk for a linked call. -/
def Assembly.Provides (a : Assembly) (parameters : List Char) : Factor → Prop
  | .variable name none => name ∉ parameters → name ∈ a.symbols
  | .call _ _ (.linked pass d) => ∃ index, (⟨pass, d⟩, index) ∈ a.functions
  | _ => True

namespace Assembly

variable {a b : Assembly} {parameters : List Char}

theorem Provides.mono (hsymbols : a.symbols <+: b.symbols) (hfunctions : a.functions <+: b.functions)
    {f : Factor} (h : a.Provides parameters f) : b.Provides parameters f := by
  unfold Provides at h ⊢
  split at h
  · exact fun hname => hsymbols.subset (h hname)
  · obtain ⟨index, hindex⟩ := h
    exact ⟨index, hfunctions.subset hindex⟩
  · trivial

/-- A part, then a part that is compiled after it. -/
theorem provides_append {fs gs : List Factor} (h : ∀ f ∈ fs, a.Provides parameters f)
    (hgrows : a.Grows b) (h' : ∀ f ∈ gs, b.Provides parameters f) :
    ∀ f ∈ fs ++ gs, b.Provides parameters f :=
  List.forall_mem_append.2
    ⟨fun f hf => (h f hf).mono hgrows.symbols hgrows.functions, h'⟩

/-- A free variable that is no parameter has a slot. -/
theorem Provides.mem_symbols {f : Factor} {name : Char} (h : a.Provides parameters f)
    (hfree : f.freeName? = some name) (hparameter : name ∉ parameters) : name ∈ a.symbols := by
  cases f with
  | «variable» name' bound =>
    cases bound with
    | none =>
      obtain rfl : name' = name := Option.some.inj hfree
      exact h hparameter
    | some x => cases hfree
  | _ => cases hfree

theorem provides_load (a : Assembly) (parameters : List Char) (name : Char) :
    (a.load parameters name).2.Provides parameters (.variable name none) := by
  intro hparameter
  unfold load
  split
  · next index hindex => exact absurd (List.mem_of_getElem? (getElem?_of_slotOf hindex)) hparameter
  · exact List.mem_of_getElem? (getElem?_ensureSlot a.symbols name)

end Assembly

mutual

/-- If all calls of an expression are linked, then compiling it provides for all of its factors. -/
theorem Expression.provides_compile : ∀ (e : Expression) (parameters : List Char) (a : Assembly),
    e.linkComplete = true → ∀ f ∈ e.factors, (e.compile parameters a).2.Provides parameters f
  | ⟨items⟩, parameters, a, h => provides_compileItems items parameters true a h

theorem provides_compileItems : ∀ (is : List Item) (parameters : List Char) (first : Bool)
    (a : Assembly), linkCompleteItems is = true →
      ∀ f ∈ factorsOfItems is, (compileItems parameters first is a).2.Provides parameters f
  | [], _, _, _, _ => fun _ hmem => absurd hmem List.not_mem_nil
  | ⟨_, factors⟩ :: is, parameters, _, a, h => by
    obtain ⟨hitem, hrest⟩ := Bool.and_eq_true_iff.1 h
    exact provides_append (provides_compileFactors factors parameters true a hitem)
      (grows_compileItems is parameters false _) (provides_compileItems is parameters false _ hrest)

theorem provides_compileFactors : ∀ (fs : List Factor) (parameters : List Char) (first : Bool)
    (a : Assembly), linkCompleteFactors fs = true →
      ∀ f ∈ factorsOfFactors fs, (compileFactors parameters first fs a).2.Provides parameters f
  | [], _, _, _, _ => fun _ hmem => absurd hmem List.not_mem_nil
  | f :: fs, parameters, _, a, h => by
    obtain ⟨hfactor, hrest⟩ := Bool.and_eq_true_iff.1 h
    exact provides_append (f.provides_compile parameters a hfactor)
      (grows_compileFactors fs parameters false _)
      (provides_compileFactors fs parameters false _ hrest)

theorem Factor.provides_compile : ∀ (f : Factor) (parameters : List Char) (a : Assembly),
    f.linkComplete = true → ∀ g ∈ f.withInner, (f.compile parameters a).2.Provides parameters g
  | .number _, _, _, _ | .constant _, _, _, _ | .variable _ (some _), _, _, _ =>
    List.forall_mem_singleton.2 trivial
  | .variable name none, parameters, a, _ =>
    List.forall_mem_singleton.2 (a.provides_load parameters name)
  | .fraction x y, parameters, a, h | .power x y, parameters, a, h
  | .logarithm x y, parameters, a, h => by
    obtain ⟨hx, hy⟩ := Bool.and_eq_true_iff.1 h
    exact List.forall_mem_cons.2 ⟨trivial, provides_append (x.provides_compile parameters a hx)
      (y.grows_compile parameters _) (y.provides_compile parameters _ hy)⟩
  | .bracket x, parameters, a, h | .unary _ x, parameters, a, h =>
    List.forall_mem_cons.2 ⟨trivial, x.provides_compile parameters a h⟩
  | .call _ _ .unlinked, _, _, h => by cases h
  | .call _ arguments (.linked pass d), parameters, a, h => by
    obtain ⟨-, harguments⟩ := Bool.and_eq_true_iff.1 h
    have hinner := provides_compileArguments arguments parameters a harguments
    have hgrows := d.grows_chunkIndex pass (compileArguments parameters arguments a).2
    exact List.forall_mem_cons.2 ⟨⟨_, d.mem_chunkIndex pass _⟩,
      fun f hf => (hinner f hf).mono hgrows.symbols hgrows.functions⟩

theorem provides_compileArguments : ∀ (es : List Expression) (parameters : List Char)
    (a : Assembly), linkCompleteExpressions es = true →
      ∀ f ∈ factorsOfExpressions es, (compileArguments parameters es a).2.Provides parameters f
  | [], _, _, _ => fun _ hmem => absurd hmem List.not_mem_nil
  | e :: es, parameters, a, h => by
    obtain ⟨hfirst, hrest⟩ := Bool.and_eq_true_iff.1 h
    exact provides_append (e.provides_compile parameters a hfirst)
      (grows_compileArguments es parameters _) (provides_compileArguments es parameters _ hrest)

end

section Globals

variable {a : Assembly}

mutual

/-- An assembly that provides for the factors of an expression, all of whose calls are linked, has slots
for what the linked definitions read. -/
theorem Expression.linkedGlobals_subset (hgrows : initial.Grows a) :
    ∀ (e : Expression) (parameters : List Char), e.linkComplete = true →
      (∀ f ∈ e.factors, a.Provides parameters f) → e.linkedGlobals ⊆ a.symbols
  | ⟨items⟩, parameters, h, hall => linkedGlobals_subset_items hgrows items parameters h hall

theorem linkedGlobals_subset_items (hgrows : initial.Grows a) :
    ∀ (is : List Item) (parameters : List Char), linkCompleteItems is = true →
      (∀ f ∈ factorsOfItems is, a.Provides parameters f) → linkedGlobalsOfItems is ⊆ a.symbols
  | [], _, _, _ => List.nil_subset _
  | ⟨_, factors⟩ :: is, parameters, h, hall => by
    obtain ⟨hitem, hrest⟩ := Bool.and_eq_true_iff.1 h
    obtain ⟨hfirst, hothers⟩ := List.forall_mem_append.1 hall
    exact List.append_subset.2 ⟨linkedGlobals_subset_factors hgrows factors parameters hitem hfirst,
      linkedGlobals_subset_items hgrows is parameters hrest hothers⟩

theorem linkedGlobals_subset_factors (hgrows : initial.Grows a) :
    ∀ (fs : List Factor) (parameters : List Char), linkCompleteFactors fs = true →
      (∀ f ∈ factorsOfFactors fs, a.Provides parameters f) → linkedGlobalsOfFactors fs ⊆ a.symbols
  | [], _, _, _ => List.nil_subset _
  | f :: fs, parameters, h, hall => by
    obtain ⟨hfactor, hrest⟩ := Bool.and_eq_true_iff.1 h
    obtain ⟨hfirst, hothers⟩ := List.forall_mem_append.1 hall
    exact List.append_subset.2 ⟨f.linkedGlobals_subset hgrows parameters hfactor hfirst,
      linkedGlobals_subset_factors hgrows fs parameters hrest hothers⟩

theorem Factor.linkedGlobals_subset (hgrows : initial.Grows a) :
    ∀ (f : Factor) (parameters : List Char), f.linkComplete = true →
      (∀ g ∈ f.withInner, a.Provides parameters g) → f.linkedGlobals ⊆ a.symbols
  | .number _, _, _, _ | .constant _, _, _, _ | .variable _ _, _, _, _ => List.nil_subset _
  | .fraction x y, parameters, h, hall | .power x y, parameters, h, hall
  | .logarithm x y, parameters, h, hall => by
    obtain ⟨hx, hy⟩ := Bool.and_eq_true_iff.1 h
    obtain ⟨hleft, hright⟩ := List.forall_mem_append.1 (List.forall_mem_cons.1 hall).2
    exact List.append_subset.2 ⟨x.linkedGlobals_subset hgrows parameters hx hleft,
      y.linkedGlobals_subset hgrows parameters hy hright⟩
  | .bracket x, parameters, h, hall | .unary _ x, parameters, h, hall =>
    x.linkedGlobals_subset hgrows parameters h (List.forall_mem_cons.1 hall).2
  | .call _ _ .unlinked, _, h, _ => by cases h
  | .call _ arguments (.linked pass d), parameters, h, hall => by
    obtain ⟨hbody, harguments⟩ := Bool.and_eq_true_iff.1 h
    obtain ⟨⟨index, hindex⟩, hinner⟩ := List.forall_mem_cons.1 hall
    exact List.append_subset.2 ⟨d.reads_subset hgrows pass index hbody hindex,
      linkedGlobals_subset_arguments hgrows arguments parameters harguments hinner⟩

theorem linkedGlobals_subset_arguments (hgrows : initial.Grows a) :
    ∀ (es : List Expression) (parameters : List Char), linkCompleteExpressions es = true →
      (∀ f ∈ factorsOfExpressions es, a.Provides parameters f) →
        linkedGlobalsOfExpressions es ⊆ a.symbols
  | [], _, _, _ => List.nil_subset _
  | e :: es, parameters, h, hall => by
    obtain ⟨hfirst, hrest⟩ := Bool.and_eq_true_iff.1 h
    obtain ⟨hinner, hothers⟩ := List.forall_mem_append.1 hall
    exact List.append_subset.2 ⟨e.linkedGlobals_subset hgrows parameters hfirst hinner,
      linkedGlobals_subset_arguments hgrows es parameters hrest hothers⟩

/-- A definition that has a chunk also has slots for what it reads. -/
theorem FunctionDefinition.reads_subset (hgrows : initial.Grows a) :
    ∀ (d : FunctionDefinition) (pass index : Nat), d.bodyComplete = true →
      (⟨pass, d⟩, index) ∈ a.functions → d.reads ⊆ a.symbols
  | ⟨dname, dparameters, body, dglobals⟩, pass, index, hbody, hmem => by
    obtain ⟨-, b, code, b', hcompile, hsymbols, hfunctions, -⟩ := hgrows.holds hmem
    have hprovides : ∀ f ∈ body.factors, a.Provides dparameters f := by
      intro f hf
      have hcompiled := body.provides_compile dparameters b hbody f hf
      rw [hcompile] at hcompiled
      exact hcompiled.mono hsymbols hfunctions
    intro name hname
    rcases FunctionDefinition.mem_reads.1 hname with ⟨f, hf, hfree, hparameter⟩ | hname
    · exact (hprovides f hf).mem_symbols hfree hparameter
    · exact body.linkedGlobals_subset hgrows dparameters hbody hprovides hname

end

/-- If all calls of an expression are linked, then an assembly that provides for its factors has a slot
for each of its variables. -/
theorem Expression.freeVariablesLinked_subset {e : Expression} (hgrows : initial.Grows a)
    (hcomplete : e.linkComplete = true) (hall : ∀ f ∈ e.factors, a.Provides [] f) :
    e.freeVariablesLinked ⊆ a.symbols := by
  intro name hname
  rcases Expression.mem_freeVariablesLinked.1 hname with ⟨f, hf, hfree, hparameter⟩ | hglobal
  · exact (hall f hf).mem_symbols hfree hparameter
  · exact e.linkedGlobals_subset hgrows [] hcomplete hall hglobal

end Globals

/-! ### Programs -/

/-- The symbols of a program are pairwise different and among the given names, and if `complete` holds,
then they are all of them. -/
structure Program.SymbolsAmong (p : Program) (names : List Char) (complete : Bool) : Prop where
  nodup : p.symbols.Nodup
  subset : ∀ name ∈ p.symbols, name ∈ names
  complete : complete = true → ∀ name, name ∈ p.symbols ↔ name ∈ names

/-- The values of the slots depend only on the symbols. -/
theorem Program.bind_congr {α : Type} [Scalar α] {p : Program} {env env' : Environment α}
    (h : env.AgreeOn p.symbols env') : p.bind env = p.bind env' := by
  refine congrArg List.toArray (List.map_congr_left fun name hname => ?_)
  rw [h name hname]

theorem Expression.symbolsAmong_program (e : Expression) :
    e.program.SymbolsAmong e.freeVariablesLinked e.linkComplete := by
  have hregisters : (e.compile [] initial).2.Registers fun _ => True :=
    e.registers_compile (fun _ _ _ _ _ => trivial) [] initial (fun _ _ _ => trivial)
      (registers_initial _)
  have hsubset : ∀ name ∈ e.program.symbols, name ∈ e.freeVariablesLinked := by
    intro name hname
    rcases e.addsOnly_compile [] initial name hname with hnone | hread
    · cases hnone
    · exact Expression.mem_freeVariablesLinked.2 hread
  refine ⟨hregisters.symbols, hsubset, fun hcomplete name => ⟨hsubset name, fun hname => ?_⟩⟩
  exact Expression.freeVariablesLinked_subset (e.grows_compile [] initial) hcomplete
    (e.provides_compile [] initial hcomplete) hname

theorem Equation.symbolsAmong_program (eq : Equation) :
    eq.program.SymbolsAmong eq.freeVariablesLinked eq.linkComplete := by
  have hlhs := eq.lhs.symbolsAmong_program
  have hgrows := eq.rhs.grows_compile [] (eq.lhs.compile [] initial).2
  have hregisters : (eq.rhs.compile [] (eq.lhs.compile [] initial).2).2.Registers fun _ => True :=
    eq.rhs.registers_compile (fun _ _ _ _ _ => trivial) [] _ (fun _ _ _ => trivial)
      (eq.lhs.registers_compile (fun _ _ _ _ _ => trivial) [] initial (fun _ _ _ => trivial)
        (registers_initial _))
  have hsubset : ∀ name ∈ eq.program.symbols, name ∈ eq.freeVariablesLinked := by
    intro name hname
    refine mem_addAllNew_iff.2 ?_
    rcases eq.rhs.addsOnly_compile [] _ name hname with hleft | hread
    · exact .inl (hlhs.subset name hleft)
    · exact .inr (Expression.mem_freeVariablesLinked.2 hread)
  refine ⟨hregisters.symbols, hsubset, fun hcomplete name => ⟨hsubset name, fun hname => ?_⟩⟩
  obtain ⟨hleft, hright⟩ := Bool.and_eq_true_iff.1 hcomplete
  rcases mem_addAllNew_iff.1 hname with hname | hname
  · exact hgrows.symbols.subset ((hlhs.complete hleft name).2 hname)
  · exact Expression.freeVariablesLinked_subset ((eq.lhs.grows_compile [] initial).trans hgrows)
      hright (eq.rhs.provides_compile [] _ hright) hname

/-- Evaluation sees exactly the free variables, those of linked definitions included.  This holds for
all trees whose linked calls fit, which are those without links and what linking makes of them, also
where it fails: environments that agree on these variables give the same value and the same result of
the compiled program, whose symbols are different ones of them, and all of them if all calls are
linked. -/
theorem freeVariablesLinked_exact {α : Type} [Scalar α] :
    (∀ e : Expression, e.Fits →
      (∀ env env' : Environment α, env.AgreeOn e.freeVariablesLinked env' →
        e.compute env = e.compute env' ∧ e.program.eval env = e.program.eval env' ∧
          e.program.run? (e.program.bind env) = e.program.run? (e.program.bind env')) ∧
      e.program.SymbolsAmong e.freeVariablesLinked e.linkComplete) ∧
    (∀ eq : Equation, eq.Fits →
      (∀ env env' : Environment α, env.AgreeOn eq.freeVariablesLinked env' →
        eq.compute env = eq.compute env' ∧ eq.program.eval env = eq.program.eval env' ∧
          eq.program.run? (eq.program.bind env) = eq.program.run? (eq.program.bind env')) ∧
      eq.program.SymbolsAmong eq.freeVariablesLinked eq.linkComplete) ∧
    (∀ e : Expression, (∀ f ∈ e.factors, f.withoutLink = f) → e.Fits) ∧
    (∀ (table : FunctionTable) (e : Expression), e.Fits ∨ (e.link table).2 = none →
      (e.link table).1.Fits) ∧
    ∀ (table : FunctionTable) (eq : Equation), eq.Fits ∨ (eq.link table).2 = none →
      (eq.link table).1.Fits := by
  refine ⟨fun e hfits => ⟨fun env env' hagree => ?_, e.symbolsAmong_program⟩,
    fun eq hfits => ⟨fun env env' hagree => ?_, eq.symbolsAmong_program⟩,
    fun e => Expression.fits_of_withoutLink, fun table e => Expression.fits_link table,
    fun table eq => Equation.fits_link table⟩
  · have hbind : e.program.bind env = e.program.bind env' :=
      Program.bind_congr fun name hname => hagree name (e.symbolsAmong_program.subset name hname)
    refine ⟨Expression.compute_congr (e.callsFit_of_fits hfits) hagree, ?_, ?_⟩
    · rw [Program.eval_eq, hbind, Program.eval_eq]
    · rw [hbind]
  · have hbind : eq.program.bind env = eq.program.bind env' :=
      Program.bind_congr fun name hname => hagree name (eq.symbolsAmong_program.subset name hname)
    refine ⟨Equation.compute_congr (eq.lhs.callsFit_of_fits hfits.1) (eq.rhs.callsFit_of_fits hfits.2)
      hagree, ?_, ?_⟩
    · rw [Program.eval_eq, hbind, Program.eval_eq]
    · rw [hbind]

/-- With `g(u) = u + a` and `f(a) = g(a)x`, linking `f(2) + z` where three is bound to `z` leaves `x`
and `a` to be seen.  The values of `u` and `z` do not matter, neither for this expression nor for the
equation that it is zero. -/
theorem freeVariablesLinked_exact_parameterAndGlobal :
    let g : FunctionDefinition := .make 'g' ['u']
      ⟨[⟨true, [.variable 'u' none]⟩, ⟨true, [.variable 'a' none]⟩]⟩
    let f : FunctionDefinition := .make 'f' ['a']
      ⟨[⟨true, [.call 'g' [.ofFactor (.variable 'a' none)] .unlinked, .variable 'x' none]⟩]⟩
    let table : FunctionTable := (Directory.empty.insert f).insert g
    let e : Expression :=
      ⟨[⟨true, [.call 'f' [.ofFactor (.number 2)] .unlinked]⟩, ⟨true, [.variable 'z' (some 3)]⟩]⟩
    let linked := (e.link table).1
    let eq : Equation := .withZero linked
    let env : Environment Float := (Environment.set .empty 'x' 1.5).set 'a' 0.5
    let env' := (env.set 'u' 7).set 'z' 8
    linked.Fits ∧ eq.Fits ∧ linked.freeVariablesLinked = ['x', 'a'] ∧
      linked.program.symbols = ['a', 'x'] ∧ env.AgreeOn ['x', 'a'] env' ∧
      linked.compute env = linked.compute env' ∧ linked.program.eval env = linked.program.eval env' ∧
      eq.compute env = eq.compute env' ∧ eq.program.eval env = eq.program.eval env' := by
  intro g f table e linked eq env env'
  obtain ⟨hexpression, hequation, hunlinked, hlink, -⟩ := @freeVariablesLinked_exact Float _
  have hfits : linked.Fits := hlink table e (.inr (by decide +kernel))
  have hzero : eq.Fits := by
    refine ⟨hfits, hunlinked .zero fun f hf => ?_⟩
    obtain rfl : f = .number 0 := List.mem_singleton.1 hf
    rfl
  have hfree : linked.freeVariablesLinked = ['x', 'a'] := by decide +kernel
  have hsides : eq.freeVariablesLinked = ['x', 'a'] := by decide +kernel
  have hagree : env.AgreeOn ['x', 'a'] env' := by
    intro name hname
    have hname : name ≠ 'u' ∧ name ≠ 'z' := by
      rcases List.mem_pair.1 hname with rfl | rfl <;> decide
    simp [env', Environment.value?_set, hname]
  obtain ⟨hcompute, heval, -⟩ := (hexpression linked hfits).1 env env' (hfree ▸ hagree)
  obtain ⟨hcompute', heval', -⟩ := (hequation eq hzero).1 env env' (hsides ▸ hagree)
  exact ⟨hfits, hzero, hfree, by decide +kernel, hagree, hcompute, heval, hcompute', heval'⟩

end ImplicitCurves

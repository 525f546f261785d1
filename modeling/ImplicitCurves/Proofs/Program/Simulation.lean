import ImplicitCurves.Proofs.Program.Assembly
import ImplicitCurves.Proofs.Program.Execution
import ImplicitCurves.Proofs.Program.Meaning

/-!
# Compiled code computes meanings

The code of a tree, run in a frame whose first values are the arguments of the function around it,
leaves the meaning of the tree on the stack and what was there before as it was; a call that does not
fit its definition has no meaning, as if it were not linked.  The proof follows
the tree through the bodies of linked definitions: what a call does is known from the chunk of its
definition, which holds the code of a smaller tree.
-/

namespace ImplicitCurves

open Relation

variable {α : Type} [Scalar α]

/-- The slots and indices that an assembly has given out are those of a program. -/
structure Assembly.Fits (a : Assembly) (p : Program) (functions : List (LinkId × Nat)) : Prop where
  symbols : a.symbols <+: p.symbols
  functions : a.functions <+: functions

theorem Assembly.Fits.of_grows {a b : Assembly} {p : Program} {functions : List (LinkId × Nat)}
    (h : b.Fits p functions) (hab : a.Grows b) : a.Fits p functions :=
  ⟨hab.symbols.trans h.symbols, hab.functions.trans h.functions⟩

/-- A program has a chunk with the code of its body for each of the linked definitions. -/
def Program.Implements (p : Program) (functions : List (LinkId × Nat)) : Prop :=
  ∀ id index, (id, index) ∈ functions → ∃ b code b',
    id.definition.body.compile id.definition.parameters b = (code, b') ∧ b'.Fits p functions ∧
      p.chunks[index]? = some ⟨id.arity, code.toArray⟩

/-- The values of a frame start with the arguments of the function whose body its chunk computes. -/
structure Program.Active (p : Program) (parameters : List Char) (arguments : List α)
    (chunk base : Nat) (stack : Array α) : Prop where
  arity : p.arity chunk = parameters.length
  length : arguments.length = parameters.length
  base_le : base ≤ stack.size
  arguments : ∀ index value, arguments[index]? = some value → stack[base + index]? = some value

omit [Scalar α] in
theorem Program.Active.push {p : Program} {parameters : List Char} {arguments : List α}
    {chunk base : Nat} {stack : Array α} (h : p.Active parameters arguments chunk base stack)
    (value : α) : p.Active parameters arguments chunk base (stack.push value) where
  arity := h.arity
  length := h.length
  base_le := by rw [Array.size_push]; exact Nat.le_succ_of_le h.base_le
  arguments index value' hindex := by
    have hstack := h.arguments index value' hindex
    have hlt := (Array.getElem?_eq_some_iff.1 hstack).1
    rw [Array.getElem?_push_lt hlt, ← Array.getElem?_eq_getElem hlt, hstack]

theorem getElem?_of_prefix {β : Type} {xs ys : List β} (h : xs <+: ys) {i : Nat} {x : β}
    (hx : xs[i]? = some x) : ys[i]? = some x := by
  obtain ⟨zs, rfl⟩ := h
  rw [List.getElem?_append_left (List.getElem?_eq_some_iff.1 hx).1, hx]

omit [Scalar α] in
/-- The first parameter of a name gets the argument at its place. -/
theorem lookup_zip_eq_slotOf {parameters : List Char} {arguments : List α}
    (h : arguments.length = parameters.length) (name : Char) :
    (parameters.zip arguments).lookup name =
      (slotOf parameters name).bind fun index => arguments[index]? := by
  induction parameters generalizing arguments with
  | nil => simp [slotOf]
  | cons parameter parameters ih =>
    cases arguments with
    | nil => simp at h
    | cons argument arguments =>
      rw [List.zip_cons_cons, List.lookup_cons, slotOf_cons]
      by_cases hname : parameter = name
      · subst hname
        simp
      · have hne : (name == parameter) = false := beq_false_of_ne (Ne.symm hname)
        rw [hne, if_neg hname, ih (Nat.succ.inj h)]
        cases slotOf parameters name <;> simp

/-- The stack with the sum or the product so far on top, if there is one. -/
def withPartial (stack : Array α) : Option α → Array α
  | none => stack
  | some value => stack.push value

variable {p : Program} {functions : List (LinkId × Nat)} {env : Environment α}

omit [Scalar α] in
theorem Program.Active.withPartial {parameters : List Char} {arguments : List α}
    {chunk base : Nat} {stack : Array α} (h : p.Active parameters arguments chunk base stack)
    (value : Option α) :
    p.Active parameters arguments chunk base (withPartial stack value) := by
  cases value with
  | none => exact h
  | some value => exact h.push value

/-- A variable is loaded with the value that the scope of the frame has for it. -/
theorem Program.Active.executes_load {a : Assembly} {parameters : List Char} {arguments : List α}
    {chunk base : Nat} {stack : Array α} (h : p.Active parameters arguments chunk base stack)
    {name : Char} (hfits : (a.load parameters name).2.Fits p functions) :
    p.Executes (p.bind env) chunk base [(a.load parameters name).1] stack
      (stack.push (variableValue ⟨env, parameters.zip arguments⟩ name none)) := by
  simp only [variableValue, Scope.value?, lookup_zip_eq_slotOf h.length]
  unfold Assembly.load at hfits ⊢
  cases hslot : slotOf parameters name with
  | some index =>
    have hlt : index < parameters.length :=
      (List.getElem?_eq_some_iff.1 (getElem?_of_slotOf hslot)).1
    have hlt' : index < arguments.length := by rw [h.length]; exact hlt
    have hargument : arguments[index]? = some arguments[index] := List.getElem?_eq_getElem hlt'
    simp only [Option.bind_some, hargument, Option.some_or, Option.getD_some]
    exact Program.executes_pushArg (by rw [h.arity]; exact hlt) (h.arguments index _ hargument)
  | none =>
    simp only [hslot] at hfits
    simp only [Option.bind_none, Option.none_or]
    refine Program.executes_pushVar ?_ stack
    have hsymbol := getElem?_of_prefix hfits.symbols (getElem?_ensureSlot a.symbols name)
    simp [Program.bind, hsymbol]

/-- The sign of an item is applied to its product and to the sum in front of it. -/
theorem Program.Active.executes_plusItem {parameters : List Char} {arguments : List α}
    {chunk base : Nat} {stack : Array α} (h : p.Active parameters arguments chunk base stack)
    (env : Environment α) (sum : Option α) (positive : Bool) {item : α} {code : List Instruction}
    (hitem : ∀ stack, p.Active parameters arguments chunk base stack →
      p.Executes (p.bind env) chunk base code stack (stack.push item)) :
    p.Executes (p.bind env) chunk base
      (if sum.isNone then (if positive then code else .pushConst 0 :: code ++ [.sub])
        else code ++ [if positive then .add else .sub])
      (ImplicitCurves.withPartial stack sum) (stack.push (plusItem sum positive item)) := by
  cases sum with
  | none =>
    cases positive with
    | true => exact hitem stack h
    | false =>
      have hzero : p.Executes (p.bind env) chunk base [.pushConst 0] stack
          (stack.push Scalar.zero) := executes_pushConst 0 stack
      exact (hzero.append (hitem _ (h.push Scalar.zero))).append
        (executes_binary (i := .sub) rfl h.base_le Scalar.zero item)
  | some sum =>
    have hcode := hitem _ (h.push sum)
    cases positive with
    | true => exact hcode.append (executes_binary (i := .add) rfl h.base_le sum item)
    | false => exact hcode.append (executes_binary (i := .sub) rfl h.base_le sum item)

/-- Two operands are computed one after the other, then the instruction applies its operation. -/
theorem Program.Active.executes_operands {parameters : List Char} {arguments : List α}
    {chunk base : Nat} {stack : Array α} (h : p.Active parameters arguments chunk base stack)
    {i : Instruction} {op : α → α → α} (hi : binaryOperation i = some op) {lhs rhs : α}
    {code code' : List Instruction}
    (hlhs : p.Executes (p.bind env) chunk base code stack (stack.push lhs))
    (hrhs : ∀ stack, p.Active parameters arguments chunk base stack →
      p.Executes (p.bind env) chunk base code' stack (stack.push rhs)) :
    p.Executes (p.bind env) chunk base (code ++ code' ++ [i]) stack (stack.push (op lhs rhs)) := by
  have hboth := hlhs.append (hrhs _ (h.push lhs))
  exact hboth.append (executes_binary hi h.base_le lhs rhs)

mutual

/-- The code of an expression computes its meaning. -/
theorem Expression.executes_compile (himplements : p.Implements functions) :
    ∀ (e : Expression) {parameters : List Char} {a : Assembly} {arguments : List α}
      {chunk base : Nat} {stack : Array α}, (e.compile parameters a).2.Fits p functions →
      p.Active parameters arguments chunk base stack →
      p.Executes (p.bind env) chunk base (e.compile parameters a).1 stack
        (stack.push (e.fitted.meaning ⟨env, parameters.zip arguments⟩))
  | ⟨items⟩, _, _, _, _, _, _, hfits, hactive =>
    executes_compileItems himplements items none hfits hactive

theorem executes_compileItems (himplements : p.Implements functions) :
    ∀ (is : List Item) (sum : Option α) {parameters : List Char} {a : Assembly}
      {arguments : List α} {chunk base : Nat} {stack : Array α},
      (compileItems parameters sum.isNone is a).2.Fits p functions →
      p.Active parameters arguments chunk base stack →
      p.Executes (p.bind env) chunk base (compileItems parameters sum.isNone is a).1
        (withPartial stack sum)
        (stack.push (meaningOfItems ⟨env, parameters.zip arguments⟩ sum (fittedItems is)))
  | [], none, _, _, _, _, _, stack, _, _ => Program.executes_pushConst 0 stack
  | [], some _, _, _, _, _, _, _, _, _ => .nil _
  | ⟨positive, factors⟩ :: is, sum, parameters, a, arguments, _, _, _, hfits, hactive => by
    have hfits' : ((Item.mk positive factors).compileProduct parameters a).2.Fits p functions :=
      hfits.of_grows (grows_compileItems is parameters false _)
    have hsigned := hactive.executes_plusItem env sum positive
      fun _ => (Item.mk positive factors).executes_compileProduct himplements hfits'
    exact hsigned.append (executes_compileItems himplements is (some _) hfits hactive)

theorem Item.executes_compileProduct (himplements : p.Implements functions) :
    ∀ (i : Item) {parameters : List Char} {a : Assembly} {arguments : List α}
      {chunk base : Nat} {stack : Array α}, (i.compileProduct parameters a).2.Fits p functions →
      p.Active parameters arguments chunk base stack →
      p.Executes (p.bind env) chunk base (i.compileProduct parameters a).1 stack
        (stack.push (i.fitted.product ⟨env, parameters.zip arguments⟩))
  | ⟨_, factors⟩, _, _, _, _, _, _, hfits, hactive =>
    executes_compileFactors himplements factors none hfits hactive

theorem executes_compileFactors (himplements : p.Implements functions) :
    ∀ (fs : List Factor) (product : Option α) {parameters : List Char} {a : Assembly}
      {arguments : List α} {chunk base : Nat} {stack : Array α},
      (compileFactors parameters product.isNone fs a).2.Fits p functions →
      p.Active parameters arguments chunk base stack →
      p.Executes (p.bind env) chunk base (compileFactors parameters product.isNone fs a).1
        (withPartial stack product)
        (stack.push (meaningOfFactors ⟨env, parameters.zip arguments⟩ product (fittedFactors fs)))
  | [], none, _, _, _, _, _, stack, _, _ => Program.executes_pushConst 1 stack
  | [], some _, _, _, _, _, _, _, _, _ => .nil _
  | f :: fs, product, parameters, a, arguments, chunk, base, stack, hfits, hactive => by
    have hfits' : (f.compile parameters a).2.Fits p functions :=
      hfits.of_grows (grows_compileFactors fs parameters false _)
    have hcode := f.executes_compile himplements hfits' (hactive.withPartial product)
    have hmul : p.Executes (p.bind env) chunk base
        ((f.compile parameters a).1 ++ (if product.isNone then [] else [.mul]))
        (withPartial stack product) (stack.push (timesFactor product
          (f.fitted.meaning ⟨env, parameters.zip arguments⟩))) := by
      cases product with
      | none => exact hcode.append (.nil _)
      | some product =>
        exact hcode.append (Program.executes_binary (i := .mul) rfl hactive.base_le product _)
    exact hmul.append (executes_compileFactors himplements fs (some _) hfits hactive)

theorem Factor.executes_compile (himplements : p.Implements functions) :
    ∀ (f : Factor) {parameters : List Char} {a : Assembly} {arguments : List α}
      {chunk base : Nat} {stack : Array α}, (f.compile parameters a).2.Fits p functions →
      p.Active parameters arguments chunk base stack →
      p.Executes (p.bind env) chunk base (f.compile parameters a).1 stack
        (stack.push (f.fitted.meaning ⟨env, parameters.zip arguments⟩))
  | .number x, _, _, _, _, _, stack, _, _ => Program.executes_pushConst x stack
  | .constant c, _, _, _, _, _, stack, _, _ => Program.executes_pushConst c.value stack
  | .variable _ (some x), _, _, _, _, _, stack, _, _ => Program.executes_pushConst x stack
  | .variable _ none, _, _, _, _, _, _, hfits, hactive => hactive.executes_load hfits
  | .fraction x y, parameters, _, _, _, _, _, hfits, hactive => by
    have hfits' := hfits.of_grows (y.grows_compile parameters _)
    have hcode := x.executes_compile himplements hfits' hactive
    exact hactive.executes_operands (i := .div) rfl hcode
      fun _ => y.executes_compile himplements hfits
  | .power x y, parameters, _, _, _, _, _, hfits, hactive => by
    have hfits' := hfits.of_grows (y.grows_compile parameters _)
    have hcode := x.executes_compile himplements hfits' hactive
    exact hactive.executes_operands (i := .pow) rfl hcode
      fun _ => y.executes_compile himplements hfits
  | .bracket x, _, _, _, _, _, _, hfits, hactive => x.executes_compile himplements hfits hactive
  | .unary f x, _, _, _, _, _, _, hfits, hactive =>
    (x.executes_compile himplements hfits hactive).append
      (Program.executes_unary hactive.base_le f _)
  | .logarithm x y, parameters, _, _, _, _, _, hfits, hactive => by
    have hfits' := hfits.of_grows (y.grows_compile parameters _)
    have hcode := x.executes_compile himplements hfits' hactive
    exact hactive.executes_operands (i := .call .logarithm 2) rfl hcode
      fun _ => y.executes_compile himplements hfits
  | .call _ _ .unlinked, _, _, _, _, _, stack, _, _ => Program.executes_pushConst (0 / 0) stack
  | .call _ arguments (.linked pass d), parameters, a, actuals, chunk, base, stack, hfits,
    hactive => by
    have hfits' := hfits.of_grows (d.grows_chunkIndex pass _)
    have hcode := executes_compileArguments himplements arguments hfits' hactive
    have hsame : (meaningsOfArguments ⟨env, parameters.zip actuals⟩
        (fittedExpressions arguments)).length = arguments.length :=
      (length_meaningsOfArguments _ _).trans (length_fittedExpressions arguments)
    by_cases hcount : d.parameters.length = arguments.length
    · have hcall := d.executes_call himplements (parameters.zip actuals) chunk hfits
        (hsame.trans hcount.symm) hactive.base_le
      rw [hsame] at hcall
      rw [Factor.fitted, if_pos hcount]
      exact hcode.append hcall
    · obtain ⟨_, _, _, _, _, hchunk⟩ := himplements _ _
        (hfits.functions.subset (d.mem_chunkIndex pass _))
      have hcall : p.Executes (p.bind env) chunk base
          [.call (.chunk (d.chunkIndex pass (compileArguments parameters arguments a).2).1)
            arguments.length]
          (stack ++ (meaningsOfArguments ⟨env, parameters.zip actuals⟩
            (fittedExpressions arguments)).toArray) (stack.push Scalar.undefined) :=
        Program.executes_misfit hactive.base_le (by simp [hsame]) (by simp) hchunk hcount
      rw [Factor.fitted, if_neg hcount]
      exact hcode.append hcall

theorem executes_compileArguments (himplements : p.Implements functions) :
    ∀ (es : List Expression) {parameters : List Char} {a : Assembly} {arguments : List α}
      {chunk base : Nat} {stack : Array α},
      (compileArguments parameters es a).2.Fits p functions →
      p.Active parameters arguments chunk base stack →
      p.Executes (p.bind env) chunk base (compileArguments parameters es a).1 stack
        (stack ++ (meaningsOfArguments ⟨env, parameters.zip arguments⟩
          (fittedExpressions es)).toArray)
  | [], _, _, _, _, _, stack, _, _ => by
    simpa [compileArguments, fittedExpressions, meaningsOfArguments] using Program.Executes.nil stack
  | e :: es, parameters, a, arguments, _, _, stack, hfits, hactive => by
    have hfits' : (e.compile parameters a).2.Fits p functions :=
      hfits.of_grows (grows_compileArguments es parameters _)
    have hcode := e.executes_compile himplements hfits' hactive
    have hcode' := executes_compileArguments himplements es hfits
      (hactive.push (e.fitted.meaning ⟨env, parameters.zip arguments⟩))
    have hstack : stack ++ (meaningsOfArguments ⟨env, parameters.zip arguments⟩
        (fittedExpressions (e :: es))).toArray =
          stack.push (e.fitted.meaning ⟨env, parameters.zip arguments⟩) ++
            (meaningsOfArguments ⟨env, parameters.zip arguments⟩
              (fittedExpressions es)).toArray := by
      simp [fittedExpressions, meaningsOfArguments]
    rw [hstack]
    exact hcode.append hcode'

/-- A call of the chunk of a definition computes the meaning of its body. -/
theorem FunctionDefinition.executes_call (himplements : p.Implements functions) :
    ∀ (d : FunctionDefinition) (locals : List (Char × α)) (chunk : Nat) {pass : Nat}
      {a : Assembly} {arguments : List α} {base : Nat} {stack : Array α},
      (d.chunkIndex pass a).2.Fits p functions → arguments.length = d.parameters.length →
      base ≤ stack.size →
      p.Executes (p.bind env) chunk base
        [.call (.chunk (d.chunkIndex pass a).1) arguments.length] (stack ++ arguments.toArray)
        (stack.push (d.fitted.meaning ⟨env, locals⟩ arguments))
  | ⟨name, parameters, body, globals⟩, _, _, pass, a, arguments, _, stack, hfits, hlength,
    hbase => by
    obtain ⟨b, code, b', hcompile, hfits', hchunk⟩ := himplements _ _
      (hfits.functions.subset (FunctionDefinition.mem_chunkIndex _ pass a))
    have harity : LinkId.arity ⟨pass, ⟨name, parameters, body, globals⟩⟩ = arguments.length :=
      hlength.symm
    rw [harity] at hchunk
    have hactive : p.Active parameters arguments
        (FunctionDefinition.chunkIndex pass ⟨name, parameters, body, globals⟩ a).1 stack.size
        (stack ++ arguments.toArray) := by
      refine ⟨?_, hlength, by rw [Array.size_append]; omega, fun index value hindex => ?_⟩
      · simp [Program.arity, hchunk, hlength]
      · simp [Array.getElem?_append, hindex]
    have hcode := body.executes_compile (a := b) himplements (by rw [hcompile]; exact hfits')
      hactive
    rw [hcompile] at hcode
    exact Program.executes_call hbase (by simp) (by simp) hchunk hcode

end

end ImplicitCurves

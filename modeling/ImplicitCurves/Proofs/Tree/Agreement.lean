import ImplicitCurves.Proofs.Program.Correctness
import ImplicitCurves.Proofs.Tree.Inlining

/-!
# Linked and inlined trees agree

The induction is on the linked tree, and through its links on the bodies of the definitions.  What
inlining works on is that tree without its links and with the bindings of the current body put in.
-/

namespace ImplicitCurves

variable {α : Type} [Scalar α]

/-- Where inlining is: the definitions that are being inlined, and the bindings and the arguments of
the innermost of them, which stand for the same values. -/
structure InlineContext (table : FunctionTable) (total : List (Bool × List α) → α)
    (env : Environment α) where
  depth : Nat
  stack : List FunctionKey
  bindings : Bindings
  locals : List (Char × α)
  covers : table.Covers depth stack
  represent : bindings.Represent table total env locals

variable {table : FunctionTable} {total : List (Bool × List α) → α} {env : Environment α}

namespace InlineContext

/-- What inlining does with a call. -/
def expand (c : InlineContext table total env) : Expander :=
  table.expand c.depth c.stack

/-- What the current body is evaluated in after linking. -/
def scope (c : InlineContext table total env) : Scope α :=
  ⟨env, c.locals⟩

/-- No variable with a binding has a value bound in place. -/
def Free (c : InlineContext table total env) (fs : List Factor) : Prop :=
  ∀ name x, .variable name (some x) ∈ fs → c.bindings.lookup name = none

/-- The inlined expression has the interpretation of the linked one, and there is nothing left to
inline in it. -/
structure Matches (c : InlineContext table total env) (e inlined : Expression) : Prop where
  interpret : inlined.interpret total (Scope.outermost env) = e.interpret total c.scope
  settled : ∀ f ∈ inlined.factors, f.Settled table

/-- The same for items. -/
structure ItemsMatch (c : InlineContext table total env) (is inlined : List Item) : Prop where
  interpret : interpretItems total (Scope.outermost env) inlined = interpretItems total c.scope is
  settled : ∀ f ∈ factorsOfItems inlined, f.Settled table

/-- The same for factors. -/
structure FactorsMatch (c : InlineContext table total env) (fs inlined : List Factor) : Prop where
  interpret : interpretFactors total (Scope.outermost env) inlined =
    interpretFactors total c.scope fs
  settled : ∀ f ∈ factorsOfFactors inlined, f.Settled table

/-- The same for a factor. -/
structure FactorMatches (c : InlineContext table total env) (f inlined : Factor) : Prop where
  interpret : inlined.interpret total (Scope.outermost env) = f.interpret total c.scope
  settled : ∀ g ∈ inlined.withInner, g.Settled table

/-- The same for arguments. -/
structure ArgumentsMatch (c : InlineContext table total env) (es inlined : List Expression) :
    Prop where
  interpret : interpretExpressions total (Scope.outermost env) inlined =
    interpretExpressions total c.scope es
  settled : ∀ f ∈ factorsOfExpressions inlined, f.Settled table

/-- A variable is inlined to what takes its place, or stays. -/
theorem inlinesTo_variable (c : InlineContext table total env) (name : Char) (bound : Option Float)
    (s : Option Error) (h : c.Free [.variable name bound]) :
    InlinesTo s (((Factor.variable name bound).replaced c.bindings).inlineWith c.expand s)
      (c.FactorMatches (.variable name bound)) := by
  have hexpand : ∀ key arguments, table.find? key = none → c.expand key arguments = none :=
    fun key arguments hkey => table.expand_of_find? hkey c.depth c.stack arguments
  cases bound with
  | none =>
    rw [Factor.inlineWith_of_settled hexpand _ s (c.represent.settled name)]
    exact fun hs => ⟨hs, (c.represent.value name).symm, c.represent.settled name⟩
  | some x =>
    have hname := h name x (List.mem_singleton.2 rfl)
    simp only [Factor.replaced, hname]
    exact fun hs => ⟨hs, rfl, List.forall_mem_singleton.2 trivial⟩

section Calls

variable (c : InlineContext table total env) {name : Char} {arguments replaced : List Expression}
  {link : Link} {s : Option Error}

/-- A call is inlined after its arguments, and only if that succeeds. -/
theorem inlinesTo_call (hlength : replaced.length = arguments.length)
    (harguments : InlinesTo s (inlineExpressions c.expand replaced s) (c.ArgumentsMatch arguments))
    (hcall : ∀ inlined, inlineExpressions c.expand replaced s = (inlined, none) →
      inlined.length = arguments.length → c.ArgumentsMatch arguments inlined →
      InlinesTo none ((Factor.call name replaced .unlinked).inlineWith c.expand s)
        (c.FactorMatches (.call name arguments link))) :
    InlinesTo s ((Factor.call name replaced .unlinked).inlineWith c.expand s)
      (c.FactorMatches (.call name arguments link)) := by
  intro hnone
  rcases hinlined : inlineExpressions c.expand replaced s with ⟨inlined, failure⟩
  rw [hinlined] at harguments
  cases failure with
  | some error =>
    rw [Factor.inlineWith_call_failed hinlined] at hnone
    exact absurd hnone (Option.some_ne_none error)
  | none =>
    obtain ⟨hs, hmatch⟩ := harguments rfl
    have hsame : inlined.length = arguments.length := by
      rw [← hlength, ← length_inlineExpressions c.expand replaced s, hinlined]
    exact ⟨hs, (hcall inlined hinlined hsame hmatch hnone).2⟩

/-- A call of a function that is not defined stays, with its arguments inlined. -/
theorem inlinesTo_call_unlinked (hfind : table.find? ⟨name, arguments.length⟩ = none)
    (hlength : replaced.length = arguments.length)
    (harguments : InlinesTo s (inlineExpressions c.expand replaced s) (c.ArgumentsMatch arguments)) :
    InlinesTo s ((Factor.call name replaced .unlinked).inlineWith c.expand s)
      (c.FactorMatches (.call name arguments .unlinked)) := by
  refine c.inlinesTo_call hlength harguments fun inlined hinlined hsame hmatch _ => ?_
  rw [← hsame] at hfind
  rw [Factor.inlineWith_call_stays hinlined (table.expand_of_find? hfind _ _ _)]
  exact ⟨rfl, rfl, List.forall_mem_cons.2 ⟨⟨rfl, hfind⟩, hmatch.settled⟩⟩

/-- A linked call is inlined to the body of its definition, with the arguments put in. -/
theorem inlinesTo_call_linked (htable : table.Plain) {d : FunctionDefinition} {body : Expression}
    {pass : Nat} {label : Char} {globals : List Char}
    (hfind : table.find? ⟨name, arguments.length⟩ = some d) (hunlink : body.unlink = d.body)
    (hbody : ∀ c : InlineContext table total env, c.Free body.unlink.factors →
      InlinesTo none ((body.unlink.substitute c.bindings).inlineWith c.expand none) (c.Matches body))
    (hlength : replaced.length = arguments.length)
    (harguments : InlinesTo s (inlineExpressions c.expand replaced s) (c.ArgumentsMatch arguments)) :
    InlinesTo s ((Factor.call name replaced .unlinked).inlineWith c.expand s)
      (c.FactorMatches (.call name arguments (.linked pass ⟨label, d.parameters, body, globals⟩))) := by
  refine c.inlinesTo_call hlength harguments fun inlined hinlined hsame hmatch hnone => ?_
  rw [← hsame] at hfind
  rcases FunctionTable.expand_of_covers c.covers hfind inlined with
    ⟨error, hexpand⟩ | ⟨depth, hcovers, result, hresult, hexpand⟩
  · rw [Factor.inlineWith_call_error hinlined hexpand] at hnone
    exact absurd hnone (Option.some_ne_none error)
  · have hnodup := htable.nodup d (FunctionTable.mem_of_find? hfind)
    let inner : InlineContext table total env :=
      ⟨depth, _, _, _, hcovers, Bindings.represent_bindArguments hmatch.settled hnodup⟩
    have hfree : inner.Free body.unlink.factors := by
      intro x value hmem
      rw [hunlink] at hmem
      have hbound := htable.unbound d (FunctionTable.mem_of_find? hfind) x _ hmem
      exact absurd hbound (Option.some_ne_none value)
    have hinner : InlinesTo none (result, none) (inner.Matches body) := by
      rw [← hresult, ← hunlink]
      exact hbody inner hfree
    obtain ⟨-, hmatches⟩ := hinner rfl
    have hvalues : body.interpret total inner.scope = body.interpret total
        ⟨env, d.parameters.zip (interpretExpressions total c.scope arguments)⟩ :=
      congrArg (fun values => body.interpret total ⟨env, d.parameters.zip values⟩) hmatch.interpret
    rw [Factor.inlineWith_call_expanded hinlined hexpand]
    exact ⟨rfl, hmatches.interpret.trans hvalues,
      List.forall_mem_cons.2 ⟨trivial, hmatches.settled⟩⟩

end Calls

theorem Free.left {c : InlineContext table total env} {fs gs : List Factor} (h : c.Free (fs ++ gs)) :
    c.Free fs :=
  fun name x hmem => h name x (List.mem_append_left _ hmem)

theorem Free.right {c : InlineContext table total env} {fs gs : List Factor}
    (h : c.Free (fs ++ gs)) : c.Free gs :=
  fun name x hmem => h name x (List.mem_append_right _ hmem)

theorem Free.tail {c : InlineContext table total env} {f : Factor} {fs : List Factor}
    (h : c.Free (f :: fs)) : c.Free fs :=
  fun name x hmem => h name x (List.mem_cons_of_mem _ hmem)

end InlineContext

open InlineContext

mutual

/-- Inlining in an expression that is linked as the table says gives an expression with the same
interpretation. -/
theorem Expression.inlinesTo (htable : table.Plain) :
    ∀ (e : Expression) (c : InlineContext table total env) (s : Option Error),
      e.LinkedBy table → c.Free e.unlink.factors →
      InlinesTo s ((e.unlink.substitute c.bindings).inlineWith c.expand s) (c.Matches e)
  | ⟨items⟩, c, s, hlinked, hfree =>
    (inlinesTo_items htable items c s hlinked hfree).map fun _ h =>
      ⟨congrArg total h.interpret, h.settled⟩

theorem inlinesTo_items (htable : table.Plain) :
    ∀ (is : List Item) (c : InlineContext table total env) (s : Option Error),
      ItemsLinkedBy table is → c.Free (factorsOfItems (mapItems Factor.withoutLink is)) →
      InlinesTo s (inlineItems c.expand (mapItems (Factor.replaced c.bindings)
        (mapItems Factor.withoutLink is)) s) (c.ItemsMatch is)
  | [], _, _, _, _ => fun hs => ⟨hs, rfl, fun _ hf => absurd hf List.not_mem_nil⟩
  | ⟨positive, factors⟩ :: is, c, s, hlinked, hfree => by
    have hitem := inlinesTo_factors htable factors c s hlinked.1 hfree.left
    have hrest := fun s => inlinesTo_items htable is c s hlinked.2 hfree.right
    refine hitem.pair (g := fun fs is => Item.mk positive fs :: is) (hrest _) fun fs is h h' => ⟨?_, ?_⟩
    · exact congrArg₂ (fun xs rest => (positive, xs) :: rest) h.interpret h'.interpret
    · exact List.forall_mem_append.2 ⟨h.settled, h'.settled⟩

theorem inlinesTo_factors (htable : table.Plain) :
    ∀ (fs : List Factor) (c : InlineContext table total env) (s : Option Error),
      FactorsLinkedBy table fs → c.Free (factorsOfFactors (mapFactorList Factor.withoutLink fs)) →
      InlinesTo s (inlineFactors c.expand (mapFactorList (Factor.replaced c.bindings)
        (mapFactorList Factor.withoutLink fs)) s) (c.FactorsMatch fs)
  | [], _, _, _, _ => fun hs => ⟨hs, rfl, fun _ hf => absurd hf List.not_mem_nil⟩
  | f :: fs, c, s, hlinked, hfree => by
    have hfactor := f.inlinesTo htable c s hlinked.1 hfree.left
    have hrest := fun s => inlinesTo_factors htable fs c s hlinked.2 hfree.right
    refine hfactor.pair (g := List.cons) (hrest _) fun f fs h h' => ⟨?_, ?_⟩
    · exact congrArg₂ List.cons h.interpret h'.interpret
    · exact List.forall_mem_append.2 ⟨h.settled, h'.settled⟩

theorem Factor.inlinesTo (htable : table.Plain) :
    ∀ (f : Factor) (c : InlineContext table total env) (s : Option Error),
      f.LinkedBy table → c.Free (f.mapInner Factor.withoutLink).withInner →
      InlinesTo s (((f.mapInner Factor.withoutLink).mapInner (Factor.replaced c.bindings)).inlineWith
        c.expand s) (c.FactorMatches f)
  | .number _, _, _, _, _ | .constant _, _, _, _, _ =>
    fun hs => ⟨hs, rfl, List.forall_mem_singleton.2 trivial⟩
  | .variable name bound, c, s, _, hfree => c.inlinesTo_variable name bound s hfree
  | .fraction x y, c, s, hlinked, hfree => by
    have hx := x.inlinesTo htable c s hlinked.1 hfree.tail.left
    have hy := fun s => y.inlinesTo htable c s hlinked.2 hfree.tail.right
    refine hx.pair (g := Factor.fraction) (hy _) fun x y h h' => ⟨?_, ?_⟩
    · exact congrArg₂ (· / ·) h.interpret h'.interpret
    · exact List.forall_mem_cons.2 ⟨trivial, List.forall_mem_append.2 ⟨h.settled, h'.settled⟩⟩
  | .power x y, c, s, hlinked, hfree => by
    have hx := x.inlinesTo htable c s hlinked.1 hfree.tail.left
    have hy := fun s => y.inlinesTo htable c s hlinked.2 hfree.tail.right
    refine hx.pair (g := Factor.power) (hy _) fun x y h h' => ⟨?_, ?_⟩
    · exact congrArg₂ Scalar.power h.interpret h'.interpret
    · exact List.forall_mem_cons.2 ⟨trivial, List.forall_mem_append.2 ⟨h.settled, h'.settled⟩⟩
  | .bracket x, c, s, hlinked, hfree =>
    (x.inlinesTo htable c s hlinked hfree.tail).map fun _ h =>
      ⟨h.interpret, List.forall_mem_cons.2 ⟨trivial, h.settled⟩⟩
  | .unary f x, c, s, hlinked, hfree =>
    (x.inlinesTo htable c s hlinked hfree.tail).map fun _ h =>
      ⟨congrArg (Scalar.apply f) h.interpret, List.forall_mem_cons.2 ⟨trivial, h.settled⟩⟩
  | .logarithm x y, c, s, hlinked, hfree => by
    have hx := x.inlinesTo htable c s hlinked.1 hfree.tail.left
    have hy := fun s => y.inlinesTo htable c s hlinked.2 hfree.tail.right
    refine hx.pair (g := Factor.logarithm) (hy _) fun x y h h' => ⟨?_, ?_⟩
    · exact congrArg₂ Scalar.logarithm h.interpret h'.interpret
    · exact List.forall_mem_cons.2 ⟨trivial, List.forall_mem_append.2 ⟨h.settled, h'.settled⟩⟩
  | .call name arguments link, c, s, hlinked, hfree => by
    have harguments := inlinesTo_arguments htable arguments c s hlinked.2 hfree.tail
    have hlength : (mapExpressions (Factor.replaced c.bindings)
        (mapExpressions Factor.withoutLink arguments)).length = arguments.length := by
      rw [length_mapExpressions, length_mapExpressions]
    cases link with
    | unlinked => exact c.inlinesTo_call_unlinked hlinked.1 hlength harguments
    | linked pass definition =>
      obtain ⟨_, parameters, body, _⟩ := definition
      obtain ⟨d, hfind, rfl, hunlink, hbody⟩ := hlinked.1
      exact c.inlinesTo_call_linked htable hfind hunlink
        (fun c hfree => body.inlinesTo htable c none hbody hfree) hlength harguments

theorem inlinesTo_arguments (htable : table.Plain) :
    ∀ (es : List Expression) (c : InlineContext table total env) (s : Option Error),
      ExpressionsLinkedBy table es →
      c.Free (factorsOfExpressions (mapExpressions Factor.withoutLink es)) →
      InlinesTo s (inlineExpressions c.expand (mapExpressions (Factor.replaced c.bindings)
        (mapExpressions Factor.withoutLink es)) s) (c.ArgumentsMatch es)
  | [], _, _, _, _ => fun hs => ⟨hs, rfl, fun _ hf => absurd hf List.not_mem_nil⟩
  | e :: es, c, s, hlinked, hfree => by
    have hfirst := e.inlinesTo htable c s hlinked.1 hfree.left
    have hrest := fun s => inlinesTo_arguments htable es c s hlinked.2 hfree.right
    refine hfirst.pair (g := List.cons) (hrest _) fun e es h h' => ⟨?_, ?_⟩
    · exact congrArg₂ List.cons h.interpret h'.interpret
    · exact List.forall_mem_append.2 ⟨h.settled, h'.settled⟩

end

/-- Linking and inlining that succeed give trees with the same interpretation, and the inlined tree
has nothing left to inline. -/
theorem Expression.interpret_link_eq_interpret_inline (total : List (Bool × List α) → α)
    (env : Environment α) (htable : table.Plain)
    {e linked inlined : Expression} (he : e.unlink = e) (hlink : e.link table = (linked, none))
    (hinline : e.inline table = (inlined, none)) :
    inlined.interpret total (Scope.outermost env) = linked.interpret total (Scope.outermost env) ∧
      ∀ f ∈ inlined.factors, f.Settled table := by
  obtain ⟨hunlink, hlinked⟩ := linkedBy_of_link htable hlink
  let outermost : InlineContext table total env :=
    ⟨table.size, [], [], [], table.covers_nil, Bindings.represent_nil table total env⟩
  have hstart : InlinesTo none (inlined, none) (outermost.Matches linked) := by
    rw [← hinline, Expression.inline, ← he, ← hunlink, ← linked.unlink.substitute_nil]
    exact linked.inlinesTo htable outermost none hlinked fun _ _ _ => rfl
  obtain ⟨-, hresult⟩ := hstart rfl
  exact ⟨hresult.interpret, hresult.settled⟩

mutual

/-- A tree that is linked as the table says has as many arguments in each call as the definition has
parameters. -/
theorem Expression.callsFit_of_linkedBy :
    ∀ e : Expression, e.LinkedBy table → e.callsFit = true
  | ⟨items⟩, h => itemsFit_of_linkedBy items h

theorem itemsFit_of_linkedBy : ∀ is : List Item, ItemsLinkedBy table is → itemsFit is = true
  | [], _ => rfl
  | ⟨_, factors⟩ :: is, h =>
    Bool.and_eq_true_iff.2 ⟨factorsFit_of_linkedBy factors h.1, itemsFit_of_linkedBy is h.2⟩

theorem factorsFit_of_linkedBy : ∀ fs : List Factor, FactorsLinkedBy table fs → factorsFit fs = true
  | [], _ => rfl
  | f :: fs, h =>
    Bool.and_eq_true_iff.2 ⟨f.callsFit_of_linkedBy h.1, factorsFit_of_linkedBy fs h.2⟩

theorem Factor.callsFit_of_linkedBy : ∀ f : Factor, f.LinkedBy table → f.callsFit = true
  | .number _, _ | .constant _, _ | .variable _ _, _ | .call _ _ .unlinked, _ => rfl
  | .fraction a b, h | .power a b, h | .logarithm a b, h =>
    Bool.and_eq_true_iff.2 ⟨a.callsFit_of_linkedBy h.1, b.callsFit_of_linkedBy h.2⟩
  | .bracket a, h | .unary _ a, h => a.callsFit_of_linkedBy h
  | .call name arguments (.linked _ ⟨_, parameters, body, _⟩), h => by
    obtain ⟨⟨d, hfind, hparameters, -, hbody⟩, harguments⟩ := h
    have hlength : parameters.length = arguments.length := by
      rw [hparameters]
      exact congrArg FunctionKey.arity (FunctionTable.key_of_find? hfind)
    refine Bool.and_eq_true_iff.2 ⟨Bool.and_eq_true_iff.2 ⟨?_, beq_iff_eq.2 hlength⟩, ?_⟩
    · exact argumentsFit_of_linkedBy arguments harguments
    · exact body.callsFit_of_linkedBy hbody

theorem argumentsFit_of_linkedBy :
    ∀ es : List Expression, ExpressionsLinkedBy table es → argumentsFit es = true
  | [], _ => rfl
  | e :: es, h =>
    Bool.and_eq_true_iff.2 ⟨e.callsFit_of_linkedBy h.1, argumentsFit_of_linkedBy es h.2⟩

end

mutual

/-- A tree without links has no call that does not fit. -/
theorem Expression.callsFit_of_settled :
    ∀ e : Expression, (∀ f ∈ e.factors, f.Settled table) → e.callsFit = true
  | ⟨items⟩, h => itemsFit_of_settled items h

theorem itemsFit_of_settled :
    ∀ is : List Item, (∀ f ∈ factorsOfItems is, f.Settled table) → itemsFit is = true
  | [], _ => rfl
  | ⟨_, factors⟩ :: is, h => by
    obtain ⟨hitem, hrest⟩ := List.forall_mem_append.1 h
    exact Bool.and_eq_true_iff.2 ⟨factorsFit_of_settled factors hitem, itemsFit_of_settled is hrest⟩

theorem factorsFit_of_settled :
    ∀ fs : List Factor, (∀ f ∈ factorsOfFactors fs, f.Settled table) → factorsFit fs = true
  | [], _ => rfl
  | f :: fs, h => by
    obtain ⟨hfactor, hrest⟩ := List.forall_mem_append.1 h
    exact Bool.and_eq_true_iff.2 ⟨f.callsFit_of_settled hfactor, factorsFit_of_settled fs hrest⟩

theorem Factor.callsFit_of_settled :
    ∀ f : Factor, (∀ g ∈ f.withInner, g.Settled table) → f.callsFit = true
  | .number _, _ | .constant _, _ | .variable _ _, _ => rfl
  | .fraction a b, h | .power a b, h | .logarithm a b, h => by
    obtain ⟨ha, hb⟩ := List.forall_mem_append.1 (List.forall_mem_cons.1 h).2
    exact Bool.and_eq_true_iff.2 ⟨a.callsFit_of_settled ha, b.callsFit_of_settled hb⟩
  | .bracket a, h | .unary _ a, h => a.callsFit_of_settled (List.forall_mem_cons.1 h).2
  | .call _ _ _, h => by
    obtain ⟨rfl, -⟩ := (List.forall_mem_cons.1 h).1
    rfl

end

/-- Linking and inlining mean the same: for every table of definitions as they are read and every
expression without links, if both succeed, then in every environment they have the same value, their
programs come to an end with the same value, and the inlined expression calls no function of the
table.  No law of the operations on scalars is used. -/
theorem Expression.link_agrees_inline (htable : table.Plain) {e linked inlined : Expression}
    (he : e.unlink = e) (hlink : e.link table = (linked, none))
    (hinline : e.inline table = (inlined, none)) :
    (∀ env : Environment α, linked.compute env = inlined.compute env ∧
      linked.program.eval env = inlined.program.eval env ∧
      ∃ value, linked.program.run? (linked.program.bind env) = some value ∧
        inlined.program.run? (inlined.program.bind env) = some value) ∧
      ∀ key ∈ inlined.functions, table.contains key = false := by
  have hsettled : ∀ env : Environment α, ∀ f ∈ inlined.factors, f.Settled table := fun env =>
    (interpret_link_eq_interpret_inline valueTotal env htable he hlink hinline).2
  constructor
  · intro env
    have hlinked := linked.callsFit_of_linkedBy (linkedBy_of_link htable hlink).2
    have hinlined := inlined.callsFit_of_settled (hsettled env)
    have hrun := linked.run?_eq_meaning hlinked env
    have hrun' := inlined.run?_eq_meaning hinlined env
    have hmeaning : inlined.meaning (Scope.outermost env) = linked.meaning (Scope.outermost env) := by
      rw [meaning_eq_interpret, meaning_eq_interpret]
      exact (interpret_link_eq_interpret_inline _ env htable he hlink hinline).1
    refine ⟨?_, ?_, linked.meaning (Scope.outermost env), hrun, ?_⟩
    · rw [Expression.compute, Expression.compute, value_eq_interpret, value_eq_interpret]
      exact (interpret_link_eq_interpret_inline _ env htable he hlink hinline).1.symm
    · rw [Program.eval_eq_of_run? hrun, Program.eval_eq_of_run? hrun', hmeaning]
    · rw [hrun', hmeaning]
  · intro key hkey
    rcases mem_addAllNew_iff.1 hkey with hkey | hkey
    · exact absurd hkey List.not_mem_nil
    · obtain ⟨f, hf, hcall⟩ := List.mem_filterMap.1 hkey
      have hf := hsettled Directory.empty f hf
      cases f with
      | call name arguments link =>
        obtain rfl := Option.some.inj hcall
        rw [Directory.contains, hf.2]
        rfl
      | _ => exact absurd hcall.symm (Option.some_ne_none key)

/-- With `g(t) = t + x` and `f(x) = g(xx) - g(g(y))`, the expression `f(x + y)` has the value 20 where
`x` is two and `y` is three: the `x` of `g` is neither the parameter of `f` nor its argument. -/
theorem Expression.link_agrees_inline_nested :
    let x : Factor := .variable 'x' none
    let y : Factor := .variable 'y' none
    let call (name : Char) (fs : List Factor) : Factor := .call name [⟨[⟨true, fs⟩]⟩] .unlinked
    let g : FunctionDefinition :=
      ⟨'g', ['t'], ⟨[⟨true, [.variable 't' none]⟩, ⟨true, [x]⟩]⟩, ['x']⟩
    let f : FunctionDefinition :=
      ⟨'f', ['x'], ⟨[⟨true, [call 'g' [x, x]]⟩, ⟨false, [call 'g' [call 'g' [y]]]⟩]⟩, ['y']⟩
    let table : FunctionTable := ⟨[f, g], by decide⟩
    let e : Expression := .ofFactor (.call 'f' [⟨[⟨true, [x]⟩, ⟨true, [y]⟩]⟩] .unlinked)
    let env : Environment Float := (Directory.empty.insert ('x', 2)).insert ('y', 3)
    (e.link table).2 = none ∧ (e.inline table).2 = none ∧
      (e.link table).1.compute env = 20 ∧ (e.inline table).1.compute env = 20 := by
  intro x y call g f table e env
  have hentries : table.entries = [f, g] := rfl
  have htable : table.Plain := by
    refine ⟨?_, ?_, ?_⟩ <;> rw [hentries, List.forall_mem_cons, List.forall_mem_singleton]
    · exact ⟨List.nodup_singleton _, List.nodup_singleton _⟩
    · exact ⟨rfl, rfl⟩
    · constructor
      all_goals
        intro name bound hmem
        simp [f, g, x, y, call, Expression.factors, factorsOfItems, Item.allFactors,
          factorsOfFactors, Factor.withInner, factorsOfExpressions] at hmem
        rcases hmem with h | h
        all_goals exact h.2
  have hlink : e.link table = ((e.link table).1, none) := Prod.ext rfl (by decide +kernel)
  have hinline : e.inline table = ((e.inline table).1, none) := Prod.ext rfl (by decide +kernel)
  have hvalue : (e.link table).1.compute env = 20 := by decide +kernel
  have hagrees := (Expression.link_agrees_inline htable (e := e) rfl hlink hinline).1 env
  exact ⟨congrArg Prod.snd hlink, congrArg Prod.snd hinline, hvalue, hagrees.1 ▸ hvalue⟩

end ImplicitCurves

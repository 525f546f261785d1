import ImplicitCurves.Proofs.Program.LinkedCalls
import ImplicitCurves.Proofs.Tree.Linking

/-!
# The links of one pass

A pass links each function once: all calls of a function get the same definition, and so have the
calls in the bodies of the definitions.  What a pass has done stays as it is, because the functions
that are being worked on are never entered a second time.
-/

namespace ImplicitCurves

/-- The links of calls are those of a pass that has done the given definitions. -/
def LinksFrom (pass : Nat) (done : List (FunctionKey × FunctionDefinition))
    (calls : List (FunctionKey × LinkId)) : Prop :=
  ∀ key id, (key, id) ∈ calls → id.pass = pass ∧ done.lookup key = some id.definition

/-- Each definition that a pass has done is one for its key, and the links in its body are from the
same pass. -/
def Coherent (pass : Nat) (done : List (FunctionKey × FunctionDefinition)) : Prop :=
  ∀ key d, done.lookup key = some d → d.key = key ∧ LinksFrom pass done d.body.linkedCalls

/-- What a stage of a pass does, while the functions of a stack are being worked on: what is done
stays, nothing on the stack becomes done, and if there is no failure after it, then there was none
before it and it leaves links of the pass. -/
structure LinkState.Traces (pass : Nat) (stack : List FunctionKey) (s t : LinkState)
    (calls : List (FunctionKey × LinkId)) : Prop where
  coherent : Coherent pass t.done
  keeps : ∀ key d, s.done.lookup key = some d → t.done.lookup key = some d
  stack : ∀ key ∈ stack, t.done.lookup key = s.done.lookup key
  links : t.failure = none → s.failure = none ∧ LinksFrom pass t.done calls

variable {pass : Nat} {stack : List FunctionKey} {s t u : LinkState}
  {calls calls' : List (FunctionKey × LinkId)}

theorem LinksFrom.mono {done done' : List (FunctionKey × FunctionDefinition)}
    (h : LinksFrom pass done calls)
    (hkeeps : ∀ key d, done.lookup key = some d → done'.lookup key = some d) :
    LinksFrom pass done' calls :=
  fun key id hmem => (h key id hmem).imp_right (hkeeps key id.definition)

theorem linksFrom_nil (pass : Nat) (done : List (FunctionKey × FunctionDefinition)) :
    LinksFrom pass done [] :=
  fun _ _ hmem => absurd hmem List.not_mem_nil

namespace LinkState

/-- A stage after a stage. -/
theorem Traces.trans (h : s.Traces pass stack t calls) (h' : t.Traces pass stack u calls') :
    s.Traces pass stack u (calls ++ calls') where
  coherent := h'.coherent
  keeps key d hkey := h'.keeps key d (h.keeps key d hkey)
  stack key hkey := (h'.stack key hkey).trans (h.stack key hkey)
  links hu := by
    obtain ⟨ht, hlinks'⟩ := h'.links hu
    obtain ⟨hs, hlinks⟩ := h.links ht
    exact ⟨hs, forall_mem_append_calls (hlinks.mono h'.keeps) hlinks'⟩

/-- A stage that leaves everything as it is. -/
theorem Traces.refl (h : Coherent pass s.done) (stack : List FunctionKey) :
    s.Traces pass stack s [] where
  coherent := h
  keeps _ _ hkey := hkey
  stack _ _ := rfl
  links hs := ⟨hs, linksFrom_nil pass s.done⟩

theorem Traces.subset (h : s.Traces pass stack t calls) (hcalls : calls' ⊆ calls) :
    s.Traces pass stack t calls' :=
  { h with links := fun ht => (h.links ht).imp_right fun hlinks key id hmem =>
      hlinks key id (hcalls hmem) }

theorem Traces.of_stack {stack' : List FunctionKey} (h : s.Traces pass stack' t calls)
    (hstack : stack ⊆ stack') : s.Traces pass stack t calls :=
  { h with stack := fun key hmem => h.stack key (hstack hmem) }

/-- After a failure nothing is promised about links. -/
theorem Traces.of_failure (h : s.Traces pass stack t calls) (hfailed : t.failure.isSome = true)
    (calls' : List (FunctionKey × LinkId)) : s.Traces pass stack t calls' :=
  { h with links := fun ht => by rw [ht] at hfailed; cases hfailed }

end LinkState

/-- The call of a function that was looked up. -/
def callOf (pass : Nat) (key : FunctionKey) : Option FunctionDefinition → List (FunctionKey × LinkId)
  | none => []
  | some d => [(key, ⟨pass, d⟩)]

/-- What is looked up is done, and stays so. -/
def Resolver.Traces (pass : Nat) (stack : List FunctionKey) (resolve : Resolver) : Prop :=
  ∀ (key : FunctionKey) (s : LinkState), Coherent pass s.done →
    s.Traces pass stack (resolve key s).2 (callOf pass key (resolve key s).1)

open LinkState

variable {resolve : Resolver}

mutual

/-- Linking an expression leaves links of the pass. -/
theorem Expression.traces_linkWith (hresolve : resolve.Traces pass stack) :
    ∀ (e : Expression) (s : LinkState), Coherent pass s.done →
      s.Traces pass stack (e.linkWith pass resolve s).2 (e.linkWith pass resolve s).1.linkedCalls
  | ⟨items⟩, s, hs => traces_linkItems hresolve items s hs

theorem traces_linkItems (hresolve : resolve.Traces pass stack) :
    ∀ (is : List Item) (s : LinkState), Coherent pass s.done →
      s.Traces pass stack (linkItems pass resolve is s).2
        (linkedCallsOfItems (linkItems pass resolve is s).1)
  | [], _, hs => .refl hs stack
  | ⟨_, factors⟩ :: is, s, hs => by
    have hitem := traces_linkFactors hresolve factors s hs
    exact hitem.trans (traces_linkItems hresolve is _ hitem.coherent)

theorem traces_linkFactors (hresolve : resolve.Traces pass stack) :
    ∀ (fs : List Factor) (s : LinkState), Coherent pass s.done →
      s.Traces pass stack (linkFactors pass resolve fs s).2
        (linkedCallsOfFactors (linkFactors pass resolve fs s).1)
  | [], _, hs => .refl hs stack
  | f :: fs, s, hs => by
    have hfactor := f.traces_linkWith hresolve s hs
    exact hfactor.trans (traces_linkFactors hresolve fs _ hfactor.coherent)

theorem Factor.traces_linkWith (hresolve : resolve.Traces pass stack) :
    ∀ (f : Factor) (s : LinkState), Coherent pass s.done →
      s.Traces pass stack (f.linkWith pass resolve s).2 (f.linkWith pass resolve s).1.linkedCalls
  | .number _, _, hs | .constant _, _, hs | .variable _ _, _, hs => .refl hs stack
  | .fraction a b, s, hs | .power a b, s, hs | .logarithm a b, s, hs => by
    have ha := a.traces_linkWith hresolve s hs
    exact ha.trans (b.traces_linkWith hresolve _ ha.coherent)
  | .bracket a, s, hs | .unary _ a, s, hs => a.traces_linkWith hresolve s hs
  | .call name arguments link, s, hs => by
    have hfound := hresolve ⟨name, arguments.length⟩ s hs
    have harguments := traces_linkExpressions hresolve arguments _ hfound.coherent
    simp only [Factor.linkWith]
    split
    · next hfailed => exact (Traces.refl hs stack).of_failure hfailed _
    · split
      · next hfailed => exact hfound.of_failure hfailed _
      · refine (hfound.trans harguments).subset ?_
        cases (resolve ⟨name, arguments.length⟩ s).1 with
        | none => exact List.nil_subset _
        | some d =>
          simp only [Link.of, Factor.linkedCalls, length_linkExpressions, callOf]
          intro call hmem
          exact List.mem_append.2 (List.mem_append.1 hmem).symm

theorem traces_linkExpressions (hresolve : resolve.Traces pass stack) :
    ∀ (es : List Expression) (s : LinkState), Coherent pass s.done →
      s.Traces pass stack (linkExpressions pass resolve es s).2
        (linkedCallsOfArguments (linkExpressions pass resolve es s).1)
  | [], _, hs => .refl hs stack
  | e :: es, s, hs => by
    have hfirst := e.traces_linkWith hresolve s hs
    exact hfirst.trans (traces_linkExpressions hresolve es _ hfirst.coherent)

end

namespace FunctionTable

/-- A definition that has just been linked can be added to what is done, if its key is new. -/
theorem coherent_cons {done : List (FunctionKey × FunctionDefinition)} {key : FunctionKey}
    {d : FunctionDefinition} (h : Coherent pass done) (hnew : done.lookup key = none)
    (hkey : d.key = key) (hlinks : LinksFrom pass done d.body.linkedCalls) :
    Coherent pass ((key, d) :: done) ∧
      ∀ key' d', done.lookup key' = some d' → ((key, d) :: done).lookup key' = some d' := by
  have hkeeps : ∀ key' d', done.lookup key' = some d' →
      ((key, d) :: done).lookup key' = some d' := by
    intro key' d' hd'
    have hne : (key' == key) = false := by
      refine beq_false_of_ne ?_
      rintro rfl
      rw [hnew] at hd'
      cases hd'
    rw [List.lookup_cons, hne, hd']
  refine ⟨fun key' d' hd' => ?_, hkeeps⟩
  rw [List.lookup_cons] at hd'
  split at hd'
  · next heq =>
    obtain rfl := Option.some.inj hd'
    exact ⟨hkey.trans (eq_of_beq heq).symm, hlinks.mono hkeeps⟩
  · exact (h key' d' hd').imp_right fun hbody => hbody.mono hkeeps

/-- Looking up a function of a table leaves what is done as it is. -/
theorem resolve_traces (table : FunctionTable) (pass : Nat) :
    ∀ (depth : Nat) (stack : List FunctionKey),
      Resolver.Traces pass stack (table.resolve pass depth stack)
  | depth, stack => by
    intro key s hs
    have hresolves := table.resolves pass depth stack key s
    generalize table.resolve pass depth stack key s = r at hresolves ⊢
    have hbelow : stack ⊆ stack ++ [key] := List.subset_append_left _ _
    cases hresolves with
    | @done _ d hdone =>
      refine { Traces.refl hs stack with links := fun hnone => ⟨hnone, fun key' id hmem => ?_⟩ }
      obtain ⟨rfl, rfl⟩ := Prod.mk.inj (List.mem_singleton.1 hmem)
      exact ⟨rfl, hdone⟩
    | undefined _ _ => exact .refl hs stack
    | recursive _ _ _ =>
      exact { Traces.refl hs stack with links := fun hnone => absurd hnone (by simp) }
    | exhausted _ _ _ => exact .refl hs stack
    | @failed depth d body t _ _ _ hbody hfailed =>
      have htraces := d.body.traces_linkWith (resolve_traces table pass depth (stack ++ [key])) s hs
      rw [hbody] at htraces
      exact (htraces.of_stack hbelow).of_failure hfailed _
    | @linked depth d body t hnew hkey hstack hbody hdone =>
      have htraces := d.body.traces_linkWith (resolve_traces table pass depth (stack ++ [key])) s hs
      rw [hbody] at htraces
      obtain ⟨hstart, hlinks⟩ := htraces.links hdone
      have hstill : t.done.lookup key = none :=
        (htraces.stack key (List.mem_append_right _ (List.mem_singleton.2 rfl))).trans hnew
      have hsame : d.key = key := key_of_find? hkey
      obtain ⟨hcoherent, hkeeps⟩ :=
        coherent_cons (d := { d with body }) htraces.coherent hstill hsame hlinks
      refine ⟨hcoherent, fun key' d' hd' => hkeeps key' d' (htraces.keeps key' d' hd'),
        fun key' hmem => ?_, fun _ => ⟨hstart, fun key' id hmem => ?_⟩⟩
      · have hne : (key' == key) = false := by
          refine beq_false_of_ne ?_
          rintro rfl
          exact hstack hmem
        rw [List.lookup_cons, hne, htraces.stack key' (hbelow hmem)]
      · obtain ⟨rfl, rfl⟩ := Prod.mk.inj (List.mem_singleton.1 hmem)
        exact ⟨rfl, by rw [List.lookup_cons, beq_self_eq_true]⟩

/-- The definitions that a pass over some expressions has done when it ends. -/
def doneBy (table : FunctionTable) (pass : Nat) (es : List Expression) :
    List (FunctionKey × FunctionDefinition) :=
  (linkExpressions pass (table.resolve pass table.size []) es ⟨[], none⟩).2.done

theorem traces_pass (table : FunctionTable) (pass : Nat) (es : List Expression) :
    LinkState.Traces pass [] ⟨[], none⟩
      (linkExpressions pass (table.resolve pass table.size []) es ⟨[], none⟩).2
      (linkedCallsOfArguments
        (linkExpressions pass (table.resolve pass table.size []) es ⟨[], none⟩).1) :=
  traces_linkExpressions (table.resolve_traces pass _ _) es _ fun _ _ hkey => nomatch hkey

/-- What a pass has done is coherent, whether it succeeds or not. -/
theorem coherent_doneBy (table : FunctionTable) (pass : Nat) (es : List Expression) :
    Coherent pass (table.doneBy pass es) :=
  (table.traces_pass pass es).coherent

/-- All links that a successful pass leaves are its own. -/
theorem linksFrom_doneBy {table : FunctionTable} {pass : Nat} {es linked : List Expression}
    (h : linkTogether table pass es = (linked, none)) :
    LinksFrom pass (table.doneBy pass es) (linkedCallsOfArguments linked) := by
  obtain ⟨rfl, hnone⟩ := Prod.mk.inj h
  exact ((table.traces_pass pass es).links hnone).2

end FunctionTable

end ImplicitCurves

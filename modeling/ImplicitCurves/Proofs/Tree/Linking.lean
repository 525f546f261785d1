import ImplicitCurves.Proofs.Directories
import ImplicitCurves.Tree.Inlining
import ImplicitCurves.Tree.Traversal
import Mathlib.Data.List.Nodup
import Mathlib.Data.List.Perm.Subperm

/-!
# Linked trees

Linking that succeeds gives every call the definition that the table has for it: the linked tree is
the tree that was there before, with links that are those of the table all the way down.  The
definitions that a pass has done are kept correct along the way, and the depth of a pass never runs
out, because the definitions that are being worked on are different ones of the table.
-/

namespace ImplicitCurves

/-- The factor without its link. -/
def Factor.withoutLink : Factor → Factor
  | .call name arguments _ => .call name arguments .unlinked
  | f => f

mutual

/-- Every call is linked to the definition that the table has for it, whose body is linked in the
same way, and a call without a definition in the table is not linked. -/
def Expression.LinkedBy (table : FunctionTable) : Expression → Prop
  | ⟨items⟩ => ItemsLinkedBy table items

/-- Every call in items is linked as the table says. -/
def ItemsLinkedBy (table : FunctionTable) : List Item → Prop
  | [] => True
  | i :: is => i.LinkedBy table ∧ ItemsLinkedBy table is

/-- Every call in an item is linked as the table says. -/
def Item.LinkedBy (table : FunctionTable) : Item → Prop
  | ⟨_, factors⟩ => FactorsLinkedBy table factors

/-- Every call in factors is linked as the table says. -/
def FactorsLinkedBy (table : FunctionTable) : List Factor → Prop
  | [] => True
  | f :: fs => f.LinkedBy table ∧ FactorsLinkedBy table fs

/-- Every call in a factor is linked as the table says. -/
def Factor.LinkedBy (table : FunctionTable) : Factor → Prop
  | .number _ | .constant _ | .variable _ _ => True
  | .fraction a b | .power a b | .logarithm a b => a.LinkedBy table ∧ b.LinkedBy table
  | .bracket a | .unary _ a => a.LinkedBy table
  | .call name arguments link =>
    link.Matches table ⟨name, arguments.length⟩ ∧ ExpressionsLinkedBy table arguments

/-- Every call in expressions is linked as the table says. -/
def ExpressionsLinkedBy (table : FunctionTable) : List Expression → Prop
  | [] => True
  | e :: es => e.LinkedBy table ∧ ExpressionsLinkedBy table es

/-- The link is the one for a key. -/
def Link.Matches (table : FunctionTable) (key : FunctionKey) : Link → Prop
  | .unlinked => table.find? key = none
  | .linked _ d => d.Matches table key

/-- The definition is the one for a key, with a linked body. -/
def FunctionDefinition.Matches (table : FunctionTable) (key : FunctionKey) :
    FunctionDefinition → Prop
  | ⟨_, parameters, body, _⟩ =>
    ∃ d, table.find? key = some d ∧ parameters = d.parameters ∧ body.unlink = d.body ∧
      body.LinkedBy table

end

/-- The definitions of a table are as they are read: their parameters are distinct, and their bodies
have neither links nor values bound to variables. -/
structure FunctionTable.Plain (table : FunctionTable) : Prop where
  nodup : ∀ d ∈ table.entries, d.parameters.Nodup
  unlinked : ∀ d ∈ table.entries, d.body.unlink = d.body
  unbound : ∀ d ∈ table.entries, ∀ name bound, .variable name bound ∈ d.body.factors → bound = none

/-- The definitions of a stack are different ones of the table, and the depth is the number of the
others. -/
structure FunctionTable.Covers (table : FunctionTable) (depth : Nat) (stack : List FunctionKey) :
    Prop where
  nodup : stack.Nodup
  contained : ∀ key ∈ stack, ∃ d, table.find? key = some d
  size : stack.length + depth = table.size

namespace FunctionTable

variable {table : FunctionTable}

theorem covers_nil (table : FunctionTable) : table.Covers table.size [] where
  nodup := List.nodup_nil
  contained key hkey := absurd hkey List.not_mem_nil
  size := by simp

/-- A definition that is not on the stack leaves depth for it. -/
theorem Covers.push {depth : Nat} {stack : List FunctionKey} (h : table.Covers depth stack)
    {key : FunctionKey} {d : FunctionDefinition} (hkey : table.find? key = some d)
    (hnew : key ∉ stack) : ∃ depth', depth = depth' + 1 ∧ table.Covers depth' (stack ++ [key]) := by
  have hnodup : (stack ++ [key]).Nodup := by
    rw [← List.concat_eq_append]
    exact h.nodup.concat hnew
  have hcontained : ∀ k ∈ stack ++ [key], ∃ d, table.find? k = some d := by
    intro k hk
    rcases List.mem_append.1 hk with hk | hk
    · exact h.contained k hk
    · exact ⟨d, List.mem_singleton.1 hk ▸ hkey⟩
  have hsub : stack ++ [key] ⊆ table.entries.map FunctionDefinition.key := by
    intro k hk
    obtain ⟨d', hd'⟩ := hcontained k hk
    exact List.mem_map.2 ⟨d', mem_of_find? hd', key_of_find? hd'⟩
  have hlength := (hnodup.subperm hsub).length_le
  have hsize := h.size
  simp only [List.length_append, List.length_singleton, List.length_map] at hlength
  unfold Directory.size at hsize
  refine ⟨depth - 1, by omega, hnodup, hcontained, ?_⟩
  simp only [List.length_append, List.length_singleton, Directory.size]
  omega

theorem Covers.push_succ {depth : Nat} {stack : List FunctionKey} (h : table.Covers (depth + 1) stack)
    {key : FunctionKey} {d : FunctionDefinition} (hkey : table.find? key = some d)
    (hnew : key ∉ stack) : table.Covers depth (stack ++ [key]) := by
  obtain ⟨depth', hdepth, hcovers⟩ := h.push hkey hnew
  obtain rfl := Nat.succ.inj hdepth
  exact hcovers

end FunctionTable

/-- The link that a pass gives to a call with a key: one to the definition of the table, with a body
that is the same but for links, and in which every call has the link that the pass gives it. -/
inductive Link.StandsFor (table : FunctionTable) (pass : Nat) : FunctionKey → Link → Prop
  | unlinked {key : FunctionKey} : table.find? key = none → StandsFor table pass key .unlinked
  | linked {key : FunctionKey} {d : FunctionDefinition} {body : Expression} :
    table.find? key = some d → body.unlink = d.body.unlink →
      (∀ name arguments link, .call name arguments link ∈ body.factors →
        StandsFor table pass ⟨name, arguments.length⟩ link) →
      StandsFor table pass key (.linked pass { d with body })

/-- Every call among the factors has the link that the pass gives it. -/
def CallsStand (table : FunctionTable) (pass : Nat) (factors : List Factor) : Prop :=
  ∀ name arguments link, .call name arguments link ∈ factors →
    link.StandsFor table pass ⟨name, arguments.length⟩

namespace CallsStand

variable {table : FunctionTable} {pass : Nat} {factors factors' : List Factor}

theorem nil : CallsStand table pass [] :=
  fun _ _ _ hmem => absurd hmem List.not_mem_nil

theorem append (h : CallsStand table pass factors) (h' : CallsStand table pass factors') :
    CallsStand table pass (factors ++ factors') := by
  intro name arguments link hmem
  rcases List.mem_append.1 hmem with hmem | hmem
  · exact h name arguments link hmem
  · exact h' name arguments link hmem

theorem cons {f : Factor} (hf : f.callKey? = none) (h : CallsStand table pass factors) :
    CallsStand table pass (f :: factors) := by
  intro name arguments link hmem
  rcases List.mem_cons.1 hmem with rfl | hmem
  · cases hf
  · exact h name arguments link hmem

theorem cons_call {name : Char} {arguments : List Expression} {link : Link}
    (hlink : link.StandsFor table pass ⟨name, arguments.length⟩) (h : CallsStand table pass factors) :
    CallsStand table pass (.call name arguments link :: factors) := by
  intro name' arguments' link' hmem
  rcases List.mem_cons.1 hmem with heq | hmem
  · cases heq
    exact hlink
  · exact h name' arguments' link' hmem

end CallsStand

/-- The definitions that a pass has done are those that it links to. -/
def LinkState.Faithful (table : FunctionTable) (pass : Nat) (s : LinkState) : Prop :=
  ∀ key d, (key, d) ∈ s.done → (Link.linked pass d).StandsFor table pass key

/-- What a stage of a pass does: it keeps the definitions that are done right, and if there is no
failure after it, then there was none before it and its result is right. -/
structure LinkState.Yields (table : FunctionTable) (pass : Nat) (s t : LinkState) (result : Prop) :
    Prop where
  faithful : t.Faithful table pass
  result : t.failure = none → s.failure = none ∧ result

section Stages

variable {table : FunctionTable} {pass : Nat} {s t u : LinkState} {p q r : Prop}

/-- A stage after a stage. -/
theorem LinkState.Yields.trans (hst : s.Yields table pass t p) (htu : t.Yields table pass u q)
    (h : p → q → r) : s.Yields table pass u r where
  faithful := htu.faithful
  result hu := by
    obtain ⟨ht, hq⟩ := htu.result hu
    obtain ⟨hs, hp⟩ := hst.result ht
    exact ⟨hs, h hp hq⟩

theorem LinkState.Yields.imp (h : s.Yields table pass t p) (hpq : p → q) : s.Yields table pass t q :=
  ⟨h.faithful, fun ht => (h.result ht).imp_right hpq⟩

/-- After a failure nothing is promised but that the definitions that are done are right. -/
theorem LinkState.Yields.of_failure (h : t.Faithful table pass) (hfailed : t.failure.isSome = true) :
    s.Yields table pass t p where
  faithful := h
  result ht := by
    rw [ht] at hfailed
    exact absurd hfailed Bool.false_ne_true

end Stages

/-- Every definition that is looked up is the one that the pass links to. -/
def Resolver.Faithful (table : FunctionTable) (pass : Nat) (resolve : Resolver) : Prop :=
  ∀ (key : FunctionKey) (s : LinkState), s.Faithful table pass →
    s.Yields table pass (resolve key s).2 ((Link.of pass (resolve key s).1).StandsFor table pass key)

variable {table : FunctionTable} {pass : Nat} {resolve : Resolver}

theorem length_linkExpressions (pass : Nat) (resolve : Resolver) (es : List Expression)
    (s : LinkState) : (linkExpressions pass resolve es s).1.length = es.length := by
  induction es generalizing s with
  | nil => rfl
  | cons e es ih => simp [linkExpressions, ih]

mutual

/-- Linking an expression gives every call its link, and changes nothing but links. -/
theorem Expression.yields_linkWith (hresolve : resolve.Faithful table pass) :
    ∀ (e : Expression) (s : LinkState), s.Faithful table pass →
      s.Yields table pass (e.linkWith pass resolve s).2
        ((e.linkWith pass resolve s).1.unlink = e.unlink ∧
          CallsStand table pass (e.linkWith pass resolve s).1.factors)
  | ⟨items⟩, s, hs =>
    (yields_linkItems hresolve items s hs).imp fun ⟨hunlink, hcalls⟩ =>
      ⟨congrArg Expression.mk hunlink, hcalls⟩

theorem yields_linkItems (hresolve : resolve.Faithful table pass) :
    ∀ (is : List Item) (s : LinkState), s.Faithful table pass →
      s.Yields table pass (linkItems pass resolve is s).2
        (mapItems Factor.withoutLink (linkItems pass resolve is s).1 =
          mapItems Factor.withoutLink is ∧
            CallsStand table pass (factorsOfItems (linkItems pass resolve is s).1))
  | [], _, hs => ⟨hs, fun h => ⟨h, rfl, .nil⟩⟩
  | ⟨positive, factors⟩ :: is, s, hs => by
    have hitem := yields_linkFactors hresolve factors s hs
    have hrest := yields_linkItems hresolve is _ hitem.faithful
    refine hitem.trans hrest fun ⟨hunlink, hcalls⟩ ⟨hunlink', hcalls'⟩ => ⟨?_, hcalls.append hcalls'⟩
    exact congrArg₂ (Item.mk positive · :: ·) hunlink hunlink'

theorem yields_linkFactors (hresolve : resolve.Faithful table pass) :
    ∀ (fs : List Factor) (s : LinkState), s.Faithful table pass →
      s.Yields table pass (linkFactors pass resolve fs s).2
        (mapFactorList Factor.withoutLink (linkFactors pass resolve fs s).1 =
          mapFactorList Factor.withoutLink fs ∧
            CallsStand table pass (factorsOfFactors (linkFactors pass resolve fs s).1))
  | [], _, hs => ⟨hs, fun h => ⟨h, rfl, .nil⟩⟩
  | f :: fs, s, hs => by
    have hfactor := f.yields_linkWith hresolve s hs
    have hrest := yields_linkFactors hresolve fs _ hfactor.faithful
    refine hfactor.trans hrest fun ⟨hunlink, hcalls⟩ ⟨hunlink', hcalls'⟩ =>
      ⟨?_, hcalls.append hcalls'⟩
    exact congrArg₂ List.cons hunlink hunlink'

theorem Factor.yields_linkWith (hresolve : resolve.Faithful table pass) :
    ∀ (f : Factor) (s : LinkState), s.Faithful table pass →
      s.Yields table pass (f.linkWith pass resolve s).2
        ((f.linkWith pass resolve s).1.mapInner Factor.withoutLink =
          f.mapInner Factor.withoutLink ∧
            CallsStand table pass (f.linkWith pass resolve s).1.withInner)
  | .number _, _, hs | .constant _, _, hs | .variable _ _, _, hs =>
    ⟨hs, fun h => ⟨h, rfl, CallsStand.nil.cons rfl⟩⟩
  | .fraction a b, s, hs => by
    have ha := a.yields_linkWith hresolve s hs
    have hb := b.yields_linkWith hresolve _ ha.faithful
    refine ha.trans hb fun ⟨hunlink, hcalls⟩ ⟨hunlink', hcalls'⟩ =>
      ⟨?_, (hcalls.append hcalls').cons rfl⟩
    exact congrArg₂ Factor.fraction hunlink hunlink'
  | .power a b, s, hs => by
    have ha := a.yields_linkWith hresolve s hs
    have hb := b.yields_linkWith hresolve _ ha.faithful
    refine ha.trans hb fun ⟨hunlink, hcalls⟩ ⟨hunlink', hcalls'⟩ =>
      ⟨?_, (hcalls.append hcalls').cons rfl⟩
    exact congrArg₂ Factor.power hunlink hunlink'
  | .bracket a, s, hs =>
    (a.yields_linkWith hresolve s hs).imp fun ⟨hunlink, hcalls⟩ =>
      ⟨congrArg Factor.bracket hunlink, hcalls.cons rfl⟩
  | .unary f a, s, hs =>
    (a.yields_linkWith hresolve s hs).imp fun ⟨hunlink, hcalls⟩ =>
      ⟨congrArg (Factor.unary f) hunlink, hcalls.cons rfl⟩
  | .logarithm a b, s, hs => by
    have ha := a.yields_linkWith hresolve s hs
    have hb := b.yields_linkWith hresolve _ ha.faithful
    refine ha.trans hb fun ⟨hunlink, hcalls⟩ ⟨hunlink', hcalls'⟩ =>
      ⟨?_, (hcalls.append hcalls').cons rfl⟩
    exact congrArg₂ Factor.logarithm hunlink hunlink'
  | .call name arguments link, s, hs => by
    have hfound := hresolve ⟨name, arguments.length⟩ s hs
    have harguments := yields_linkExpressions hresolve arguments _ hfound.faithful
    simp only [Factor.linkWith]
    split
    · next hfailed => exact .of_failure hs hfailed
    · split
      · next hfailed => exact .of_failure hfound.faithful hfailed
      · refine hfound.trans harguments fun hstands ⟨hunlink, hcalls⟩ => ⟨?_, ?_⟩
        · exact congrArg (Factor.call name · .unlinked) hunlink
        · refine CallsStand.cons_call ?_ hcalls
          rw [length_linkExpressions]
          exact hstands

theorem yields_linkExpressions (hresolve : resolve.Faithful table pass) :
    ∀ (es : List Expression) (s : LinkState), s.Faithful table pass →
      s.Yields table pass (linkExpressions pass resolve es s).2
        (mapExpressions Factor.withoutLink (linkExpressions pass resolve es s).1 =
          mapExpressions Factor.withoutLink es ∧
            CallsStand table pass (factorsOfExpressions (linkExpressions pass resolve es s).1))
  | [], _, hs => ⟨hs, fun h => ⟨h, rfl, .nil⟩⟩
  | e :: es, s, hs => by
    have hfirst := e.yields_linkWith hresolve s hs
    have hrest := yields_linkExpressions hresolve es _ hfirst.faithful
    refine hfirst.trans hrest fun ⟨hunlink, hcalls⟩ ⟨hunlink', hcalls'⟩ =>
      ⟨?_, hcalls.append hcalls'⟩
    exact congrArg₂ List.cons hunlink hunlink'

end

namespace FunctionTable

/-- The ways in which looking up a definition ends, for the depth that is left, with what is found
and the state after it. -/
inductive Resolves (table : FunctionTable) (pass : Nat) (stack : List FunctionKey)
    (key : FunctionKey) (s : LinkState) : Nat → Option FunctionDefinition × LinkState → Prop
  | done {depth : Nat} {d : FunctionDefinition} (hdone : s.done.lookup key = some d) :
    Resolves table pass stack key s depth (some d, s)
  | undefined {depth : Nat} (hnew : s.done.lookup key = none) (hkey : table.find? key = none) :
    Resolves table pass stack key s depth (none, s)
  | recursive {depth : Nat} {d : FunctionDefinition} (hnew : s.done.lookup key = none)
    (hkey : table.find? key = some d) (hstack : key ∈ stack) :
    Resolves table pass stack key s depth (none, { s with failure := some (recursionError stack key) })
  | exhausted {d : FunctionDefinition} (hnew : s.done.lookup key = none)
    (hkey : table.find? key = some d) (hstack : key ∉ stack) :
    Resolves table pass stack key s 0 (none, s)
  | failed {depth : Nat} {d : FunctionDefinition} {body : Expression} {t : LinkState}
    (hnew : s.done.lookup key = none) (hkey : table.find? key = some d) (hstack : key ∉ stack)
    (hbody : d.body.linkWith pass (table.resolve pass depth (stack ++ [key])) s = (body, t))
    (hfailed : t.failure.isSome = true) : Resolves table pass stack key s (depth + 1) (none, t)
  | linked {depth : Nat} {d : FunctionDefinition} {body : Expression} {t : LinkState}
    (hnew : s.done.lookup key = none) (hkey : table.find? key = some d) (hstack : key ∉ stack)
    (hbody : d.body.linkWith pass (table.resolve pass depth (stack ++ [key])) s = (body, t))
    (hdone : t.failure = none) :
    Resolves table pass stack key s (depth + 1)
      (some { d with body }, { t with done := (key, { d with body }) :: t.done })

theorem resolves (table : FunctionTable) (pass depth : Nat) (stack : List FunctionKey)
    (key : FunctionKey) (s : LinkState) :
    table.Resolves pass stack key s depth (table.resolve pass depth stack key s) := by
  unfold resolve
  split
  · next d hdone => exact .done hdone
  · next hnew =>
    split
    · next hkey => exact .undefined hnew hkey
    · next d hkey =>
      split
      · next hstack => exact .recursive hnew hkey (List.contains_iff_mem.1 hstack)
      · next hstack =>
        replace hstack : key ∉ stack := fun hmem => hstack (List.contains_iff_mem.2 hmem)
        cases depth with
        | zero => exact .exhausted hnew hkey hstack
        | succ depth =>
          dsimp only
          split
          · next hfailed => exact .failed hnew hkey hstack rfl hfailed
          · next hdone => exact .linked hnew hkey hstack rfl (Option.not_isSome_iff_eq_none.1 hdone)

/-- While the depth covers the table, every definition that is looked up is the one that the pass
links to, whatever links are in the bodies of the table. -/
theorem resolve_faithful (table : FunctionTable) (pass : Nat) :
    ∀ (depth : Nat) (stack : List FunctionKey), table.Covers depth stack →
      Resolver.Faithful table pass (table.resolve pass depth stack)
  | depth, stack, hcovers => by
    intro key s hs
    have hresolves := table.resolves pass depth stack key s
    generalize table.resolve pass depth stack key s = r at hresolves ⊢
    cases hresolves with
    | @done _ d hdone => exact ⟨hs, fun hnone => ⟨hnone, hs key d (mem_of_lookup_eq_some hdone)⟩⟩
    | undefined _ hkey => exact ⟨hs, fun hnone => ⟨hnone, .unlinked hkey⟩⟩
    | recursive _ _ _ => exact .of_failure hs rfl
    | exhausted _ hkey hstack =>
      obtain ⟨depth, hdepth, -⟩ := hcovers.push hkey hstack
      cases hdepth
    | @failed depth d body t _ hkey hstack hbody hfailed =>
      have hyields := d.body.yields_linkWith (resolve_faithful table pass depth _
        (hcovers.push_succ hkey hstack)) s hs
      rw [hbody] at hyields
      exact .of_failure hyields.faithful hfailed
    | @linked depth d body t _ hkey hstack hbody hdone =>
      have hyields := d.body.yields_linkWith (resolve_faithful table pass depth _
        (hcovers.push_succ hkey hstack)) s hs
      rw [hbody] at hyields
      obtain ⟨hstart, hunlink, hcalls⟩ := hyields.result hdone
      have hstands := Link.StandsFor.linked hkey hunlink hcalls
      refine ⟨fun key' d' hmem => ?_, fun _ => ⟨hstart, hstands⟩⟩
      rcases List.mem_cons.1 hmem with heq | hmem
      · obtain ⟨rfl, rfl⟩ := Prod.mk.inj heq
        exact hstands
      · exact hyields.faithful key' d' hmem

end FunctionTable

/-- A pass over expressions that succeeds gives every call its link, and changes nothing but
links. -/
theorem callsStand_linkTogether (table : FunctionTable) {es : List Expression}
    (h : (linkTogether table pass es).2 = none) :
    mapExpressions Factor.withoutLink (linkTogether table pass es).1 =
        mapExpressions Factor.withoutLink es ∧
      CallsStand table pass (factorsOfExpressions (linkTogether table pass es).1) :=
  ((yields_linkExpressions (table.resolve_faithful pass _ _ table.covers_nil) es ⟨[], none⟩
    fun _ _ hmem => absurd hmem List.not_mem_nil).result h).2

/-- Linking all calls is what one of the passes does. -/
theorem exists_linkAll_eq (table : FunctionTable) (es : List Expression) :
    ∃ pass, linkAll table es = linkTogether table pass es := by
  unfold linkAll
  split
  · next linked hfirst => exact ⟨0, hfirst.symm⟩
  · exact ⟨_, rfl⟩

theorem linkTogether_singleton (table : FunctionTable) (pass : Nat) (e : Expression) :
    linkTogether table pass [e] =
      ([(e.linkWith pass (table.resolve pass table.size []) ⟨[], none⟩).1],
        (e.linkWith pass (table.resolve pass table.size []) ⟨[], none⟩).2.failure) := by
  rfl

/-- Linking that succeeds has done so in one pass. -/
theorem Expression.exists_pass_of_link {e linked : Expression}
    (h : e.link table = (linked, none)) :
    ∃ pass, linkTogether table pass [e] = ([linked], none) := by
  obtain ⟨pass, hpass⟩ := exists_linkAll_eq table [e]
  refine ⟨pass, ?_⟩
  rw [linkTogether_singleton] at hpass ⊢
  simp only [Expression.link, hpass, Prod.mk.injEq] at h
  rw [h.1, h.2]

mutual

/-- A tree is linked as the table says if each of its calls is. -/
theorem Expression.linkedBy_of_calls : ∀ e : Expression,
    (∀ name arguments link, .call name arguments link ∈ e.factors →
      link.Matches table ⟨name, arguments.length⟩) → e.LinkedBy table
  | ⟨items⟩, h => itemsLinkedBy_of_calls items h

theorem itemsLinkedBy_of_calls : ∀ is : List Item,
    (∀ name arguments link, .call name arguments link ∈ factorsOfItems is →
      link.Matches table ⟨name, arguments.length⟩) → ItemsLinkedBy table is
  | [], _ => trivial
  | ⟨_, factors⟩ :: is, h =>
    ⟨factorsLinkedBy_of_calls factors fun _ _ _ hmem => h _ _ _ (List.mem_append_left _ hmem),
      itemsLinkedBy_of_calls is fun _ _ _ hmem => h _ _ _ (List.mem_append_right _ hmem)⟩

theorem factorsLinkedBy_of_calls : ∀ fs : List Factor,
    (∀ name arguments link, .call name arguments link ∈ factorsOfFactors fs →
      link.Matches table ⟨name, arguments.length⟩) → FactorsLinkedBy table fs
  | [], _ => trivial
  | f :: fs, h =>
    ⟨f.linkedBy_of_calls fun _ _ _ hmem => h _ _ _ (List.mem_append_left _ hmem),
      factorsLinkedBy_of_calls fs fun _ _ _ hmem => h _ _ _ (List.mem_append_right _ hmem)⟩

theorem Factor.linkedBy_of_calls : ∀ f : Factor,
    (∀ name arguments link, .call name arguments link ∈ f.withInner →
      link.Matches table ⟨name, arguments.length⟩) → f.LinkedBy table
  | .number _, _ | .constant _, _ | .variable _ _, _ => trivial
  | .fraction a b, h | .power a b, h | .logarithm a b, h =>
    ⟨a.linkedBy_of_calls fun _ _ _ hmem =>
        h _ _ _ (List.mem_cons_of_mem _ (List.mem_append_left _ hmem)),
      b.linkedBy_of_calls fun _ _ _ hmem =>
        h _ _ _ (List.mem_cons_of_mem _ (List.mem_append_right _ hmem))⟩
  | .bracket a, h | .unary _ a, h =>
    a.linkedBy_of_calls fun _ _ _ hmem => h _ _ _ (List.mem_cons_of_mem _ hmem)
  | .call _ arguments _, h =>
    ⟨h _ _ _ List.mem_cons_self, expressionsLinkedBy_of_calls arguments fun _ _ _ hmem =>
      h _ _ _ (List.mem_cons_of_mem _ hmem)⟩

theorem expressionsLinkedBy_of_calls : ∀ es : List Expression,
    (∀ name arguments link, .call name arguments link ∈ factorsOfExpressions es →
      link.Matches table ⟨name, arguments.length⟩) → ExpressionsLinkedBy table es
  | [], _ => trivial
  | e :: es, h =>
    ⟨e.linkedBy_of_calls fun _ _ _ hmem => h _ _ _ (List.mem_append_left _ hmem),
      expressionsLinkedBy_of_calls es fun _ _ _ hmem => h _ _ _ (List.mem_append_right _ hmem)⟩

end

/-- The link that a pass gives is as the table says, if there are no links in the bodies of the
table. -/
theorem Link.StandsFor.matches (htable : table.Plain) {key : FunctionKey} {link : Link}
    (h : link.StandsFor table pass key) : link.Matches table key := by
  induction h with
  | unlinked hkey => exact hkey
  | @linked key d body hkey hunlink _ ih =>
    exact ⟨d, hkey, rfl, hunlink.trans (htable.unlinked d (FunctionTable.mem_of_find? hkey)),
      body.linkedBy_of_calls ih⟩

/-- Linking that succeeds gives every call its definition, and changes nothing but links. -/
theorem Expression.linkedBy_of_link (htable : table.Plain) {e linked : Expression}
    (h : e.link table = (linked, none)) : linked.unlink = e.unlink ∧ linked.LinkedBy table := by
  obtain ⟨pass, hpass⟩ := exists_pass_of_link h
  obtain ⟨hunlink, hcalls⟩ := callsStand_linkTogether table (congrArg Prod.snd hpass)
  rw [hpass] at hunlink hcalls
  refine ⟨(List.cons.inj hunlink).1, linked.linkedBy_of_calls fun name arguments link hmem => ?_⟩
  exact (hcalls name arguments link (List.mem_append_left _ hmem)).matches htable

end ImplicitCurves

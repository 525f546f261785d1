import ImplicitCurves.Proofs.Tree.Inlining
import ImplicitCurves.Proofs.Tree.Recursion
import ImplicitCurves.Tree.Equation

/-!
# Detecting recursion

Linking and inlining fail exactly on calls of functions that lead to a cycle, and the error that they
give tells such a cycle: main statement `FunctionTable.recursion_detected`.  Linking looks at each
definition once and inlining once for each call, where it goes through the arguments again that were
put into the body; but those have no calls left that could be expanded.
-/

namespace ImplicitCurves

/-- What is known once calls have been looked at: none of them leads to a cycle, or there is an error
that tells a cycle and one of them leads to one. -/
def FunctionTable.Verdict (table : FunctionTable) (keys : List FunctionKey) : Option Error → Prop
  | none => ∀ key ∈ keys, table.Grounded key
  | some error => table.NamesCycle error ∧ ∃ key ∈ keys, table.LeadsToCycle key

namespace FunctionTable

variable {table : FunctionTable} {keys keys' : List FunctionKey} {failure : Option Error}

theorem verdict_nil (table : FunctionTable) : table.Verdict [] none :=
  fun _ hkey => absurd hkey List.not_mem_nil

/-- The order in which calls were looked at does not matter. -/
theorem Verdict.congr (h : table.Verdict keys failure) (hkeys : ∀ key, key ∈ keys ↔ key ∈ keys') :
    table.Verdict keys' failure := by
  cases failure with
  | none => exact fun key hkey => h key ((hkeys key).2 hkey)
  | some error =>
    obtain ⟨hnames, key, hkey, hleads⟩ := h
    exact ⟨hnames, key, (hkeys key).1 hkey, hleads⟩

/-- After a failure nothing is looked at anymore. -/
theorem Verdict.append_failed (h : table.Verdict keys failure) (hfailed : failure.isSome = true)
    (more : List FunctionKey) : table.Verdict (keys ++ more) failure := by
  cases failure with
  | none => exact absurd hfailed.symm Bool.false_ne_true.symm
  | some error =>
    obtain ⟨hnames, key, hkey, hleads⟩ := h
    exact ⟨hnames, key, List.mem_append_left _ hkey, hleads⟩

theorem Verdict.append_none (h : table.Verdict keys none) (h' : table.Verdict keys' none) :
    table.Verdict (keys ++ keys') none := by
  intro key hkey
  rcases List.mem_append.1 hkey with hkey | hkey
  · exact h key hkey
  · exact h' key hkey

theorem verdict_append_some {error : Error} {key : FunctionKey} (hnames : table.NamesCycle error)
    (hleads : table.LeadsToCycle key) (keys : List FunctionKey) :
    table.Verdict (keys ++ [key]) (some error) :=
  ⟨hnames, key, List.mem_append_right _ List.mem_cons_self, hleads⟩

/-- There is a failure if and only if a call leads to a cycle. -/
theorem Verdict.isSome_iff (h : table.Verdict keys failure) :
    failure.isSome = true ↔ ∃ key ∈ keys, table.LeadsToCycle key := by
  cases failure with
  | none =>
    constructor
    · intro hfailed
      exact absurd hfailed.symm Bool.false_ne_true.symm
    · rintro ⟨key, hkey, hleads⟩
      exact absurd hleads (h key hkey).not_leadsToCycle
  | some error => exact ⟨fun _ => h.2, fun _ => rfl⟩

end FunctionTable

section Linking

variable {table : FunctionTable} {stack keys : List FunctionKey} {resolve : Resolver}

/-- The definitions that are done do not lead to a cycle, and nor do the calls that have been looked
at, if there is no failure. -/
structure LinkState.Detects (table : FunctionTable) (keys : List FunctionKey) (s : LinkState) :
    Prop where
  done : ∀ key d, (key, d) ∈ s.done → table.Grounded key
  verdict : table.Verdict keys s.failure

/-- Looking up a definition tells whether it leads to a cycle. -/
def Resolver.Detects (table : FunctionTable) (stack : List FunctionKey) (resolve : Resolver) : Prop :=
  ∀ (key : FunctionKey) (keys : List FunctionKey) (s : LinkState), table.Admits stack key →
    s.failure = none → s.Detects table keys → (resolve key s).2.Detects table (keys ++ [key])

theorem LinkState.Detects.append_failed {s : LinkState} (h : s.Detects table keys)
    (hfailed : s.failure.isSome = true) (more : List FunctionKey) :
    s.Detects table (keys ++ more) :=
  ⟨h.done, h.verdict.append_failed hfailed more⟩

theorem LinkState.Detects.append_assoc {s : LinkState} {ks ls : List FunctionKey}
    (h : s.Detects table (keys ++ ks ++ ls)) : s.Detects table (keys ++ (ks ++ ls)) :=
  List.append_assoc keys ks ls ▸ h

mutual

/-- Linking an expression looks at the calls in it. -/
theorem Expression.detects_linkWith (hresolve : resolve.Detects table stack) (pass : Nat) :
    ∀ (e : Expression) (keys : List FunctionKey) (s : LinkState),
      (∀ key ∈ callKeys e.factors, table.Admits stack key) → s.Detects table keys →
        (e.linkWith pass resolve s).2.Detects table (keys ++ callKeys e.factors)
  | ⟨items⟩, keys, s, hadmits, hs => detects_linkItems hresolve pass items keys s hadmits hs

theorem detects_linkItems (hresolve : resolve.Detects table stack) (pass : Nat) :
    ∀ (is : List Item) (keys : List FunctionKey) (s : LinkState),
      (∀ key ∈ callKeys (factorsOfItems is), table.Admits stack key) → s.Detects table keys →
        (linkItems pass resolve is s).2.Detects table (keys ++ callKeys (factorsOfItems is))
  | [], keys, _, _, hs => (List.append_nil keys).symm ▸ hs
  | ⟨_, factors⟩ :: is, keys, s, hadmits, hs => by
    rw [factorsOfItems, Item.allFactors, callKeys_append] at hadmits ⊢
    obtain ⟨hitem, hrest⟩ := List.forall_mem_append.1 hadmits
    have hfirst := detects_linkFactors hresolve pass factors keys s hitem hs
    exact (detects_linkItems hresolve pass is _ _ hrest hfirst).append_assoc

theorem detects_linkFactors (hresolve : resolve.Detects table stack) (pass : Nat) :
    ∀ (fs : List Factor) (keys : List FunctionKey) (s : LinkState),
      (∀ key ∈ callKeys (factorsOfFactors fs), table.Admits stack key) → s.Detects table keys →
        (linkFactors pass resolve fs s).2.Detects table (keys ++ callKeys (factorsOfFactors fs))
  | [], keys, _, _, hs => (List.append_nil keys).symm ▸ hs
  | f :: fs, keys, s, hadmits, hs => by
    rw [factorsOfFactors, callKeys_append] at hadmits ⊢
    obtain ⟨hfactor, hrest⟩ := List.forall_mem_append.1 hadmits
    have hfirst := f.detects_linkWith hresolve pass keys s hfactor hs
    exact (detects_linkFactors hresolve pass fs _ _ hrest hfirst).append_assoc

theorem Factor.detects_linkWith (hresolve : resolve.Detects table stack) (pass : Nat) :
    ∀ (f : Factor) (keys : List FunctionKey) (s : LinkState),
      (∀ key ∈ callKeys f.withInner, table.Admits stack key) → s.Detects table keys →
        (f.linkWith pass resolve s).2.Detects table (keys ++ callKeys f.withInner)
  | .number _, keys, _, _, hs | .constant _, keys, _, _, hs | .variable _ _, keys, _, _, hs =>
    (List.append_nil keys).symm ▸ hs
  | .fraction a b, keys, s, hadmits, hs | .power a b, keys, s, hadmits, hs
  | .logarithm a b, keys, s, hadmits, hs => by
    have hkeys : callKeys (a.factors ++ b.factors) = callKeys a.factors ++ callKeys b.factors :=
      callKeys_append _ _
    rw [Factor.withInner, callKeys, List.filterMap_cons_none (by rfl), ← callKeys, hkeys] at hadmits ⊢
    obtain ⟨ha, hb⟩ := List.forall_mem_append.1 hadmits
    have hfirst := a.detects_linkWith hresolve pass keys s ha hs
    exact (b.detects_linkWith hresolve pass _ _ hb hfirst).append_assoc
  | .bracket a, keys, s, hadmits, hs | .unary _ a, keys, s, hadmits, hs =>
    a.detects_linkWith hresolve pass keys s hadmits hs
  | .call name arguments link, keys, s, hadmits, hs => by
    have hkeys : callKeys (Factor.call name arguments link).withInner =
        [⟨name, arguments.length⟩] ++ callKeys (factorsOfExpressions arguments) := rfl
    rw [hkeys] at hadmits ⊢
    obtain ⟨hcall, harguments⟩ := List.forall_mem_append.1 hadmits
    simp only [Factor.linkWith]
    split
    · next hfailed => exact hs.append_failed hfailed _
    · next hgoing =>
      have hfound := hresolve ⟨name, arguments.length⟩ keys s (hcall _ List.mem_cons_self)
        (Option.not_isSome_iff_eq_none.1 hgoing) hs
      split
      · next hfailed => exact (hfound.append_failed hfailed _).append_assoc
      · exact (detects_linkExpressions hresolve pass arguments _ _ harguments hfound).append_assoc

theorem detects_linkExpressions (hresolve : resolve.Detects table stack) (pass : Nat) :
    ∀ (es : List Expression) (keys : List FunctionKey) (s : LinkState),
      (∀ key ∈ callKeys (factorsOfExpressions es), table.Admits stack key) → s.Detects table keys →
        (linkExpressions pass resolve es s).2.Detects table
          (keys ++ callKeys (factorsOfExpressions es))
  | [], keys, _, _, hs => (List.append_nil keys).symm ▸ hs
  | e :: es, keys, s, hadmits, hs => by
    rw [factorsOfExpressions, callKeys_append] at hadmits ⊢
    obtain ⟨hexpression, hrest⟩ := List.forall_mem_append.1 hadmits
    have hfirst := e.detects_linkWith hresolve pass keys s hexpression hs
    exact (detects_linkExpressions hresolve pass es _ _ hrest hfirst).append_assoc

end

/-- While the depth covers the table, looking up a definition tells whether it leads to a cycle. -/
theorem FunctionTable.resolve_detects (pass : Nat) :
    ∀ (depth : Nat) (stack : List FunctionKey), table.Covers depth stack →
      Resolver.Detects table stack (table.resolve pass depth stack)
  | depth, stack, hcovers => by
    intro key keys s hadmits hgoing hs
    have hgrounded : table.Grounded key → table.Verdict (keys ++ [key]) none := by
      intro hkey
      have hkeys : table.Verdict keys none := hgoing ▸ hs.verdict
      exact hkeys.append_none (List.forall_mem_singleton.2 hkey)
    have hstart : s.Detects table [] := ⟨hs.done, hgoing.symm ▸ table.verdict_nil⟩
    have hresolves := table.resolves pass depth stack key s
    generalize table.resolve pass depth stack key s = r at hresolves ⊢
    cases hresolves with
    | @done _ d hdone =>
      exact ⟨hs.done, hgoing.symm ▸ hgrounded (hs.done key d (mem_of_lookup_eq_some hdone))⟩
    | undefined _ hkey =>
      exact ⟨hs.done, hgoing.symm ▸ hgrounded (grounded_of_find?_eq_none hkey)⟩
    | @recursive _ d _ hkey hstack =>
      have hchain : (stack ++ [key]).IsChain table.Calls :=
        hadmits.resolve_left fun hnone => Option.some_ne_none d (hkey.symm.trans hnone)
      obtain ⟨hnames, hleads⟩ := namesCycle_of_mem hcovers hchain hstack
      exact ⟨hs.done, verdict_append_some hnames hleads keys⟩
    | exhausted _ hkey hstack =>
      obtain ⟨depth, hdepth, -⟩ := hcovers.push hkey hstack
      cases hdepth
    | @failed depth d body t _ hkey hstack hbody hfailed =>
      have hdetects := d.body.detects_linkWith (resolve_detects pass depth _
        (hcovers.push_succ hkey hstack)) pass [] s (hadmits.push hkey) hstart
      rw [hbody, List.nil_append] at hdetects
      obtain ⟨error, herror⟩ := Option.isSome_iff_exists.1 hfailed
      have hverdict := hdetects.verdict
      rw [herror] at hverdict
      refine ⟨hdetects.done, ?_⟩
      rw [herror]
      exact verdict_append_some hverdict.1 (leadsToCycle_of_body hkey hverdict.2) keys
    | @linked depth d body t _ hkey hstack hbody hdone =>
      have hdetects := d.body.detects_linkWith (resolve_detects pass depth _
        (hcovers.push_succ hkey hstack)) pass [] s (hadmits.push hkey) hstart
      rw [hbody, List.nil_append] at hdetects
      have hverdict := hdetects.verdict
      rw [hdone] at hverdict
      have hkeyGrounded := grounded_of_body hkey hverdict
      refine ⟨fun key' d' hmem => ?_, hdone.symm ▸ hgrounded hkeyGrounded⟩
      rcases List.mem_cons.1 hmem with heq | hmem
      · obtain ⟨rfl, -⟩ := Prod.mk.inj heq
        exact hkeyGrounded
      · exact hdetects.done key' d' hmem

/-- A pass over expressions tells whether a call in them leads to a cycle. -/
theorem verdict_linkTogether (table : FunctionTable) (pass : Nat) (es : List Expression) :
    table.Verdict (callKeys (factorsOfExpressions es)) (linkTogether table pass es).2 :=
  (detects_linkExpressions (table.resolve_detects pass _ _ table.covers_nil) pass es [] ⟨[], none⟩
    (fun key _ => table.admits_nil key)
    ⟨fun _ _ hmem => absurd hmem List.not_mem_nil, table.verdict_nil⟩).verdict

/-- Linking expressions tells whether a call in them leads to a cycle. -/
theorem verdict_linkAll (table : FunctionTable) (es : List Expression) :
    table.Verdict (callKeys (factorsOfExpressions es)) (linkAll table es).2 := by
  obtain ⟨pass, hlink⟩ := exists_linkAll_eq table es
  rw [hlink]
  exact verdict_linkTogether table pass es

/-- Whether a pass fails does not depend on its number, so linking that succeeds has done so in the
first pass. -/
theorem linkTogether_of_linkAll {table : FunctionTable} {es : List Expression}
    (h : (linkAll table es).2 = none) : linkTogether table 0 es = linkAll table es := by
  unfold linkAll at h ⊢
  split at h
  · next linked hfirst => exact hfirst
  · next failed error hfirst =>
    have hfails := (verdict_linkTogether table 0 es).isSome_iff.1 (by rw [hfirst]; rfl)
    have hfails' :=
      (verdict_linkTogether table (lastPassOfExpressions es + 1) es).isSome_iff.2 hfails
    rw [h] at hfails'
    cases hfails'

end Linking

section Inlining

variable {table : FunctionTable} {stack keys : List FunctionKey} {expand : Expander}

/-- No function that is called has a definition. -/
def FunctionTable.Inert (table : FunctionTable) (keys : List FunctionKey) : Prop :=
  ∀ key ∈ keys, table.find? key = none

theorem FunctionTable.Inert.append (h : table.Inert keys) {keys' : List FunctionKey}
    (h' : table.Inert keys') : table.Inert (keys ++ keys') :=
  List.forall_mem_append.2 ⟨h, h'⟩

/-- What is right about the expansion of a call: there is one only of a function with a definition,
an error tells a cycle that the function leads to, and a body has nothing left to expand. -/
def Expander.Right (table : FunctionTable) (key : FunctionKey) :
    Option (Except Error Expression) → Prop
  | none => table.find? key = none
  | some (.error error) => table.NamesCycle error ∧ table.LeadsToCycle key
  | some (.ok body) => table.Grounded key ∧ table.Inert (callKeys body.factors)

/-- Expanding a call with inlined arguments tells whether the function leads to a cycle. -/
def Expander.Detects (table : FunctionTable) (stack : List FunctionKey) (expand : Expander) : Prop :=
  ∀ (key : FunctionKey) (arguments : List Expression), table.Admits stack key →
    table.Inert (callKeys (factorsOfExpressions arguments)) →
      Expander.Right table key (expand key arguments)

/-- After a stage of inlining the calls have been looked at, and if there is no failure then none is
left that could be expanded. -/
structure FunctionTable.Inlined {τ : Type} (table : FunctionTable) (keys : List FunctionKey)
    (left : τ → List FunctionKey) (s : Option Error) (r : τ × Option Error) : Prop where
  verdict : table.Verdict keys r.2
  inert : InlinesTo s r fun x => table.Inert (left x)

/-- A part without calls. -/
theorem FunctionTable.Verdict.inlined_plain {τ : Type} {left : τ → List FunctionKey}
    {s : Option Error} {x : τ} (h : table.Verdict keys s) (hleft : left x = []) :
    table.Inlined (keys ++ []) left s (x, s) where
  verdict := (List.append_nil keys).symm ▸ h
  inert hs := by
    have hinert : table.Inert (left x) := by
      rw [hleft]
      exact fun _ hkey => absurd hkey List.not_mem_nil
    exact ⟨hs, hinert⟩

theorem FunctionTable.Inlined.map {τ υ : Type} {left : τ → List FunctionKey}
    {left' : υ → List FunctionKey} {s : Option Error} {r : τ × Option Error}
    (h : table.Inlined keys left s r) {g : τ → υ} (hleft : ∀ x, left' (g x) = left x) :
    table.Inlined keys left' s (g r.1, r.2) where
  verdict := h.verdict
  inert := h.inert.map fun x hx => by rw [hleft]; exact hx

/-- A part after a part. -/
theorem FunctionTable.Inlined.pair {τ υ φ : Type} {ks ls : List FunctionKey}
    {left : τ → List FunctionKey} {left' : υ → List FunctionKey} {left'' : φ → List FunctionKey}
    {s : Option Error} {r : τ × Option Error} {r' : υ × Option Error}
    (h : table.Inlined (keys ++ ks) left s r) (h' : table.Inlined (keys ++ ks ++ ls) left' r.2 r')
    {g : τ → υ → φ} (hleft : ∀ x y, left'' (g x y) = left x ++ left' y) :
    table.Inlined (keys ++ (ks ++ ls)) left'' s (g r.1 r'.1, r'.2) where
  verdict := List.append_assoc keys ks ls ▸ h'.verdict
  inert := h.inert.pair h'.inert fun x y hx hy => by rw [hleft]; exact hx.append hy

/-- A factor with two expressions inside it. -/
theorem Factor.inlined_pair {g : Expression → Expression → Factor} {a b : Expression}
    {s : Option Error}
    (hkeys : ∀ a b, callKeys (g a b).withInner = callKeys a.factors ++ callKeys b.factors)
    (hadmits : ∀ key ∈ callKeys (g a b).withInner, table.Admits stack key)
    (hfirst : (∀ key ∈ callKeys a.factors, table.Admits stack key) →
      table.Inlined (keys ++ callKeys a.factors) (fun e => callKeys e.factors) s
        (a.inlineWith expand s))
    (hthen : ∀ s', (∀ key ∈ callKeys b.factors, table.Admits stack key) →
      table.Verdict (keys ++ callKeys a.factors) s' →
        table.Inlined (keys ++ callKeys a.factors ++ callKeys b.factors) (fun e => callKeys e.factors)
          s' (b.inlineWith expand s')) :
    table.Inlined (keys ++ callKeys (g a b).withInner) (fun f => callKeys f.withInner) s
      (g (a.inlineWith expand s).1 (b.inlineWith expand (a.inlineWith expand s).2).1,
        (b.inlineWith expand (a.inlineWith expand s).2).2) := by
  rw [hkeys] at hadmits ⊢
  obtain ⟨ha, hb⟩ := List.forall_mem_append.1 hadmits
  have ha := hfirst ha
  exact ha.pair (hthen _ hb ha.verdict) hkeys

/-- A call is looked at after its arguments. -/
theorem Factor.inlined_call (hexpand : expand.Detects table stack) {name : Char}
    {arguments : List Expression} {link : Link} {s : Option Error}
    (hadmits : ∀ key ∈ callKeys (Factor.call name arguments link).withInner, table.Admits stack key)
    (harguments : (∀ key ∈ callKeys (factorsOfExpressions arguments), table.Admits stack key) →
      table.Inlined (keys ++ callKeys (factorsOfExpressions arguments))
        (fun es => callKeys (factorsOfExpressions es)) s (inlineExpressions expand arguments s)) :
    table.Inlined (keys ++ callKeys (Factor.call name arguments link).withInner)
      (fun f => callKeys f.withInner) s ((Factor.call name arguments link).inlineWith expand s) := by
  have hkeys : callKeys (Factor.call name arguments link).withInner =
      [⟨name, arguments.length⟩] ++ callKeys (factorsOfExpressions arguments) := rfl
  have hlength := length_inlineExpressions expand arguments s
  rw [hkeys] at hadmits
  obtain ⟨hcall, hinside⟩ := List.forall_mem_append.1 hadmits
  have hadmitted := hcall _ List.mem_cons_self
  replace harguments := harguments hinside
  rcases hinlined : inlineExpressions expand arguments s with ⟨inlined, failure⟩
  rw [hinlined] at harguments hlength
  have hverdict : ∀ {failure : Option Error},
      table.Verdict (keys ++ callKeys (factorsOfExpressions arguments) ++
        [⟨name, arguments.length⟩]) failure →
        table.Verdict (keys ++ callKeys (Factor.call name arguments link).withInner) failure := by
    intro failure h
    refine h.congr fun key => ?_
    simp only [hkeys, List.mem_append, List.mem_singleton]
    tauto
  cases failure with
  | some error =>
    rw [Factor.inlineWith_call_failed hinlined]
    exact ⟨hverdict (harguments.verdict.append_failed rfl _), fun h => (by cases h)⟩
  | none =>
    obtain ⟨rfl, hinert⟩ := harguments.inert rfl
    have hright := hexpand ⟨name, inlined.length⟩ inlined (hlength.symm ▸ hadmitted) hinert
    have hgrounded : table.Grounded ⟨name, arguments.length⟩ → table.Verdict
        (keys ++ callKeys (factorsOfExpressions arguments) ++ [⟨name, arguments.length⟩]) none :=
      fun h => harguments.verdict.append_none (List.forall_mem_singleton.2 h)
    rcases hexpanded : expand ⟨name, inlined.length⟩ inlined with _ | error | body
    · rw [Factor.inlineWith_call_stays hinlined hexpanded]
      rw [hexpanded] at hright
      have hnone : table.find? ⟨name, inlined.length⟩ = none := hright
      refine ⟨hverdict (hgrounded ?_), fun _ => ⟨rfl, List.forall_mem_cons.2 ⟨hnone, hinert⟩⟩⟩
      exact FunctionTable.grounded_of_find?_eq_none (hlength ▸ hnone)
    · rw [Factor.inlineWith_call_error hinlined hexpanded]
      rw [hexpanded] at hright
      have hleads : table.LeadsToCycle ⟨name, arguments.length⟩ := hlength ▸ hright.2
      exact ⟨hverdict (FunctionTable.verdict_append_some hright.1 hleads _), fun h => (by cases h)⟩
    · rw [Factor.inlineWith_call_expanded hinlined hexpanded]
      rw [hexpanded] at hright
      exact ⟨hverdict (hgrounded (hlength ▸ hright.1)), fun _ => ⟨rfl, hright.2⟩⟩

mutual

/-- Inlining in an expression looks at the calls in it, and leaves none that could be expanded. -/
theorem Expression.inlined_inlineWith (hexpand : expand.Detects table stack) :
    ∀ (e : Expression) (keys : List FunctionKey) (s : Option Error),
      (∀ key ∈ callKeys e.factors, table.Admits stack key) → table.Verdict keys s →
        table.Inlined (keys ++ callKeys e.factors) (fun e => callKeys e.factors) s
          (e.inlineWith expand s)
  | ⟨items⟩, keys, s, hadmits, hs =>
    (inlined_inlineItems hexpand items keys s hadmits hs).map (g := Expression.mk) fun _ => rfl

theorem inlined_inlineItems (hexpand : expand.Detects table stack) :
    ∀ (is : List Item) (keys : List FunctionKey) (s : Option Error),
      (∀ key ∈ callKeys (factorsOfItems is), table.Admits stack key) → table.Verdict keys s →
        table.Inlined (keys ++ callKeys (factorsOfItems is)) (fun is => callKeys (factorsOfItems is))
          s (inlineItems expand is s)
  | [], _, _, _, hs => hs.inlined_plain rfl
  | ⟨positive, factors⟩ :: is, keys, s, hadmits, hs => by
    rw [factorsOfItems, Item.allFactors, callKeys_append] at hadmits ⊢
    obtain ⟨hitem, hrest⟩ := List.forall_mem_append.1 hadmits
    have hfirst := inlined_inlineFactors hexpand factors keys s hitem hs
    have hthen := inlined_inlineItems hexpand is _ _ hrest hfirst.verdict
    have hkeys : ∀ fs is, callKeys (factorsOfItems (⟨positive, fs⟩ :: is)) =
        callKeys (factorsOfFactors fs) ++ callKeys (factorsOfItems is) :=
      fun fs is => callKeys_append _ _
    exact hfirst.pair hthen (g := fun fs is => (⟨positive, fs⟩ : Item) :: is) hkeys

theorem inlined_inlineFactors (hexpand : expand.Detects table stack) :
    ∀ (fs : List Factor) (keys : List FunctionKey) (s : Option Error),
      (∀ key ∈ callKeys (factorsOfFactors fs), table.Admits stack key) → table.Verdict keys s →
        table.Inlined (keys ++ callKeys (factorsOfFactors fs))
          (fun fs => callKeys (factorsOfFactors fs)) s (inlineFactors expand fs s)
  | [], _, _, _, hs => hs.inlined_plain rfl
  | f :: fs, keys, s, hadmits, hs => by
    rw [factorsOfFactors, callKeys_append] at hadmits ⊢
    obtain ⟨hfactor, hrest⟩ := List.forall_mem_append.1 hadmits
    have hfirst := f.inlined_inlineWith hexpand keys s hfactor hs
    have hthen := inlined_inlineFactors hexpand fs _ _ hrest hfirst.verdict
    exact hfirst.pair hthen (g := List.cons) fun f fs => callKeys_append _ _

theorem Factor.inlined_inlineWith (hexpand : expand.Detects table stack) :
    ∀ (f : Factor) (keys : List FunctionKey) (s : Option Error),
      (∀ key ∈ callKeys f.withInner, table.Admits stack key) → table.Verdict keys s →
        table.Inlined (keys ++ callKeys f.withInner) (fun f => callKeys f.withInner) s
          (f.inlineWith expand s)
  | .number _, _, _, _, hs | .constant _, _, _, _, hs | .variable _ _, _, _, _, hs =>
    hs.inlined_plain rfl
  | .fraction a b, keys, s, hadmits, hs =>
    Factor.inlined_pair (g := Factor.fraction) (fun a b => callKeys_append a.factors b.factors) hadmits
      (fun h => a.inlined_inlineWith hexpand keys s h hs)
      fun s' h hs' => b.inlined_inlineWith hexpand _ s' h hs'
  | .power a b, keys, s, hadmits, hs =>
    Factor.inlined_pair (g := Factor.power) (fun a b => callKeys_append a.factors b.factors) hadmits
      (fun h => a.inlined_inlineWith hexpand keys s h hs)
      fun s' h hs' => b.inlined_inlineWith hexpand _ s' h hs'
  | .bracket a, keys, s, hadmits, hs =>
    (a.inlined_inlineWith hexpand keys s hadmits hs).map (g := Factor.bracket) fun _ => rfl
  | .unary f a, keys, s, hadmits, hs =>
    (a.inlined_inlineWith hexpand keys s hadmits hs).map (g := Factor.unary f) fun _ => rfl
  | .logarithm a b, keys, s, hadmits, hs =>
    Factor.inlined_pair (g := Factor.logarithm) (fun a b => callKeys_append a.factors b.factors) hadmits
      (fun h => a.inlined_inlineWith hexpand keys s h hs)
      fun s' h hs' => b.inlined_inlineWith hexpand _ s' h hs'
  | .call _ arguments _, keys, s, hadmits, hs =>
    Factor.inlined_call hexpand hadmits fun h =>
      inlined_inlineExpressions hexpand arguments keys s h hs

theorem inlined_inlineExpressions (hexpand : expand.Detects table stack) :
    ∀ (es : List Expression) (keys : List FunctionKey) (s : Option Error),
      (∀ key ∈ callKeys (factorsOfExpressions es), table.Admits stack key) → table.Verdict keys s →
        table.Inlined (keys ++ callKeys (factorsOfExpressions es))
          (fun es => callKeys (factorsOfExpressions es)) s (inlineExpressions expand es s)
  | [], _, _, _, hs => hs.inlined_plain rfl
  | e :: es, keys, s, hadmits, hs => by
    rw [factorsOfExpressions, callKeys_append] at hadmits ⊢
    obtain ⟨hexpression, hrest⟩ := List.forall_mem_append.1 hadmits
    have hfirst := e.inlined_inlineWith hexpand keys s hexpression hs
    have hthen := inlined_inlineExpressions hexpand es _ _ hrest hfirst.verdict
    exact hfirst.pair hthen (g := List.cons) fun e es => callKeys_append _ _

end

/-- The calls that take the place of a factor, apart from those in the expressions inside it. -/
def Factor.ownCalls (bindings : Bindings) : Factor → List FunctionKey
  | .variable name bound => callKeys ((Factor.variable name bound).replaced bindings).withInner
  | f => f.callKey?.toList

/-- Substitution keeps the calls of an expression and puts those of what it puts in between them. -/
theorem Expression.callKeys_replaced (bindings : Bindings) (e : Expression) :
    callKeys (e.mapFactors (Factor.replaced bindings)).factors =
      e.factors.flatMap (Factor.ownCalls bindings) := by
  rw [Factor.replaced_eq, e.factors_mapFactors (keepsInner_onVariables _), callKeys,
    List.filterMap_flatMap]
  congr 1
  funext f
  cases f with
  | call name arguments link =>
    simp [Factor.mapChildren, Factor.behind, Factor.ownCalls, Factor.callKey?, length_mapExpressions]
  | _ => rfl

theorem mem_of_lookup_bindArguments {parameters : List Char} {arguments : List Expression}
    {name : Char} {s : Substitute} (h : (bindArguments parameters arguments).lookup name = some s) :
    ∃ argument ∈ arguments, s = .expression argument := by
  have hmem := List.mem_reverse.1 (mem_of_lookup_eq_some h)
  obtain ⟨argument, hargument, rfl⟩ := List.mem_map.1 (List.of_mem_zip hmem).2
  exact ⟨argument, hargument, rfl⟩

/-- The calls in a body with arguments in place of the parameters are those of the body and, in
between, calls of the arguments. -/
theorem Expression.mem_callKeys_substitute {body : Expression} {parameters : List Char}
    {arguments : List Expression} {key : FunctionKey}
    (h : key ∈ callKeys (body.substitute (bindArguments parameters arguments)).factors) :
    key ∈ callKeys body.factors ∨ key ∈ callKeys (factorsOfExpressions arguments) := by
  rw [Expression.substitute_eq, Expression.callKeys_replaced] at h
  obtain ⟨f, hf, hkey⟩ := List.mem_flatMap.1 h
  cases f with
  | «variable» name bound =>
    rw [Factor.ownCalls, Factor.replaced] at hkey
    cases hlookup : (bindArguments parameters arguments).lookup name with
    | none =>
      rw [hlookup] at hkey
      cases hkey
    | some s =>
      obtain ⟨argument, hargument, rfl⟩ := mem_of_lookup_bindArguments hlookup
      rw [hlookup] at hkey
      obtain ⟨g, hg, hcall⟩ := List.mem_filterMap.1 hkey
      rcases List.mem_cons.1 hg with rfl | hg
      · cases hcall
      · exact .inr (List.mem_filterMap.2 ⟨g, mem_factorsOfExpressions hargument g hg, hcall⟩)
  | _ => exact .inl (List.mem_filterMap.2 ⟨_, hf, Option.mem_toList.1 hkey⟩)

theorem Expression.mem_callKeys_body {body : Expression} {key : FunctionKey}
    (h : key ∈ callKeys body.factors) (bindings : Bindings) :
    key ∈ callKeys (body.substitute bindings).factors := by
  rw [Expression.substitute_eq, Expression.callKeys_replaced]
  obtain ⟨f, hf, hcall⟩ := List.mem_filterMap.1 h
  refine List.mem_flatMap.2 ⟨f, hf, ?_⟩
  cases f with
  | call name arguments link => exact Option.mem_toList.2 hcall
  | _ => cases hcall

/-- While the depth covers the table, expanding a call tells whether the function leads to a cycle. -/
theorem FunctionTable.expand_detects :
    ∀ (depth : Nat) (stack : List FunctionKey), table.Covers depth stack →
      Expander.Detects table stack (table.expand depth stack)
  | depth, stack, hcovers => by
    intro key arguments hadmits hinert
    unfold expand
    split
    · next hkey => exact hkey
    · next d hkey =>
      have hchain : (stack ++ [key]).IsChain table.Calls :=
        hadmits.resolve_left fun hnone => Option.some_ne_none d (hkey.symm.trans hnone)
      split
      · next hstack => exact namesCycle_of_mem hcovers hchain (by simpa using hstack)
      · next hnew =>
        obtain ⟨depth, rfl, hpushed⟩ := hcovers.push hkey (by simpa using hnew)
        -- Calls of the arguments have no definition, so they may be met anywhere.
        have hbody := (d.body.substitute (bindArguments d.parameters arguments)).inlined_inlineWith
          (expand_detects depth _ hpushed) [] none (fun key' hkey' =>
            (Expression.mem_callKeys_substitute hkey').elim (hadmits.push hkey key')
              fun hargument => .inl (hinert key' hargument)) table.verdict_nil
        dsimp only
        rcases hresult : (d.body.substitute (bindArguments d.parameters arguments)).inlineWith
          (table.expand depth (stack ++ [key])) none with ⟨body, failure⟩
        rw [hresult] at hbody
        have hverdict := hbody.verdict
        rw [List.nil_append] at hverdict
        cases failure with
        | none =>
          refine ⟨grounded_of_body hkey fun key' hkey' => ?_, (hbody.inert rfl).2⟩
          exact hverdict key' (Expression.mem_callKeys_body hkey' _)
        | some error =>
          refine ⟨hverdict.1, leadsToCycle_of_body hkey ?_⟩
          obtain ⟨key', hkey', hleads⟩ := hverdict.2
          rcases Expression.mem_callKeys_substitute hkey' with hmem | hmem
          · exact ⟨key', hmem, hleads⟩
          · exact absurd hleads (grounded_of_find?_eq_none (hinert key' hmem)).not_leadsToCycle

/-- Inlining in expressions tells whether a call in them leads to a cycle. -/
theorem verdict_inlineExpressions (table : FunctionTable) (es : List Expression) :
    table.Verdict (callKeys (factorsOfExpressions es))
      (inlineExpressions (table.expand table.size []) es none).2 :=
  (inlined_inlineExpressions (table.expand_detects _ _ table.covers_nil) es [] none
    (fun key _ => table.admits_nil key) table.verdict_nil).verdict

end Inlining

section Depth

variable {table : FunctionTable}

/-- A depth that covers the table does not run out: with more of it linking does the same. -/
theorem FunctionTable.resolve_add (pass more : Nat) :
    ∀ {depth : Nat} {stack : List FunctionKey}, table.Covers depth stack →
      table.resolve pass (depth + more) stack = table.resolve pass depth stack
  | depth, stack, hcovers => by
    funext key s
    unfold resolve
    split
    · rfl
    · split
      · rfl
      · next d hkey =>
        split
        · rfl
        · next hnew =>
          obtain ⟨depth, rfl, hpushed⟩ := hcovers.push hkey (by simpa using hnew)
          have hdeeper : depth + 1 + more = (depth + more) + 1 := by omega
          rw [hdeeper]
          dsimp only
          rw [resolve_add pass more hpushed]

/-- A depth that covers the table does not run out: with more of it inlining does the same. -/
theorem FunctionTable.expand_add (more : Nat) :
    ∀ {depth : Nat} {stack : List FunctionKey}, table.Covers depth stack →
      table.expand (depth + more) stack = table.expand depth stack
  | depth, stack, hcovers => by
    funext key arguments
    unfold expand
    split
    · rfl
    · next d hkey =>
      split
      · rfl
      · next hnew =>
        obtain ⟨depth, rfl, hpushed⟩ := hcovers.push hkey (by simpa using hnew)
        have hdeeper : depth + 1 + more = (depth + more) + 1 := by omega
        rw [hdeeper]
        dsimp only
        rw [expand_add more hpushed]

end Depth

/-- A failure tells recursion exactly: there is one if and only if a function that is called leads to
a cycle, and its error tells a cycle. -/
structure FunctionTable.TellsRecursion (table : FunctionTable) (called : List FunctionKey)
    (failure : Option Error) : Prop where
  isSome_iff : failure.isSome = true ↔ ∃ key ∈ called, table.LeadsToCycle key
  namesCycle : ∀ error, failure = some error → table.NamesCycle error

theorem FunctionTable.Verdict.tellsRecursion {table : FunctionTable} {keys called : List FunctionKey}
    {failure : Option Error} (h : table.Verdict keys failure) (hcalled : ∀ key, key ∈ called ↔ key ∈ keys) :
    table.TellsRecursion called failure where
  isSome_iff := (h.congr fun key => (hcalled key).symm).isSome_iff
  namesCycle error herror := by
    rw [herror] at h
    exact h.1

theorem Expression.mem_functions_iff_singleton {e : Expression} {key : FunctionKey} :
    key ∈ e.functions ↔ key ∈ callKeys (factorsOfExpressions [e]) := by
  rw [Expression.mem_functions, factorsOfExpressions, factorsOfExpressions, List.append_nil]

theorem Equation.mem_functions {eq : Equation} {key : FunctionKey} :
    key ∈ eq.functions ↔ key ∈ callKeys (factorsOfExpressions [eq.lhs, eq.rhs]) := by
  rw [Equation.functions, mem_addAllNew_iff, Expression.mem_functions, Expression.mem_functions]
  simp [factorsOfExpressions]

/-- Linking an expression tells recursion. -/
theorem Expression.tellsRecursion_link (table : FunctionTable) (e : Expression) :
    table.TellsRecursion e.functions (e.link table).2 := by
  have hfailure : (e.link table).2 = (linkAll table [e]).2 := by
    unfold Expression.link
    split <;> next h => rw [h]
  rw [hfailure]
  exact (verdict_linkAll table [e]).tellsRecursion fun _ => Expression.mem_functions_iff_singleton

/-- Inlining in an expression tells recursion. -/
theorem Expression.tellsRecursion_inline (table : FunctionTable) (e : Expression) :
    table.TellsRecursion e.functions (e.inline table).2 :=
  (verdict_inlineExpressions table [e]).tellsRecursion
    fun _ => Expression.mem_functions_iff_singleton

/-- Linking an equation tells recursion on either side. -/
theorem Equation.tellsRecursion_link (table : FunctionTable) (eq : Equation) :
    table.TellsRecursion eq.functions (eq.link table).2 := by
  have hfailure : (eq.link table).2 = (linkAll table [eq.lhs, eq.rhs]).2 := by
    unfold Equation.link
    split <;> next h => rw [h]
  rw [hfailure]
  exact (verdict_linkAll table _).tellsRecursion fun _ => Equation.mem_functions

/-- Inlining in an equation tells recursion on either side. -/
theorem Equation.tellsRecursion_inline (table : FunctionTable) (eq : Equation) :
    table.TellsRecursion eq.functions (eq.inline table).2 := by
  have hfailure : (eq.inline table).2 =
      (inlineExpressions (table.expand table.size []) [eq.lhs, eq.rhs] none).2 := by
    unfold Equation.inline
    split <;> next h => rw [h]
  rw [hfailure]
  exact (verdict_inlineExpressions table _).tellsRecursion fun _ => Equation.mem_functions

theorem FunctionTable.TellsRecursion.isSome_eq {table : FunctionTable} {called : List FunctionKey}
    {failure failure' : Option Error} (h : table.TellsRecursion called failure)
    (h' : table.TellsRecursion called failure') : failure.isSome = failure'.isSome :=
  Bool.eq_iff_iff.2 (h.isSome_iff.trans h'.isSome_iff.symm)

/-- For every table and every expression or equation, linking and inlining fail if and only if a
function that is called, at any place, leads to a function that can reach itself, so they fail on the
same inputs; the error then tells a cycle of calls.  The depth that they are given never runs out. -/
theorem FunctionTable.recursion_detected (table : FunctionTable) :
    (∀ e : Expression, table.TellsRecursion e.functions (e.link table).2 ∧
      table.TellsRecursion e.functions (e.inline table).2 ∧
      (e.link table).2.isSome = (e.inline table).2.isSome) ∧
    (∀ eq : Equation, table.TellsRecursion eq.functions (eq.link table).2 ∧
      table.TellsRecursion eq.functions (eq.inline table).2 ∧
      (eq.link table).2.isSome = (eq.inline table).2.isSome) ∧
    ∀ more, (∀ pass, table.resolve pass (table.size + more) [] = table.resolve pass table.size []) ∧
      table.expand (table.size + more) [] = table.expand table.size [] := by
  refine ⟨fun e => ?_, fun eq => ?_, fun more => ⟨fun pass => ?_, ?_⟩⟩
  · have hlink := e.tellsRecursion_link table
    have hinline := e.tellsRecursion_inline table
    exact ⟨hlink, hinline, hlink.isSome_eq hinline⟩
  · have hlink := eq.tellsRecursion_link table
    have hinline := eq.tellsRecursion_inline table
    exact ⟨hlink, hinline, hlink.isSome_eq hinline⟩
  · exact table.resolve_add pass more table.covers_nil
  · exact table.expand_add more table.covers_nil

end ImplicitCurves

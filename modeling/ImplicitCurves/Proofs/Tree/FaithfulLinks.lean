import ImplicitCurves.Proofs.Tree.Detection
import ImplicitCurves.Proofs.Tree.FittingCalls

/-!
# Faithful links

Linking that succeeds reaches every call, links it to what the table says and to nothing else, and can
be repeated: main statement `FunctionTable.link_faithful`.  The link that a pass gives to a call is
determined by the key of the call alone, so calls share their definitions, and a second pass finds
every link as it is.
-/

namespace ImplicitCurves

/-! ### Trees that are the same but for links -/

/-- Calls of the first factors and of the second ones have the same link if they have the same key. -/
def SameLinks (fs gs : List Factor) : Prop :=
  ∀ name arguments link arguments' link', .call name arguments link ∈ fs →
    .call name arguments' link' ∈ gs → arguments.length = arguments'.length → link = link'

theorem SameLinks.mono {fs fs' gs gs' : List Factor} (h : SameLinks fs gs) (hfs : fs' ⊆ fs)
    (hgs : gs' ⊆ gs) : SameLinks fs' gs' :=
  fun name arguments link arguments' link' hmem hmem' =>
    h name arguments link arguments' link' (hfs hmem) (hgs hmem')

theorem SameLinks.left {fs fs' gs gs' : List Factor} (h : SameLinks (fs ++ fs') (gs ++ gs')) :
    SameLinks fs gs :=
  h.mono (List.subset_append_left _ _) (List.subset_append_left _ _)

theorem SameLinks.right {fs fs' gs gs' : List Factor} (h : SameLinks (fs ++ fs') (gs ++ gs')) :
    SameLinks fs' gs' :=
  h.mono (List.subset_append_right _ _) (List.subset_append_right _ _)

theorem SameLinks.tail {f g : Factor} {fs gs : List Factor} (h : SameLinks (f :: fs) (g :: gs)) :
    SameLinks fs gs :=
  h.mono (List.subset_cons_self _ _) (List.subset_cons_self _ _)

mutual

/-- Trees that are the same but for links are the same if their calls have the same links. -/
theorem Expression.eq_of_unlink : ∀ e e' : Expression, e.unlink = e'.unlink →
    SameLinks e.factors e'.factors → e = e'
  | ⟨items⟩, ⟨items'⟩, h, hsame =>
    congrArg Expression.mk (items_eq_of_unlink items items' (Expression.mk.inj h) hsame)

theorem items_eq_of_unlink : ∀ is js : List Item,
    mapItems Factor.withoutLink is = mapItems Factor.withoutLink js →
      SameLinks (factorsOfItems is) (factorsOfItems js) → is = js
  | [], [], _, _ => rfl
  | ⟨positive, factors⟩ :: is, ⟨positive', factors'⟩ :: js, h, hsame => by
    obtain ⟨hitem, hrest⟩ := List.cons.inj h
    obtain ⟨rfl, hfactors⟩ := Item.mk.inj hitem
    rw [factors_eq_of_unlink factors factors' hfactors hsame.left,
      items_eq_of_unlink is js hrest hsame.right]

theorem factors_eq_of_unlink : ∀ fs gs : List Factor,
    mapFactorList Factor.withoutLink fs = mapFactorList Factor.withoutLink gs →
      SameLinks (factorsOfFactors fs) (factorsOfFactors gs) → fs = gs
  | [], [], _, _ => rfl
  | f :: fs, g :: gs, h, hsame => by
    obtain ⟨hfactor, hrest⟩ := List.cons.inj h
    rw [f.eq_of_unlink g hfactor hsame.left, factors_eq_of_unlink fs gs hrest hsame.right]

theorem Factor.eq_of_unlink : ∀ f g : Factor,
    f.mapInner Factor.withoutLink = g.mapInner Factor.withoutLink →
      SameLinks f.withInner g.withInner → f = g
  | .number x, g, h, _ => by cases g <;> first | exact h | cases h
  | .constant c, g, h, _ => by cases g <;> first | exact h | cases h
  | .variable name bound, g, h, _ => by cases g <;> first | exact h | cases h
  | .fraction a b, g, h, hsame => by
    cases g with
    | fraction c d =>
      obtain ⟨ha, hb⟩ := Factor.fraction.inj h
      rw [a.eq_of_unlink c ha hsame.tail.left, b.eq_of_unlink d hb hsame.tail.right]
    | _ => cases h
  | .power a b, g, h, hsame => by
    cases g with
    | power c d =>
      obtain ⟨ha, hb⟩ := Factor.power.inj h
      rw [a.eq_of_unlink c ha hsame.tail.left, b.eq_of_unlink d hb hsame.tail.right]
    | _ => cases h
  | .bracket a, g, h, hsame => by
    cases g with
    | bracket b => rw [a.eq_of_unlink b (Factor.bracket.inj h) hsame.tail]
    | _ => cases h
  | .unary f a, g, h, hsame => by
    cases g with
    | unary f' b =>
      obtain ⟨rfl, ha⟩ := Factor.unary.inj h
      rw [a.eq_of_unlink b ha hsame.tail]
    | _ => cases h
  | .logarithm a b, g, h, hsame => by
    cases g with
    | logarithm c d =>
      obtain ⟨ha, hb⟩ := Factor.logarithm.inj h
      rw [a.eq_of_unlink c ha hsame.tail.left, b.eq_of_unlink d hb hsame.tail.right]
    | _ => cases h
  | .call name arguments link, g, h, hsame => by
    cases g with
    | call name' arguments' link' =>
      obtain ⟨rfl, harguments, -⟩ := Factor.call.inj h
      obtain rfl := expressions_eq_of_unlink arguments arguments' harguments hsame.tail
      rw [hsame name arguments link arguments link' List.mem_cons_self List.mem_cons_self rfl]
    | _ => cases h

theorem expressions_eq_of_unlink : ∀ es es' : List Expression,
    mapExpressions Factor.withoutLink es = mapExpressions Factor.withoutLink es' →
      SameLinks (factorsOfExpressions es) (factorsOfExpressions es') → es = es'
  | [], [], _, _ => rfl
  | e :: es, e' :: es', h, hsame => by
    obtain ⟨hfirst, hrest⟩ := List.cons.inj h
    rw [e.eq_of_unlink e' hfirst hsame.left, expressions_eq_of_unlink es es' hrest hsame.right]

end

/-! ### The link of a key -/

section Keys

variable {table : FunctionTable} {pass : Nat} {key : FunctionKey} {link link' : Link}
  {factors factors' : List Factor}

/-- A pass gives all calls with a key the same link. -/
theorem Link.StandsFor.eq (h : link.StandsFor table pass key) (h' : link'.StandsFor table pass key) :
    link = link' := by
  induction h generalizing link' with
  | unlinked hnone =>
    cases h' with
    | unlinked _ => rfl
    | linked hkey => cases hnone.symm.trans hkey
  | @linked key d body hkey hunlink _ ih =>
    cases h' with
    | unlinked hnone => cases hnone.symm.trans hkey
    | @linked _ d' body' hkey' hunlink' hcalls' =>
      obtain rfl := Option.some.inj (hkey.symm.trans hkey')
      have hsame : SameLinks body.factors body'.factors := by
        intro name arguments inner arguments' inner' hmem hmem' hlength
        apply ih name arguments inner hmem
        rw [hlength]
        exact hcalls' name arguments' inner' hmem'
      rw [body.eq_of_unlink body' (hunlink.trans hunlink'.symm) hsame]

theorem CallsStand.sameLinks (h : CallsStand table pass factors)
    (h' : CallsStand table pass factors') : SameLinks factors factors' := by
  intro name arguments link arguments' link' hmem hmem' hlength
  have hstands' := h' name arguments' link' hmem'
  rw [← hlength] at hstands'
  exact (h name arguments link hmem).eq hstands'

/-- A call with a key and a link is one of the factors, or in the body of a definition that such a
call is linked to. -/
inductive Reaches (factors : List Factor) : FunctionKey → Link → Prop
  | here {name : Char} {arguments : List Expression} {link : Link} :
    .call name arguments link ∈ factors → Reaches factors ⟨name, arguments.length⟩ link
  | inside {key : FunctionKey} {pass : Nat} {d : FunctionDefinition} {name : Char}
      {arguments : List Expression} {link : Link} :
    Reaches factors key (.linked pass d) → .call name arguments link ∈ d.body.factors →
      Reaches factors ⟨name, arguments.length⟩ link

theorem CallsStand.of_reaches (h : CallsStand table pass factors) (hreaches : Reaches factors key link) :
    link.StandsFor table pass key := by
  induction hreaches with
  | here hmem => exact h _ _ _ hmem
  | inside _ hmem ih =>
    cases ih with
    | linked _ _ hcalls => exact hcalls _ _ _ hmem

/-- All calls that are reached from some factors are linked as a table says: they are linked just if
the table has their key; the definition is that of the table, with a body that is the same but for
links; and calls with the same key share their definition. -/
structure FunctionTable.Links (table : FunctionTable) (factors : List Factor) : Prop where
  linked_iff : ∀ key link, Reaches factors key link → (link ≠ .unlinked ↔ table.contains key = true)
  definition : ∀ key pass d, Reaches factors key (.linked pass d) → ∃ entry,
    table.find? key = some entry ∧ d.name = entry.name ∧ d.parameters = entry.parameters ∧
      d.globals = entry.globals ∧ d.body.unlink = entry.body.unlink
  shared : ∀ key pass d pass' d', Reaches factors key (.linked pass d) →
    Reaches factors key (.linked pass' d') → d = d'

theorem CallsStand.links (h : CallsStand table pass factors) : table.Links factors where
  linked_iff key link hreaches := by
    cases h.of_reaches hreaches with
    | unlinked hnone => simp [Directory.contains, hnone]
    | linked hkey => simp [Directory.contains, hkey]
  definition key pass d hreaches := by
    cases h.of_reaches hreaches with
    | linked hkey hunlink => exact ⟨_, hkey, rfl, rfl, rfl, hunlink⟩
  shared key pass d pass' d' hreaches hreaches' := by
    have heq := (h.of_reaches hreaches).eq (h.of_reaches hreaches')
    exact (Link.linked.inj heq).2

end Keys

/-! ### Keys of calls -/

theorem keepsInner_withoutLink : KeepsInner Factor.withoutLink fun f => [f.withoutLink] := by
  intro f
  cases f <;> rfl

section Reading

variable {β : Type} {read : Factor → Option β}

/-- What is read off from factors without looking at links stays the same when links are removed. -/
theorem filterMap_withoutLink
    (hread : ∀ f, read (f.mapChildren Factor.withoutLink).withoutLink = read f)
    (es : List Expression) :
    (factorsOfExpressions (mapExpressions Factor.withoutLink es)).filterMap read =
      (factorsOfExpressions es).filterMap read := by
  rw [factorsOfExpressions_mapExpressions keepsInner_withoutLink, List.filterMap_flatMap,
    List.filterMap_eq_flatMap_toList]
  congr 1
  funext f
  rw [List.filterMap_cons, List.filterMap_nil, hread]
  cases read f <;> rfl

theorem Expression.filterMap_congr
    (hread : ∀ f, read (f.mapChildren Factor.withoutLink).withoutLink = read f)
    {e e' : Expression} (h : e.unlink = e'.unlink) :
    e.factors.filterMap read = e'.factors.filterMap read := by
  have hleft := filterMap_withoutLink hread [e]
  have hright := filterMap_withoutLink hread [e']
  have hsame : mapExpressions Factor.withoutLink [e] = mapExpressions Factor.withoutLink [e'] :=
    congrArg (fun e => [e]) h
  rw [hsame, hright] at hleft
  simpa [factorsOfExpressions] using hleft.symm

end Reading

theorem callKey?_withoutLink (f : Factor) :
    (f.mapChildren Factor.withoutLink).withoutLink.callKey? = f.callKey? := by
  cases f <;> simp [Factor.mapChildren, Factor.withoutLink, Factor.callKey?, length_mapExpressions]

/-- Removing links keeps the keys of calls. -/
theorem callKeys_withoutLink (es : List Expression) :
    callKeys (factorsOfExpressions (mapExpressions Factor.withoutLink es)) =
      callKeys (factorsOfExpressions es) :=
  filterMap_withoutLink callKey?_withoutLink es

theorem Expression.callKeys_congr {e e' : Expression} (h : e.unlink = e'.unlink) :
    callKeys e.factors = callKeys e'.factors :=
  filterMap_congr callKey?_withoutLink h

/-! ### Complete links -/

/-- The factor is not a call without a link, nor one whose definition has such a call in its body. -/
def Factor.ownLinkComplete : Factor → Bool
  | .call _ _ link => link.isComplete
  | _ => true

mutual

/-- The calls of a tree are looked at one by one. -/
theorem Expression.linkComplete_eq : ∀ e : Expression,
    e.linkComplete = e.factors.all Factor.ownLinkComplete
  | ⟨items⟩ => linkCompleteItems_eq items

theorem linkCompleteItems_eq : ∀ is : List Item,
    linkCompleteItems is = (factorsOfItems is).all Factor.ownLinkComplete
  | [] => rfl
  | ⟨_, factors⟩ :: is => by
    rw [linkCompleteItems, Item.linkComplete, factorsOfItems, Item.allFactors, List.all_append,
      linkCompleteFactors_eq factors, linkCompleteItems_eq is]

theorem linkCompleteFactors_eq : ∀ fs : List Factor,
    linkCompleteFactors fs = (factorsOfFactors fs).all Factor.ownLinkComplete
  | [] => rfl
  | f :: fs => by
    rw [linkCompleteFactors, factorsOfFactors, List.all_append, f.linkComplete_eq,
      linkCompleteFactors_eq fs]

theorem Factor.linkComplete_eq : ∀ f : Factor,
    f.linkComplete = f.withInner.all Factor.ownLinkComplete
  | .number _ | .constant _ | .variable _ _ => rfl
  | .fraction a b | .power a b | .logarithm a b => by
    rw [Factor.linkComplete, Factor.withInner, List.all_cons, List.all_append, a.linkComplete_eq,
      b.linkComplete_eq]
    rfl
  | .bracket a | .unary _ a => by
    rw [Factor.linkComplete, Factor.withInner, List.all_cons, a.linkComplete_eq]
    rfl
  | .call _ arguments link => by
    rw [Factor.linkComplete, Factor.withInner, List.all_cons,
      linkCompleteExpressions_eq arguments]
    rfl

theorem linkCompleteExpressions_eq : ∀ es : List Expression,
    linkCompleteExpressions es = (factorsOfExpressions es).all Factor.ownLinkComplete
  | [] => rfl
  | e :: es => by
    rw [linkCompleteExpressions, factorsOfExpressions, List.all_append, e.linkComplete_eq,
      linkCompleteExpressions_eq es]

end

/-- If a property of keys tells which links are complete, then a tree is complete just if the keys of
its calls have it. -/
theorem all_ownLinkComplete_iff {factors : List Factor} {good : FunctionKey → Prop}
    (h : ∀ name arguments link, .call name arguments link ∈ factors →
      (link.isComplete = true ↔ good ⟨name, arguments.length⟩)) :
    factors.all Factor.ownLinkComplete = true ↔ ∀ key ∈ callKeys factors, good key := by
  rw [List.all_eq_true]
  constructor
  · intro hall key hkey
    obtain ⟨f, hf, hcall⟩ := List.mem_filterMap.1 hkey
    cases f with
    | call name arguments link =>
      obtain rfl := Option.some.inj hcall
      exact (h name arguments link hf).1 (hall _ hf)
    | _ => cases hcall
  · intro hgood f hf
    cases f with
    | call name arguments link =>
      exact (h name arguments link hf).2 (hgood _ (List.mem_filterMap.2 ⟨_, hf, rfl⟩))
    | _ => rfl

/-- A table has a key and all keys that are reached from it through the bodies of the table. -/
def FunctionTable.Provides (table : FunctionTable) (key : FunctionKey) : Prop :=
  ∀ key', Relation.ReflTransGen table.Calls key key' → table.contains key' = true

/-- A key is provided for if the table has it and provides for the calls in its body. -/
theorem FunctionTable.provides_iff {table : FunctionTable} {key : FunctionKey} {d : FunctionDefinition}
    (hkey : table.find? key = some d) :
    table.Provides key ↔ ∀ key' ∈ callKeys d.body.factors, table.Provides key' := by
  constructor
  · intro h key' hmem last hpath
    exact h last (.head ⟨d, hkey, Expression.mem_functions.2 hmem⟩ hpath)
  · intro h last hpath
    rcases Relation.ReflTransGen.cases_head hpath with rfl | ⟨next, hcalls, hrest⟩
    · rw [Directory.contains, hkey]
      rfl
    · obtain ⟨d', hd', hmem⟩ := hcalls
      obtain rfl := Option.some.inj (hkey.symm.trans hd')
      exact h next (Expression.mem_functions.1 hmem) last hrest

/-- The link that a pass gives to a call is complete just if the table provides for its key. -/
theorem Link.StandsFor.isComplete_iff {table : FunctionTable} {pass : Nat} {key : FunctionKey}
    {link : Link} (h : link.StandsFor table pass key) :
    link.isComplete = true ↔ table.Provides key := by
  induction h with
  | @unlinked key hnone =>
    constructor
    · intro hno
      cases hno
    · intro hprovides
      have hself := hprovides key .refl
      rw [Directory.contains, hnone] at hself
      cases hself
  | @linked key d body hkey hunlink _ ih =>
    have hbody : (Link.linked pass { d with body }).isComplete =
        body.factors.all Factor.ownLinkComplete := body.linkComplete_eq
    rw [hbody, all_ownLinkComplete_iff ih, FunctionTable.provides_iff hkey,
      Expression.callKeys_congr hunlink]

theorem CallsStand.all_ownLinkComplete_iff {table : FunctionTable} {pass : Nat}
    {factors : List Factor} (h : CallsStand table pass factors) :
    factors.all Factor.ownLinkComplete = true ↔ ∀ key ∈ callKeys factors, table.Provides key :=
  ImplicitCurves.all_ownLinkComplete_iff fun name arguments link hmem =>
    (h name arguments link hmem).isComplete_iff

/-! ### Linking -/

section Linking

variable {table : FunctionTable} {es : List Expression}

/-- Linking that succeeds changes nothing but links, and gives every call the link of its key. -/
theorem callsStand_linkAll (h : (linkAll table es).2 = none) :
    mapExpressions Factor.withoutLink (linkAll table es).1 = mapExpressions Factor.withoutLink es ∧
      CallsStand table 0 (factorsOfExpressions (linkAll table es).1) := by
  have hfirst := linkTogether_of_linkAll h
  have hcalls := callsStand_linkTogether table (hfirst ▸ h)
  rwa [hfirst] at hcalls

theorem callKeys_linkAll (h : (linkAll table es).2 = none) :
    callKeys (factorsOfExpressions (linkAll table es).1) = callKeys (factorsOfExpressions es) := by
  rw [← callKeys_withoutLink, (callsStand_linkAll h).1, callKeys_withoutLink]

/-- A second pass finds what the first one made, and leaves it as it is. -/
theorem linkAll_again (h : (linkAll table es).2 = none) :
    linkAll table (linkAll table es).1 = ((linkAll table es).1, none) := by
  -- both passes look at the same keys, so the second one does not fail either
  have hagain : (linkAll table (linkAll table es).1).2 = none := by
    have hverdict := verdict_linkAll table es
    have hverdict' := verdict_linkAll table (linkAll table es).1
    rw [callKeys_linkAll h] at hverdict'
    rw [← Option.not_isSome_iff_eq_none, hverdict'.isSome_iff, ← hverdict.isSome_iff, h]
    exact Bool.false_ne_true
  obtain ⟨-, hcalls⟩ := callsStand_linkAll h
  obtain ⟨hunlink', hcalls'⟩ := callsStand_linkAll hagain
  exact Prod.ext (expressions_eq_of_unlink _ _ hunlink' (hcalls'.sameLinks hcalls)) hagain

end Linking

section Results

variable {table : FunctionTable}

theorem Expression.linked_eq_ok_iff {e linked : Expression} :
    e.linked table = .ok linked ↔ e.link table = (linked, none) := by
  unfold Expression.linked
  split
  · next hlink => rw [hlink]; simp
  · next hlink => rw [hlink]; simp

theorem Equation.linked_eq_ok_iff {eq linked : Equation} :
    eq.linked table = .ok linked ↔ eq.link table = (linked, none) := by
  unfold Equation.linked
  split
  · next hlink => rw [hlink]; simp
  · next hlink => rw [hlink]; simp

/-- A linked expression is the same but for links, and its calls have the links of one pass. -/
theorem Expression.callsStand_of_linked {e linked : Expression} (h : e.linked table = .ok linked) :
    linked.unlink = e.unlink ∧ CallsStand table 0 linked.factors := by
  have hlink := e.linkAll_singleton table
  rw [Expression.linked_eq_ok_iff.1 h] at hlink
  obtain ⟨hunlink, hcalls⟩ := callsStand_linkAll (congrArg Prod.snd hlink)
  rw [hlink] at hunlink hcalls
  exact ⟨(List.cons.inj hunlink).1, by simpa [factorsOfExpressions] using hcalls⟩

/-- After linking, the calls of an equation have the links of one pass. -/
theorem Equation.callsStand_of_linked {eq linked : Equation} (h : eq.linked table = .ok linked) :
    CallsStand table 0 (linked.lhs.factors ++ linked.rhs.factors) := by
  have hsides := (eq.linkAll_sides table).1
  rw [Equation.linked_eq_ok_iff.1 h] at hsides
  have hcalls := (callsStand_linkAll (congrArg Prod.snd hsides)).2
  rw [hsides] at hcalls
  simpa [factorsOfExpressions] using hcalls

/-- An equation that cannot be linked fails with an error that tells a cycle of calls. -/
theorem Equation.namesCycle_of_linked {eq : Equation} {error : Error}
    (h : eq.linked table = .error error) : table.NamesCycle error := by
  refine (eq.tellsRecursion_link table).namesCycle error ?_
  unfold Equation.linked at h
  split at h
  · cases h
  · next hlink =>
    rw [hlink, Except.error.inj h]

end Results

theorem Equation.eq_of_parts {eq eq' : Equation} (hlhs : eq.lhs = eq'.lhs) (hrhs : eq.rhs = eq'.rhs)
    (hformed : eq.formed = eq'.formed) : eq = eq' := by
  cases eq
  cases eq'
  simp only [Equation.mk.injEq]
  exact ⟨hlhs, hrhs, hformed⟩

/-- If the calls of an equation have the links that a pass gives them, then they are all linked just if
the table provides for each of them. -/
theorem Equation.linkComplete_iff_of_callsStand {table : FunctionTable} {pass : Nat} {eq : Equation}
    (h : CallsStand table pass (eq.lhs.factors ++ eq.rhs.factors)) :
    eq.linkComplete = true ↔ ∀ key ∈ eq.functions, table.Provides key := by
  have hcomplete : eq.linkComplete =
      (eq.lhs.factors ++ eq.rhs.factors).all Factor.ownLinkComplete := by
    rw [Equation.linkComplete, Expression.linkComplete_eq, Expression.linkComplete_eq,
      List.all_append]
  rw [hcomplete, h.all_ownLinkComplete_iff]
  simp [Equation.mem_functions, factorsOfExpressions]

/-- Linking that succeeds links all calls as the table says, also those in the bodies of definitions,
whatever links there were before; it changes nothing but links, and nothing at all if it is repeated;
and all links are there just if the table has every key that is reached. -/
theorem FunctionTable.link_faithful (table : FunctionTable) :
    (∀ e : Expression, (e.link table).2 = none →
      table.Links (e.link table).1.factors ∧ (e.link table).1.unlink = e.unlink ∧
        (e.link table).1.link table = ((e.link table).1, none) ∧
        ((e.link table).1.linkComplete = true ↔ ∀ key ∈ e.functions, table.Provides key)) ∧
    ∀ eq : Equation, (eq.link table).2 = none →
      table.Links ((eq.link table).1.lhs.factors ++ (eq.link table).1.rhs.factors) ∧
        (eq.link table).1.unlink = eq.unlink ∧
        (eq.link table).1.link table = ((eq.link table).1, none) ∧
        ((eq.link table).1.linkComplete = true ↔ ∀ key ∈ eq.functions, table.Provides key) := by
  constructor
  · intro e h
    have hsingle := e.linkAll_singleton table
    have hnone : (linkAll table [e]).2 = none := by rw [hsingle, h]
    obtain ⟨hunlink, hcalls⟩ := callsStand_linkAll hnone
    have hkeys := callKeys_linkAll hnone
    have hagain := linkAll_again hnone
    rw [hsingle] at hunlink hcalls hkeys hagain
    simp only [factorsOfExpressions, List.append_nil] at hcalls hkeys
    refine ⟨hcalls.links, (List.cons.inj hunlink).1, ?_, ?_⟩
    · rw [Expression.linkAll_singleton] at hagain
      obtain ⟨hlist, hfailure⟩ := Prod.mk.inj hagain
      exact Prod.ext (List.singleton_inj.1 hlist) hfailure
    · rw [Expression.linkComplete_eq, hcalls.all_ownLinkComplete_iff, hkeys]
      simp only [Expression.mem_functions]
  · intro eq h
    obtain ⟨hsides, hformed⟩ := eq.linkAll_sides table
    have hnone : (linkAll table [eq.lhs, eq.rhs]).2 = none := by rw [hsides, h]
    obtain ⟨hunlink, hcalls⟩ := callsStand_linkAll hnone
    have hkeys := callKeys_linkAll hnone
    have hagain := linkAll_again hnone
    rw [hsides] at hunlink hcalls hkeys hagain
    simp only [factorsOfExpressions, List.append_nil] at hcalls hkeys
    obtain ⟨hlhs, hrest⟩ := List.cons.inj hunlink
    have hrhs := (List.cons.inj hrest).1
    refine ⟨hcalls.links, ?_, ?_, ?_⟩
    · exact Equation.eq_of_parts hlhs hrhs hformed
    · obtain ⟨hsides', hformed'⟩ := (eq.link table).1.linkAll_sides table
      rw [hsides'] at hagain
      obtain ⟨hlist, hfailure⟩ := Prod.mk.inj hagain
      obtain ⟨hlhs', hrest'⟩ := List.cons.inj hlist
      exact Prod.ext (Equation.eq_of_parts hlhs' (List.cons.inj hrest').1 hformed') hfailure
    · rw [Equation.linkComplete_iff_of_callsStand hcalls]
      simp only [Equation.mem_functions, factorsOfExpressions, List.append_nil, hkeys]

/-- Links of an earlier pass, in the tree and in the table, to a definition that the table does not
have: the call of `g` gets the link of the table, and that of `h` is left without one. -/
theorem FunctionTable.link_faithful_earlierLinks :
    let x : Expression := .ofFactor (.variable 'x' none)
    let old : Link := .linked 3 ⟨'k', ['x'], .ofNumber 7, []⟩
    let g : FunctionDefinition := ⟨'g', ['x'], x, []⟩
    let f : FunctionDefinition := ⟨'f', ['x'], .ofFactor (.call 'g' [x] old), []⟩
    let table : FunctionTable := ⟨[f, g], by decide⟩
    let e : Expression := ⟨[⟨true, [.call 'f' [x] old, .call 'h' [x] old]⟩]⟩
    let eq : Equation := .between (.ofFactor (.call 'f' [x] old)) (.ofFactor (.call 'g' [x] .unlinked))
    table.Links (e.link table).1.factors ∧ (e.link table).1.unlink = e.unlink ∧
      (e.link table).1.link table = ((e.link table).1, none) ∧
      (e.link table).1.linkComplete = false ∧
      (eq.link table).1.link table = ((eq.link table).1, none) ∧
      ∀ key ∈ eq.functions, table.Provides key := by
  intro x old g f table e eq
  have hlink : (e.link table).2 = none := by decide +kernel
  have hlinkSides : (eq.link table).2 = none := by decide +kernel
  have hcomplete : (eq.link table).1.linkComplete = true := by decide +kernel
  obtain ⟨hlinks, hunlink, hagain, hiff⟩ := table.link_faithful.1 e hlink
  obtain ⟨-, -, hagainSides, hiffSides⟩ := table.link_faithful.2 eq hlinkSides
  refine ⟨hlinks, hunlink, hagain, ?_, hagainSides, hiffSides.1 hcomplete⟩
  rw [Bool.eq_false_iff, ne_eq, hiff]
  intro hprovides
  have hmissing := hprovides ⟨'h', 1⟩ (by decide +kernel) _ .refl
  exact absurd hmissing (by decide +kernel)

end ImplicitCurves

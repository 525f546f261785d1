import ImplicitCurves.Parser.Expression
import ImplicitCurves.Proofs.Notation.Kinds

/-!
# Nesting of groups

How deep the groups are nested behind tokens, and what looks for a delimiter or a separator at depth
zero does with tokens that it passes.
-/

namespace ImplicitCurves

/-- The depth behind a token, given the depth in front of it.  There is none if a group is closed
that was not opened, or if the token stands outside of all groups and is not allowed there. -/
def depthStep (allowed : TokenKind → Bool) (depth : Nat) (k : TokenKind) : Option Nat :=
  if k.isOpen then some (depth + 1)
  else if k.isClose then
    match depth with
    | 0 => none
    | depth + 1 => some depth
  else if depth = 0 ∧ allowed k = false then none
  else some depth

/-- The depth behind tokens, given the depth in front of them. -/
def depthBehind (allowed : TokenKind → Bool) (depth : Nat) (ks : List TokenKind) : Option Nat :=
  ks.foldlM (depthStep allowed) depth

/-- The groups of the tokens are closed in turn, and the tokens outside of them are allowed. -/
def Level (allowed : TokenKind → Bool) (ks : List TokenKind) : Prop :=
  depthBehind allowed 0 ks = some 0

/-- What opens a group opens one, and what closes it only closes one. -/
theorem TokenKind.delimiters_of_closer {o c : TokenKind} (h : o.closer = some c) :
    o.isOpen = true ∧ c.isOpen = false ∧ c.isClose = true := by
  cases o with
  | openParen | openCurly =>
    obtain rfl := Option.some.inj h
    exact ⟨rfl, rfl, rfl⟩
  | _ => cases h

section Depth

variable {allowed allowed' : TokenKind → Bool} {depth depth' : Nat} {ks ks' : List TokenKind}

theorem depthBehind_append : depthBehind allowed depth (ks ++ ks') =
    (depthBehind allowed depth ks).bind fun d => depthBehind allowed d ks' :=
  List.foldlM_append

theorem depthBehind_cons {k : TokenKind} (h : depthBehind allowed depth (k :: ks) = some depth') :
    ∃ d, depthStep allowed depth k = some d ∧ depthBehind allowed d ks = some depth' := by
  rw [depthBehind, List.foldlM_cons] at h
  exact Option.bind_eq_some_iff.1 h

/-- A token opens a group, closes one, or is allowed where it stands. -/
theorem depthStep_eq_some_iff {k : TokenKind} : depthStep allowed depth k = some depth' ↔
    (k.isOpen = true ∧ depth' = depth + 1) ∨
    (k.isOpen = false ∧ k.isClose = true ∧ depth = depth' + 1) ∨
    (k.isOpen = false ∧ k.isClose = false ∧ (depth = 0 → allowed k = true) ∧ depth' = depth) := by
  unfold depthStep
  cases hopen : k.isOpen with
  | true => simp [@eq_comm _ depth']
  | false =>
    cases hclose : k.isClose with
    | true => cases depth <;> simp
    | false =>
      by_cases hrefused : depth = 0 ∧ allowed k = false
      · simp [hrefused]
      · have hallowed : depth = 0 → allowed k = true := by simpa using hrefused
        rw [if_neg hrefused]
        simp only [Bool.false_eq_true, if_false, Option.some.injEq, false_and, true_and, false_or,
          eq_true hallowed]
        exact eq_comm

/-- Deeper inside of groups everything is allowed. -/
theorem depthStep_shift {k : TokenKind} {n : Nat} (h : depthStep allowed depth k = some depth')
    (hallowed : n = 0 → ∀ k, allowed k = true → allowed' k = true) :
    depthStep allowed' (depth + n) k = some (depth' + n) := by
  rw [depthStep_eq_some_iff] at h ⊢
  rcases h with ⟨hopen, rfl⟩ | ⟨hopen, hclose, rfl⟩ | ⟨hopen, hclose, houtside, rfl⟩
  · exact .inl ⟨hopen, Nat.add_right_comm _ _ _⟩
  · exact .inr (.inl ⟨hopen, hclose, Nat.add_right_comm _ _ _⟩)
  · exact .inr (.inr ⟨hopen, hclose, fun h => hallowed (by omega) k (houtside (by omega)), rfl⟩)

theorem depthBehind_shift {n : Nat} (h : depthBehind allowed depth ks = some depth')
    (hallowed : n = 0 → ∀ k, allowed k = true → allowed' k = true) :
    depthBehind allowed' (depth + n) ks = some (depth' + n) := by
  induction ks generalizing depth with
  | nil => exact congrArg (fun d => some (d + n)) (Option.some.inj h)
  | cons k ks ih =>
    obtain ⟨d, hstep, hrest⟩ := depthBehind_cons h
    rw [depthBehind, List.foldlM_cons, depthStep_shift hstep hallowed]
    exact ih hrest

theorem depthBehind_of_prefix (h : depthBehind allowed depth (ks ++ ks') = some depth') :
    ∃ d, depthBehind allowed depth ks = some d := by
  rw [depthBehind_append] at h
  obtain ⟨d, hd, -⟩ := Option.bind_eq_some_iff.1 h
  exact ⟨d, hd⟩

namespace Level

theorem nil : Level allowed [] :=
  rfl

theorem append (h : Level allowed ks) (h' : Level allowed ks') : Level allowed (ks ++ ks') := by
  rw [Level, depthBehind_append, h]
  exact h'

theorem cons {k : TokenKind} (h : Level allowed ks) (hopen : k.isOpen = false)
    (hclose : k.isClose = false) (hk : allowed k = true) : Level allowed (k :: ks) := by
  have hstep : depthStep allowed 0 k = some 0 := by
    simp [depthStep, hopen, hclose, hk]
  rw [Level, depthBehind, List.foldlM_cons, hstep]
  exact h

theorem mono (h : Level allowed ks) (hallowed : ∀ k, allowed k = true → allowed' k = true) :
    Level allowed' ks :=
  depthBehind_shift (n := 0) h fun _ => hallowed

/-- A group counts as nothing from outside. -/
theorem group {o c : TokenKind} (hc : o.closer = some c) (h : Level allowed ks) :
    Level allowed' (o :: (ks ++ [c])) := by
  obtain ⟨hopen, hinward, hclose⟩ := TokenKind.delimiters_of_closer hc
  have hinner : depthBehind allowed' 1 ks = some 1 :=
    depthBehind_shift (n := 1) h fun hone => absurd hone Nat.one_ne_zero
  have hfirst : depthStep allowed' 0 o = some 1 := if_pos hopen
  have hlast : depthStep allowed' 1 c = some 0 := by
    simp [depthStep, hinward, hclose]
  have hbehind : depthBehind allowed' 1 (ks ++ [c]) = some 0 := by
    rw [depthBehind_append, hinner, Option.bind_some, depthBehind, List.foldlM_cons, hlast]
    rfl
  rw [Level, depthBehind, List.foldlM_cons, hfirst]
  exact hbehind

theorem paren (h : Level allowed ks) : Level allowed' (parenKinds ks) :=
  h.group rfl

theorem brace (h : Level allowed ks) : Level allowed' (braceKinds ks) :=
  h.group rfl

end Level

/-- The depth that the readers count agrees with the one here. -/
theorem depthAfter_of_depthStep {t : Token} (h : depthStep allowed depth t.kind = some depth') :
    t.depthAfter depth = depth' := by
  rcases depthStep_eq_some_iff.1 h with ⟨hopen, rfl⟩ | ⟨hopen, hclose, rfl⟩ | ⟨hopen, hclose, -, rfl⟩
  · simp [Token.depthAfter, hopen]
  · simp [Token.depthAfter, hopen, hclose]
  · simp [Token.depthAfter, hopen, hclose]

/-- Outside of groups only what is allowed is passed. -/
theorem not_passed {k : TokenKind} (hopen : k.isOpen = false) (hk : allowed k = false) :
    depthStep allowed 0 k = none := by
  unfold depthStep
  rw [hopen, if_neg Bool.false_ne_true]
  split
  · rfl
  · exact if_pos ⟨rfl, hk⟩

end Depth

section Tokens

variable {allowed : TokenKind → Bool} {depth depth' : Nat} {ts rest : List Token}

section Search

variable {closer : TokenKind} {index : Nat} {t : Token}

theorem closeFrom_open (hopen : t.kind.isOpen = true) :
    closeFrom closer depth index (t :: ts) = closeFrom closer (depth + 1) (index + 1) ts := by
  rw [closeFrom.eq_def]
  exact if_pos hopen

theorem closeFrom_close (hopen : t.kind.isOpen = false) (hclose : t.kind.isClose = true) :
    closeFrom closer (depth + 2) index (t :: ts) = closeFrom closer (depth + 1) (index + 1) ts := by
  rw [closeFrom.eq_def]
  simp [hopen, hclose]

/-- The delimiter that closes the last group has to be the right one. -/
theorem closeFrom_last (hopen : t.kind.isOpen = false) (hclose : t.kind.isClose = true) :
    closeFrom closer 1 index (t :: ts) = if t.kind = closer then some index else none := by
  rw [closeFrom.eq_def]
  simp [hopen, hclose]

theorem closeFrom_pass (hopen : t.kind.isOpen = false) (hclose : t.kind.isClose = false) :
    closeFrom closer depth index (t :: ts) = closeFrom closer depth (index + 1) ts := by
  rw [closeFrom.eq_def]
  simp [hopen, hclose]

end Search

/-- A closing delimiter is not looked for inside of what closes all its groups itself. -/
theorem closeFrom_append (closer : TokenKind) (index : Nat)
    (h : depthBehind allowed depth (ts.map (·.kind)) = some depth') :
    closeFrom closer (depth + 1) index (ts ++ rest) =
      closeFrom closer (depth' + 1) (index + ts.length) rest := by
  induction ts generalizing depth index with
  | nil =>
    obtain rfl := Option.some.inj h
    rfl
  | cons t ts ih =>
    obtain ⟨d, hstep, hrest⟩ := depthBehind_cons (k := t.kind) h
    have hnext := ih (index + 1) hrest
    rw [List.cons_append, List.length_cons, Nat.add_comm ts.length, ← Nat.add_assoc, ← hnext]
    rcases depthStep_eq_some_iff.1 hstep with ⟨hopen, rfl⟩ | ⟨hopen, hclose, rfl⟩ | ⟨hopen, hclose, -, rfl⟩
    · exact closeFrom_open hopen
    · exact closeFrom_close hopen hclose
    · exact closeFrom_pass hopen hclose

/-- The partner of an opening delimiter. -/
theorem matchingClose_eq {front inner : List Token} {o c : Token}
    (ho : o.kind.closer = some c.kind) (hinner : Level allowed (inner.map (·.kind))) :
    matchingClose (front ++ o :: (inner ++ c :: rest)) front.length =
      some (front.length + 1 + inner.length) := by
  obtain ⟨-, hclose⟩ := TokenKind.delimiters_of_closer ho
  have hpass := @closeFrom_append _ 0 0 inner (c :: rest) c.kind (front.length + 1) hinner
  rw [matchingClose, List.drop_left]
  simp only [ho]
  rw [hpass, closeFrom_last hclose.1 hclose.2]
  exact if_pos rfl

section Check

variable {pending : List Token} {t o c : Token}

theorem checkBalancedFrom_open (ht : t.kind.isOpen = true) :
    checkBalancedFrom pending (t :: ts) = checkBalancedFrom (t :: pending) ts := by
  rw [checkBalancedFrom.eq_def]
  exact if_pos ht

/-- The delimiter that was opened last is closed. -/
theorem checkBalancedFrom_close (hc : o.kind.closer = some c.kind) :
    checkBalancedFrom (o :: pending) (c :: ts) = checkBalancedFrom pending ts := by
  obtain ⟨-, hopen, hclose⟩ := TokenKind.delimiters_of_closer hc
  rw [checkBalancedFrom.eq_def]
  simp [hopen, hclose, hc]

theorem checkBalancedFrom_pass (hopen : t.kind.isOpen = false) (hclose : t.kind.isClose = false) :
    checkBalancedFrom pending (t :: ts) = checkBalancedFrom pending ts := by
  rw [checkBalancedFrom.eq_def]
  simp [hopen, hclose]

end Check

/-- A group is closed by the last token just if nothing follows it. -/
theorem closesAtEnd_eq {front inner : List Token} {o c : Token}
    (ho : o.kind.closer = some c.kind) (hinner : Level allowed (inner.map (·.kind))) :
    closesAtEnd (front ++ o :: (inner ++ c :: rest)) front.length = rest.isEmpty := by
  rw [closesAtEnd, matchingClose_eq ho hinner]
  cases rest with
  | nil =>
    simp
    omega
  | cons t ts =>
    simp
    omega

/-- The first caret is not looked for inside of what has none outside of its groups. -/
theorem splitCaret_append (hcaret : allowed .caret = false)
    (h : depthBehind allowed depth (ts.map (·.kind)) = some depth') :
    Factor.splitCaret depth (ts ++ rest) =
      (Factor.splitCaret depth' rest).map fun p => (ts ++ p.1, p.2) := by
  induction ts generalizing depth with
  | nil =>
    obtain rfl := Option.some.inj h
    simp
  | cons t ts ih =>
    obtain ⟨d, hstep, hrest⟩ := depthBehind_cons (k := t.kind) h
    have hno : ¬ ((depth : Int) = 0 ∧ t.kind = .caret) := by
      rintro ⟨hzero, hkind⟩
      obtain rfl : depth = 0 := by omega
      rw [hkind, not_passed rfl hcaret] at hstep
      exact absurd hstep.symm (Option.some_ne_none _)
    rw [List.cons_append, Factor.splitCaret, if_neg hno, depthAfter_of_depthStep hstep, ih hrest,
      Option.map_map]
    rfl

/-- Tokens are put in front of the first part. -/
def prepend (ts : List Token) (parts : List (List Token)) : List (List Token) :=
  ts.foldr addToFirst parts

theorem prepend_cons (part : List Token) (parts : List (List Token)) :
    prepend ts (part :: parts) = (ts ++ part) :: parts := by
  induction ts with
  | nil => rfl
  | cons t ts ih =>
    rw [prepend, List.foldr_cons, ← prepend, ih]
    rfl

theorem splitTopLevel_append {separator : TokenKind} (hopen : separator.isOpen = false)
    (hseparator : allowed separator = false)
    (h : depthBehind allowed depth (ts.map (·.kind)) = some depth') :
    splitTopLevel separator depth (ts ++ rest) = prepend ts (splitTopLevel separator depth' rest) := by
  induction ts generalizing depth with
  | nil =>
    obtain rfl := Option.some.inj h
    rfl
  | cons t ts ih =>
    obtain ⟨d, hstep, hrest⟩ := depthBehind_cons (k := t.kind) h
    have hno : ¬ ((depth : Int) = 0 ∧ t.kind = separator ∧ !t.kind.isOpen ∧ !t.kind.isClose) := by
      rintro ⟨hzero, hkind, -⟩
      obtain rfl : depth = 0 := by omega
      rw [hkind, not_passed hopen hseparator] at hstep
      exact absurd hstep.symm (Option.some_ne_none _)
    rw [List.cons_append, splitTopLevel, if_neg hno, depthAfter_of_depthStep hstep, ih hrest]
    rfl

theorem splitSigns_append (hsign : ∀ k : TokenKind, k.isSign = true → allowed k = false)
    (h : depthBehind allowed depth (ts.map (·.kind)) = some depth') :
    Expression.splitSigns depth (ts ++ rest) = prepend ts (Expression.splitSigns depth' rest) := by
  induction ts generalizing depth with
  | nil =>
    obtain rfl := Option.some.inj h
    rfl
  | cons t ts ih =>
    obtain ⟨d, hstep, hrest⟩ := depthBehind_cons (k := t.kind) h
    have hno : ¬ ((depth : Int) = 0 ∧ t.kind.isSign = true) := by
      rintro ⟨hzero, hkind⟩
      obtain rfl : depth = 0 := by omega
      have hopen : t.kind.isOpen = false := by
        cases hk : t.kind <;> rw [hk] at hkind <;> first | rfl | exact absurd hkind Bool.false_ne_true
      rw [not_passed hopen (hsign _ hkind)] at hstep
      exact absurd hstep.symm (Option.some_ne_none _)
    simp only [List.cons_append, Expression.splitSigns, depthAfter_of_depthStep hstep, ih hrest]
    rw [if_neg hno]
    rfl

end Tokens

/-- What stands outside of the groups of a factor that is no power. -/
def TokenKind.inFactor : TokenKind → Bool
  | add | sub | comma | caret => false
  | _ => true

/-- What stands outside of the groups of an item. -/
def TokenKind.inItem : TokenKind → Bool
  | add | sub | comma => false
  | _ => true

/-- What stands outside of the groups of an expression. -/
def TokenKind.inExpression : TokenKind → Bool
  | comma => false
  | _ => true

theorem TokenKind.not_inItem_of_isSign (k : TokenKind) (h : k.isSign = true) : k.inItem = false := by
  cases k <;> first | rfl | exact absurd h Bool.false_ne_true

theorem TokenKind.inItem_of_inFactor {k : TokenKind} (h : k.inFactor = true) : k.inItem = true := by
  cases k <;> first | rfl | exact h

theorem TokenKind.inExpression_of_inItem {k : TokenKind} (h : k.inItem = true) :
    k.inExpression = true := by
  cases k <;> first | rfl | exact h

/-- The groups of a factor are closed, and what stands outside of them is no sign, and no caret
except for that of a power. -/
structure Factor.Nested (f : Factor) : Prop where
  level : Level TokenKind.inItem f.kinds
  caretless : f.isPower = false → Level TokenKind.inFactor f.kinds

/-- The groups of an expression are closed, and those of its factors. -/
structure Expression.Nested (e : Expression) : Prop where
  level : Level TokenKind.inExpression e.kinds
  factors : ∀ i ∈ e.items, ∀ f ∈ i.factors, f.Nested

theorem Expression.kinds_ofFactor (f : Factor) : (Expression.ofFactor f).kinds = f.kinds := by
  simp [Expression.ofFactor, Expression.kinds, kindsOfItems, Item.factorKinds, kindsOfFactors,
    signKinds, separatorKinds]

section Trees

variable {allowed : TokenKind → Bool}

/-- The separators of factors are no signs. -/
theorem level_factors (hmul : allowed .mul = true) {fs : List Factor}
    (h : ∀ f ∈ fs, Level allowed f.kinds) (previous : Option Factor) :
    Level allowed (kindsOfFactors previous fs) := by
  induction fs generalizing previous with
  | nil => exact Level.nil
  | cons f fs ih =>
    obtain ⟨hf, hfs⟩ := List.forall_mem_cons.1 h
    refine Level.append (Level.append ?_ hf) (ih hfs (some f))
    unfold separatorKinds
    split
    · exact Level.nil.cons rfl rfl hmul
    · exact Level.nil

theorem level_items {is : List Item}
    (h : ∀ i ∈ is, ∀ f ∈ i.factors, Level TokenKind.inItem f.kinds) (first : Bool) :
    Level TokenKind.inExpression (kindsOfItems first is) := by
  induction is generalizing first with
  | nil => exact Level.nil
  | cons i is ih =>
    obtain ⟨hi, his⟩ := List.forall_mem_cons.1 h
    obtain ⟨positive, factors⟩ := i
    have hfactors : Level TokenKind.inItem (kindsOfFactors none factors) := level_factors rfl hi none
    have hsign : Level TokenKind.inExpression (signKinds first positive) := by
      cases first <;> cases positive
      · exact Level.nil.cons rfl rfl rfl
      · exact Level.nil.cons rfl rfl rfl
      · exact Level.nil.cons rfl rfl rfl
      · exact Level.nil
    exact (hsign.append (hfactors.mono fun _ => TokenKind.inExpression_of_inItem)).append
      (ih his false)

/-- Commas stand between arguments. -/
theorem level_arguments {es : List Expression} (h : ∀ e ∈ es, e.Nested) (first : Bool) :
    Level (fun _ => true) (kindsOfArguments first es) := by
  induction es generalizing first with
  | nil => exact Level.nil
  | cons e es ih =>
    obtain ⟨he, hes⟩ := List.forall_mem_cons.1 h
    refine Level.append (Level.append ?_ (he.level.mono fun _ _ => rfl)) (ih hes false)
    cases first
    · exact Level.nil.cons rfl rfl rfl
    · exact Level.nil

/-- The groups of a factor are closed if those of the expressions inside it are. -/
theorem Factor.nested {f : Factor} (hf : f.WellFormed) (h : ∀ e ∈ f.children, e.Nested) :
    f.Nested := by
  by_cases hpower : f.isPower = true
  · cases f with
    | power base exponent =>
      obtain ⟨g, rfl, hg⟩ := hf
      have hbase := h _ List.mem_cons_self
      have hexponent := h exponent (List.mem_cons_of_mem _ List.mem_cons_self)
      have hfactor := hbase.factors _ (List.mem_singleton.2 rfl) g (List.mem_singleton.2 rfl)
      have hlevel : Level TokenKind.inItem (g.kinds ++ .caret :: braceKinds exponent.kinds) :=
        hfactor.level.append (hexponent.level.brace.cons rfl rfl rfl)
      refine ⟨?_, fun hno => absurd hno.symm Bool.false_ne_true⟩
      rw [Factor.kinds, Expression.kinds_ofFactor]
      exact hlevel
    | _ => exact absurd hpower Bool.false_ne_true
  · have hlevel : Level TokenKind.inFactor f.kinds := by
      cases f with
      | number x => exact Level.nil.cons rfl rfl rfl
      | constant c => cases c <;> exact Level.nil.cons rfl rfl rfl
      | «variable» name bound => exact Level.nil.cons rfl rfl rfl
      | fraction a b =>
        have ha := h a List.mem_cons_self
        have hb := h b (List.mem_cons_of_mem _ List.mem_cons_self)
        exact (ha.level.brace.append hb.level.brace).cons rfl rfl rfl
      | power base exponent => exact absurd rfl hpower
      | bracket a => exact (h a List.mem_cons_self).level.paren
      | unary f a => exact (h a List.mem_cons_self).level.paren.cons rfl rfl rfl
      | logarithm base antilog =>
        have hbase := h base List.mem_cons_self
        have hantilog := h antilog (List.mem_cons_of_mem _ List.mem_cons_self)
        exact (hbase.level.brace.append hantilog.level.paren).cons rfl rfl rfl
      | call name arguments link => exact (level_arguments h true).paren.cons rfl rfl rfl
    exact ⟨hlevel.mono fun _ => TokenKind.inItem_of_inFactor, fun _ => hlevel⟩

/-- The groups of a tree are closed. -/
theorem Expression.nested {e : Expression} (h : e.Everywhere WellFormed) : e.Nested := by
  induction h with
  | intro here inside ih =>
    have hfactors := fun i hi f hf => Factor.nested ((here.2 i hi).2 f hf) (ih i hi f hf)
    exact ⟨level_items (fun i hi f hf => (hfactors i hi f hf).level) true, hfactors⟩

end Trees

end ImplicitCurves

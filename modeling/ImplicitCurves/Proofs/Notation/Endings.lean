import ImplicitCurves.Proofs.Notation.Complete

/-!
# What ends the argument of a function

The parenthesis at the end of what stands behind a function is taken for the one that closes its
argument.  So the argument cannot go on with a bracket or with another function: main statement
`Factor.last_of_closed`.
-/

namespace ImplicitCurves

/-- Behind each proper beginning of the tokens, something is still pending. -/
def Unfinished (demand : Demand) (ks : List TokenKind) : Prop :=
  ∀ start, start <+: ks → start ≠ ks → (start = [] → demand ≠ .nothing) →
    Pending.behind ⟨demand, []⟩ start ≠ some ⟨.nothing, []⟩

/-- What starts a list that is put together from two lists either starts the first one or goes on
with what starts the second one. -/
theorem starts_append {α : Type} {start front rest : List α} (h : start <+: front ++ rest) :
    start <+: front ∨ ∃ tail, tail <+: rest ∧ start = front ++ tail := by
  by_cases hlength : start.length ≤ front.length
  · exact .inl (List.prefix_of_prefix_length_le h (List.prefix_append front rest) hlength)
  · obtain ⟨tail, rfl⟩ := List.prefix_of_prefix_length_le (List.prefix_append front rest) h
      (Nat.le_of_not_le hlength)
    exact .inr ⟨tail, (List.prefix_append_right_inj front).1 h, rfl⟩

namespace Unfinished

variable {demand outer : Demand} {curly : Bool} {ks rest : List TokenKind}

theorem nil : Unfinished demand [] :=
  fun _ hstart hne => absurd (List.prefix_nil.1 hstart) hne

theorem cons {k : TokenKind} (hk : Pending.step ⟨demand, []⟩ k = some ⟨outer, []⟩)
    (houter : outer ≠ .nothing) (h : Unfinished outer ks) : Unfinished demand (k :: ks) := by
  intro start hstart hne hdemand hbehind
  cases start with
  | nil => exact hdemand rfl (congrArg Pending.demand (Option.some.inj hbehind))
  | cons k' start =>
    obtain ⟨rfl, htail⟩ := List.cons_prefix_cons.1 hstart
    rw [Pending.behind_cons, hk] at hbehind
    exact h start htail (fun heq => hne (congrArg _ heq)) (fun _ => houter) hbehind

/-- Inside of a group its end is pending. -/
theorem group {o c : TokenKind} (ho : Pending.step ⟨demand, []⟩ o = some ⟨.operand, [⟨curly, outer⟩]⟩)
    (hc : Closes curly c) (h : Complete ks) (hrest : Unfinished outer rest)
    (houter : rest ≠ [] → outer ≠ .nothing) : Unfinished demand (o :: ks ++ c :: rest) := by
  intro start hstart hne hdemand hbehind
  cases start with
  | nil => exact hdemand rfl (congrArg Pending.demand (Option.some.inj hbehind))
  | cons k start =>
    obtain ⟨rfl, hinside⟩ := List.cons_prefix_cons.1 hstart
    have hwithin : ∀ {within : List TokenKind}, within <+: ks →
        Pending.behind ⟨.operand, [⟨curly, outer⟩]⟩ within ≠ some ⟨.nothing, []⟩ := by
      rintro within ⟨tail, htail⟩ hbehind
      have hall := h .operand [] (by decide)
      rw [← htail, Pending.behind_append] at hall
      obtain ⟨q, hq, -⟩ := Option.bind_eq_some_iff.1 hall
      have hdeeper := Pending.behind_outer hq [⟨curly, outer⟩]
      have hgroups := congrArg Pending.groups (Option.some.inj (hdeeper.symm.trans hbehind))
      exact absurd hgroups (by simp)
    rw [Pending.behind_cons, ho, Option.bind_some] at hbehind
    rcases starts_append hinside with hbefore | ⟨tail, htail, rfl⟩
    · exact hwithin hbefore hbehind
    · cases tail with
      | nil =>
        rw [List.append_nil] at hbehind
        exact hwithin List.prefix_rfl hbehind
      | cons k' tail =>
        obtain ⟨rfl, hbehindGroup⟩ := List.cons_prefix_cons.1 htail
        rw [h.closed hc] at hbehind
        refine hrest tail hbehindGroup (fun heq => hne ?_) (fun hnil => ?_) hbehind
        · rw [heq]
          rfl
        · refine houter fun hempty => hne ?_
          rw [hnil, hempty]
          rfl

end Unfinished

namespace Factor

/-- A function in front of a closed factor cannot take a part of it that does not end with a
parenthesis. -/
structure ClosesItself (f : Factor) : Prop where
  complete : Complete f.kinds
  unfinished : Unfinished .nothing f.kinds
  last : f.kinds.getLast? = some .closeParen

theorem last_parenKinds (front ks : List TokenKind) :
    (front ++ parenKinds ks).getLast? = some .closeParen := by
  rw [parenKinds, ← List.append_assoc, List.getLast?_concat]

theorem closesItself {f : Factor} (hf : f.isClosed = true) (h : ∀ e ∈ f.children, Complete e.kinds) :
    f.ClosesItself := by
  cases f with
  | bracket a =>
    have ha := h a List.mem_cons_self
    exact ⟨ha.group rfl, .group rfl rfl ha .nil fun hno => absurd rfl hno,
      List.getLast?_concat⟩
  | unary f a =>
    have ha := h a List.mem_cons_self
    have hargument : Unfinished .operand (parenKinds a.kinds) :=
      .group rfl rfl ha .nil fun hno => absurd rfl hno
    exact ⟨(ha.group rfl).operation rfl, hargument.cons rfl (by decide),
      last_parenKinds [.function f] a.kinds⟩
  | logarithm base a =>
    have hbase := h base List.mem_cons_self
    have ha := h a (List.mem_cons_of_mem _ List.mem_cons_self)
    have hargument : Unfinished .operand (parenKinds a.kinds) :=
      .group rfl rfl ha .nil fun hno => absurd rfl hno
    have hgroup : Unfinished .base
        (.openCurly :: base.kinds ++ .closeCurly :: parenKinds a.kinds) :=
      .group rfl rfl hbase hargument fun _ => by decide
    have hkinds : (logarithm base a).kinds =
        .logBase :: .openCurly :: base.kinds ++ .closeCurly :: parenKinds a.kinds := by
      simp [kinds, braceKinds]
    refine ⟨?_, ?_, last_parenKinds (.logBase :: braceKinds base.kinds) a.kinds⟩
    · rw [hkinds]
      exact hbase.command (.inl rfl) (ha.group rfl)
    · rw [hkinds]
      exact hgroup.cons rfl (by decide)
  | _ => exact absurd hf Bool.false_ne_true

/-- Between closed factors and behind a function nothing is written. -/
theorem kindsOfFactors_of_closed {f : Factor} {gs : List Factor}
    (hf : ∀ name bound, f ≠ .variable name bound) (hgs : ∀ g ∈ gs, g.isClosed = true) :
    kindsOfFactors (some f) gs = gs.flatMap kinds := by
  induction gs generalizing f with
  | nil => rfl
  | cons g gs ih =>
    obtain ⟨hg, hrest⟩ := List.forall_mem_cons.1 hgs
    have hmul : needsMul f g = false := by
      unfold needsMul
      split
      · exact absurd hg Bool.false_ne_true
      · exact absurd rfl (hf _ _)
      · exact absurd rfl (hf _ _)
      · rfl
    have hvariable : ∀ name bound, g ≠ .variable name bound := by
      rintro name bound rfl
      exact Bool.false_ne_true hg
    rw [kindsOfFactors, ih hvariable hrest, separatorKinds, Option.any_some, hmul]
    rfl

/-- What a function could take of closed factors behind it ends with a parenthesis. -/
theorem last_of_closed {gs : List Factor} (h : ∀ g ∈ gs, g.ClosesItself) {start : List TokenKind}
    (hstart : start <+: gs.flatMap kinds) (hne : start ≠ [])
    (hbehind : Pending.behind ⟨.nothing, []⟩ start = some ⟨.nothing, []⟩) :
    start.getLast? = some .closeParen := by
  induction gs generalizing start with
  | nil => exact absurd (List.prefix_nil.1 hstart) hne
  | cons g gs ih =>
    obtain ⟨hg, hrest⟩ := List.forall_mem_cons.1 h
    rw [List.flatMap_cons] at hstart
    have hwhole : ∀ {tail : List TokenKind}, tail <+: gs.flatMap kinds → start = g.kinds ++ tail →
        start.getLast? = some .closeParen := by
      rintro tail htail rfl
      by_cases hnil : tail = []
      · rw [hnil, List.append_nil]
        exact hg.last
      · rw [Pending.behind_append, hg.complete .nothing [] (by decide), Option.bind_some] at hbehind
        rw [List.getLast?_append_of_ne_nil _ hnil]
        exact ih hrest htail hnil hbehind
    rcases starts_append hstart with hinside | ⟨tail, htail, heq⟩
    · by_cases hall : start = g.kinds
      · exact hwhole List.nil_prefix (by rw [List.append_nil]; exact hall)
      · exact absurd hbehind (hg.unfinished start hinside hall fun hnil => absurd hnil hne)
    · exact hwhole htail heq

end Factor

end ImplicitCurves

import ImplicitCurves.Proofs.Notation.Composition
import ImplicitCurves.Proofs.Notation.Sides

/-!
# Definitions read as equations

The tokens of a definition are also those of an equation, between a variable and a number or between a
call and a body.  So the readers for definitions let no tokens pass that would not be read without them:
main statement `Statement.read_eq_none_iff`.
-/

namespace ImplicitCurves

namespace Expression

theorem read_variable {t : Token} {name : Char} (ht : t.kind = .letter name) (hname : name ≠ 'e') :
    read [t] = some (.ofFactor (.variable name none)) :=
  (Factor.Written.variable ht hname).read_ofFactor rfl

theorem read_number {n : Token} {x : Float} (hn : n.kind = .number x) :
    read [n] = some (.ofNumber x) :=
  (Factor.Written.number hn).read_ofFactor rfl

/-- A number behind a sign is a single item. -/
theorem read_signed {s n : Token} {x : Float} {positive : Bool}
    (hs : s.kind = if positive then .add else .sub) (hn : n.kind = .number x) :
    read [s, n] = some ⟨[⟨positive, [.number x]⟩]⟩ := by
  have hinline : Inline [n] := ⟨0, by rw [List.map_singleton, hn]; rfl⟩
  obtain ⟨fs, hne, heq, hfactored⟩ := (read_inline hinline).1 (read_number hn)
  obtain rfl : [Factor.number x] = fs := (Item.mk.inj (List.cons.inj (Expression.mk.inj heq)).1).2
  have hitem : Item.Parsed read [s, n] ⟨positive, [.number x]⟩ := by
    cases positive with
    | true => exact .plus hs hne hfactored
    | false => exact .minus hs hne hfactored
  have hsplit : splitItems [s, n] = [[s, n]] := by
    simp [splitItems, splitSigns, addToFirst, hn, TokenKind.isSign]
  rw [read_eq]
  refine readWith_eq_some.2 ⟨List.cons_ne_nil _ _, ?_⟩
  rw [hsplit]
  exact .cons hitem .nil

end Expression

namespace VariableDefinition

variable {tokens : List Token} {d : VariableDefinition}

/-- The value of a variable is read as a number, perhaps with a sign. -/
theorem exists_of_readSigned {value : Float} (h : readSigned tokens = some value) : ∃ positive x,
    Expression.read tokens = some ⟨[⟨positive, [.number x]⟩]⟩ ∧ .number x ∈ tokens.map (·.kind) ∧
      value = if positive then x else -x := by
  obtain ⟨x, ⟨hvalue, hkinds⟩ | ⟨hvalue, hkinds⟩ | ⟨hvalue, hkinds⟩⟩ := readSigned_eq_some h
  · obtain ⟨n, rfl, hn⟩ := List.map_eq_singleton_iff.1 hkinds
    exact ⟨true, x, Expression.read_number hn, by simp [hn], hvalue⟩
  · obtain ⟨s, rest, rfl, hs, hrest⟩ := List.map_eq_cons_iff.1 hkinds
    obtain ⟨n, rfl, hn⟩ := List.map_eq_singleton_iff.1 hrest
    exact ⟨true, x, Expression.read_signed hs hn, by simp [hn], hvalue⟩
  · obtain ⟨s, rest, rfl, hs, hrest⟩ := List.map_eq_cons_iff.1 hkinds
    obtain ⟨n, rfl, hn⟩ := List.map_eq_singleton_iff.1 hrest
    exact ⟨false, x, Expression.read_signed hs hn, by simp [hn], hvalue⟩

/-- The definition of a variable is read as an equation between the variable and a number. -/
theorem read_asEquation (h : read tokens = some d) : ∃ positive x, Equation.read tokens =
    some (.between (.ofFactor (.variable d.name none)) ⟨[⟨positive, [.number x]⟩]⟩) ∧
      .number x ∈ tokens.map (·.kind) ∧ d.value = if positive then x else -x := by
  obtain ⟨t, s, rest, rfl, ht, hname, hs, hvalue⟩ := exists_sides h
  obtain ⟨positive, x, hrhs, hmem, hx⟩ := exists_of_readSigned hvalue
  have hfirst : ∀ u ∈ [t], u.kind ≠ .assign := by
    intro u hu
    rw [List.mem_singleton.1 hu, ht]
    exact fun hno => by cases hno
  refine ⟨positive, x, ?_, ?_, hx⟩
  · exact (Equation.read_sides hs hfirst).2 ⟨_, _, Expression.read_variable ht hname, hrhs, rfl⟩
  · exact List.mem_cons_of_mem _ (List.mem_cons_of_mem _ hmem)

end VariableDefinition

namespace FunctionDefinition

variable {tokens : List Token} {d : FunctionDefinition} {name : Char} {parameters : List Char}

/-- Parameters with commas between them are arguments. -/
theorem arguments_of_kinds {ps : List Token} (hps : ps.map (·.kind) = parameterKinds parameters)
    (hne : parameters ≠ []) (he : 'e' ∉ parameters) :
    Expression.Arguments ps (parameters.map fun p => .ofFactor (.variable p none)) := by
  induction parameters generalizing ps with
  | nil => exact absurd rfl hne
  | cons p names ih =>
    have hp : p ≠ 'e' := by
      rintro rfl
      exact he List.mem_cons_self
    cases names with
    | nil =>
      rw [parameterKinds_singleton] at hps
      obtain ⟨t, rfl, ht⟩ := List.map_eq_singleton_iff.1 hps
      exact .single (Expression.read_variable ht hp)
    | cons q names =>
      rw [parameterKinds_cons] at hps
      obtain ⟨t, behind, rfl, ht, hbehind⟩ := List.map_eq_cons_iff.1 hps
      obtain ⟨comma, ps, rfl, hcomma, hps⟩ := List.map_eq_cons_iff.1 hbehind
      have hrest := ih hps (List.cons_ne_nil _ _) fun hmem => he (List.mem_cons_of_mem _ hmem)
      exact .more (Expression.read_variable ht hp) hcomma hrest

/-- What stands in front of the body is read as a call. -/
theorem read_head {hs : List Token} (hadmissible : Admissible name parameters)
    (hhead : hs.map (·.kind) = (head name parameters).kinds) :
    Expression.read hs = some (.ofFactor (head name parameters)) := by
  rw [kinds_head] at hhead
  obtain ⟨t, within, rfl, ht, hwithin⟩ := List.map_eq_cons_iff.1 hhead
  obtain ⟨o, ps, c, rfl, ho, hc, hps⟩ := exists_of_lastGroup hwithin
  have harguments := arguments_of_kinds hps hadmissible.ne_nil hadmissible.parameters_ne
  have hwritten : Factor.Written (t :: o :: ps ++ [c]) (head name parameters) :=
    .call ht hadmissible.name_ne ho hc harguments.read_each
  exact hwritten.read_ofFactor rfl

/-- There is no equals sign in front of that of the definition. -/
theorem assign_not_mem_head {hs : List Token} (hhead : hs.map (·.kind) = (head name parameters).kinds) :
    ∀ t ∈ hs, t.kind ≠ .assign := by
  intro t ht hkind
  refine Expression.assign_not_mem_kinds (.ofFactor (head name parameters)) ?_
  rw [Expression.kinds_ofFactor, ← hhead, ← hkind]
  exact List.mem_map_of_mem ht

/-- A definition as an equation between a call and the body. -/
def asEquation (d : FunctionDefinition) : Equation :=
  .between (.ofFactor (head d.name d.parameters)) d.body

/-- The definition of a function is read as an equation. -/
theorem read_asEquation (h : read tokens = some d) : Equation.read tokens = some d.asEquation := by
  obtain ⟨hs, s, body, e, rfl, hhead, hassign, hbody, hadmissible, hd⟩ := read_eq_some.1 h
  have hlhs := read_head hadmissible hhead
  have he : d.body = e := by rw [hd]; rfl
  refine (Equation.read_sides hassign (assign_not_mem_head hhead)).2 ⟨_, e, hlhs, hbody, ?_⟩
  rw [asEquation, he]

end FunctionDefinition

namespace Statement

variable {tokens : List Token}

theorem hasAssign_iff : hasAssign tokens = true ↔ .assign ∈ tokens.map Token.kind := by
  simp [hasAssign]

theorem hasAssign_of_equation {eq : Equation} (h : Equation.read tokens = some eq) :
    hasAssign tokens = true := by
  obtain ⟨ls, t, rs, rfl, ht, -, -⟩ := Equation.exists_sides h
  simp [hasAssign, ht]

/-- What is read as an equation is also read as a statement. -/
theorem exists_of_equation {eq : Equation} (h : Equation.read tokens = some eq) :
    ∃ s, read tokens = some s := by
  unfold read
  rw [if_pos (hasAssign_of_equation h), h]
  split
  · exact ⟨_, rfl⟩
  · split <;> exact ⟨_, rfl⟩

/-- With an equals sign, just equations are read. -/
theorem read_eq_none_of_hasAssign (h : hasAssign tokens = true) :
    read tokens = none ↔ Equation.read tokens = none := by
  constructor
  · intro hnone
    cases heq : Equation.read tokens with
    | none => rfl
    | some eq =>
      obtain ⟨s, hs⟩ := exists_of_equation heq
      cases hnone.symm.trans hs
  · intro hnone
    unfold read
    split
    · next d hd =>
      obtain ⟨positive, x, heq, -⟩ := VariableDefinition.read_asEquation hd
      cases hnone.symm.trans heq
    split
    · next d hd => cases hnone.symm.trans (FunctionDefinition.read_asEquation hd)
    · rw [if_pos h, hnone]
      rfl

/-- Without an equals sign, only expressions are read. -/
theorem read_of_not_hasAssign (h : hasAssign tokens = false) :
    read tokens = (Expression.read tokens).map .expression := by
  unfold read
  split
  · next d hd =>
    obtain ⟨positive, x, heq, -⟩ := VariableDefinition.read_asEquation hd
    exact absurd (h.symm.trans (hasAssign_of_equation heq)) Bool.false_ne_true
  split
  · next d hd =>
    have heq := FunctionDefinition.read_asEquation hd
    exact absurd (h.symm.trans (hasAssign_of_equation heq)) Bool.false_ne_true
  · rw [h]
    rfl

/-- A statement is rejected just if it is rejected as an equation, or as an expression if there is no
equals sign. -/
theorem read_eq_none_iff : read tokens = none ↔
    if hasAssign tokens then Equation.read tokens = none else Expression.read tokens = none := by
  cases h : hasAssign tokens with
  | true => exact read_eq_none_of_hasAssign h
  | false =>
    rw [read_of_not_hasAssign h, Option.map_eq_none_iff]
    exact Iff.rfl

end Statement

end ImplicitCurves

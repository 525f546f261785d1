import ImplicitCurves.Parser.Statement
import ImplicitCurves.Proofs.Notation.Reading
import Mathlib.Data.List.Nodup

/-!
# Both sides of an equals sign

The tokens that are read as equations and as definitions: what stands in front of the first equals
sign, and what stands behind it.  In front of the body of a function stands what a call of the function
with its own parameters looks like: main statement `FunctionDefinition.read_eq_some`.
-/

namespace ImplicitCurves

namespace Equation

variable {tokens ls rs : List Token} {t : Token}

/-- The tokens are split at the first equals sign. -/
theorem splitAssign_eq_some : splitAssign tokens = some (ls, t, rs) ↔
    tokens = ls ++ t :: rs ∧ t.kind = .assign ∧ ∀ u ∈ ls, u.kind ≠ .assign := by
  induction tokens generalizing ls with
  | nil =>
    constructor
    · intro h
      cases h
    · rintro ⟨h, -⟩
      exact absurd h.symm (by simp)
  | cons u us ih =>
    rw [splitAssign]
    by_cases hassign : u.kind = .assign
    · rw [if_pos hassign]
      constructor
      · intro h
        cases h
        exact ⟨rfl, hassign, fun u hu => absurd hu List.not_mem_nil⟩
      · rintro ⟨h, -, hls⟩
        cases ls with
        | nil =>
          obtain ⟨rfl, rfl⟩ := List.cons.inj h
          rfl
        | cons v ls =>
          obtain ⟨rfl, -⟩ := List.cons.inj h
          exact absurd hassign (hls u List.mem_cons_self)
    · rw [if_neg hassign]
      constructor
      · intro h
        obtain ⟨⟨ls', t', rs'⟩, h', heq⟩ := Option.map_eq_some_iff.1 h
        cases heq
        obtain ⟨rfl, ht, hls⟩ := ih.1 h'
        exact ⟨rfl, ht, List.forall_mem_cons.2 ⟨hassign, hls⟩⟩
      · rintro ⟨h, ht, hls⟩
        cases ls with
        | nil =>
          obtain ⟨rfl, -⟩ := List.cons.inj h
          exact absurd ht hassign
        | cons v ls =>
          obtain ⟨rfl, rfl⟩ := List.cons.inj h
          rw [ih.2 ⟨rfl, ht, (List.forall_mem_cons.1 hls).2⟩]
          rfl

theorem exists_sides {eq : Equation} (h : read tokens = some eq) : ∃ ls t rs, tokens = ls ++ t :: rs ∧
    t.kind = .assign ∧ Expression.read ls = some eq.lhs ∧ Expression.read rs = some eq.rhs := by
  unfold read at h
  obtain ⟨⟨ls, t, rs⟩, hsplit, h⟩ := Option.bind_eq_some_iff.1 h
  obtain ⟨lhs, hlhs, h⟩ := Option.bind_eq_some_iff.1 h
  obtain ⟨rhs, hrhs, h⟩ := Option.bind_eq_some_iff.1 h
  obtain rfl := Option.some.inj h
  obtain ⟨htokens, ht, -⟩ := splitAssign_eq_some.1 hsplit
  exact ⟨ls, t, rs, htokens, ht, hlhs, hrhs⟩

/-- Each side of an equation is read on its own. -/
theorem read_sides (ht : t.kind = .assign) (hls : ∀ u ∈ ls, u.kind ≠ .assign) {eq : Equation} :
    read (ls ++ t :: rs) = some eq ↔ ∃ lhs rhs, Expression.read ls = some lhs ∧
      Expression.read rs = some rhs ∧ eq = between lhs rhs := by
  have hsplit := splitAssign_eq_some.2 ⟨@rfl _ (ls ++ t :: rs), ht, hls⟩
  rw [read, hsplit, Option.bind_eq_bind, Option.bind_some]
  constructor
  · intro h
    obtain ⟨lhs, hlhs, h⟩ := Option.bind_eq_some_iff.1 h
    obtain ⟨rhs, hrhs, h⟩ := Option.bind_eq_some_iff.1 h
    exact ⟨lhs, rhs, hlhs, hrhs, (Option.some.inj h).symm⟩
  · rintro ⟨lhs, rhs, hlhs, hrhs, rfl⟩
    simp only [hlhs, hrhs, bind, Option.bind_some]
    rfl

end Equation

namespace VariableDefinition

variable {tokens : List Token}

/-- A value is a number, perhaps with a sign. -/
theorem readSigned_eq_some {value : Float} (h : readSigned tokens = some value) :
    ∃ x, value = x ∧ tokens.map (·.kind) = [.number x] ∨
      value = x ∧ tokens.map (·.kind) = [.add, .number x] ∨
      value = -x ∧ tokens.map (·.kind) = [.sub, .number x] := by
  unfold readSigned at h
  split at h
  · exact ⟨_, .inl ⟨(Option.some.inj h).symm, rfl⟩⟩
  · exact ⟨_, .inr (.inr ⟨(Option.some.inj h).symm, rfl⟩)⟩
  · exact ⟨_, .inr (.inl ⟨(Option.some.inj h).symm, rfl⟩)⟩
  · cases h

theorem exists_sides {d : VariableDefinition} (h : read tokens = some d) : ∃ t s rest,
    tokens = t :: s :: rest ∧ t.kind = .letter d.name ∧ d.name ≠ 'e' ∧ s.kind = .assign ∧
      readSigned rest = some d.value := by
  rw [read] at h
  cases hd : readOrExplain tokens with
  | error error =>
    rw [hd] at h
    cases h
  | ok d' =>
    rw [hd] at h
    obtain rfl := Option.some.inj h
    unfold readOrExplain at hd
    split at hd
    · next name hname =>
      split at hd
      · cases hd
      · split at hd
        · cases hd
        next he =>
        split at hd
        · cases hd
        next hassign =>
        split at hd
        · next value hvalue =>
          cases hd
          rw [ne_eq, Decidable.not_not] at hassign
          cases tokens with
          | nil => cases hname
          | cons t ts =>
            cases ts with
            | nil => cases hassign
            | cons s rest =>
              exact ⟨t, s, rest, rfl, Option.some.inj hname, he, Option.some.inj hassign, hvalue⟩
        · cases hd
    · cases hd

end VariableDefinition

namespace FunctionDefinition

/-- What stands in front of the body of a function: a call with the parameters as arguments. -/
def head (name : Char) (parameters : List Char) : Factor :=
  .call name (parameters.map fun p => .ofFactor (.variable p none)) .unlinked

/-- The names that can be given to a function and its parameters. -/
structure Admissible (name : Char) (parameters : List Char) : Prop where
  name_ne : name ≠ 'e'
  parameters_ne : 'e' ∉ parameters
  nodup : parameters.Nodup
  ne_nil : parameters ≠ []

/-- The tokens of parameters with commas between them. -/
def parameterKinds (parameters : List Char) : List TokenKind :=
  kindsOfArguments true (parameters.map fun p => .ofFactor (.variable p none))

theorem parameterKinds_singleton (p : Char) : parameterKinds [p] = [.letter p] := by
  simp [parameterKinds, kindsOfArguments, Expression.kinds_ofFactor, Factor.kinds]

theorem parameterKinds_cons (p q : Char) (ps : List Char) :
    parameterKinds (p :: q :: ps) = .letter p :: .comma :: parameterKinds (q :: ps) := by
  simp [parameterKinds, kindsOfArguments, Expression.kinds_ofFactor, Factor.kinds]

variable {tokens ts rest : List Token} {parameters : List Char} {index : Nat}

/-- What is read as parameters up to the closing parenthesis. -/
theorem exists_of_readParameters {parameters' : List Char} {index' : Nat}
    (h : readParameters tokens parameters index ts = .ok (parameters', index', rest)) :
    ∃ names ps c, parameters' = parameters ++ names ∧ ts = ps ++ c :: rest ∧ c.kind = .closeParen ∧
      ps.map (·.kind) = parameterKinds names ∧ names ≠ [] ∧ 'e' ∉ names ∧ names.Nodup ∧
        ∀ p ∈ names, p ∉ parameters := by
  fun_induction readParameters tokens parameters index ts with
  | case1 => cases h
  | case2 => cases h
  | case3 parameters index name span he hnew span' rest' ih =>
    obtain ⟨names, ps, c, rfl, rfl, hc, hps, hne, heNames, hnodup, hfresh⟩ := ih h
    obtain ⟨q, qs, rfl⟩ := List.exists_cons_of_ne_nil hne
    refine ⟨name :: q :: qs, ⟨.letter name, span⟩ :: ⟨.comma, span'⟩ :: ps, c, by simp, rfl, hc, ?_,
      List.cons_ne_nil _ _, ?_, ?_, ?_⟩
    · rw [parameterKinds_cons, ← hps]
      rfl
    · rw [List.mem_cons, not_or]
      exact ⟨fun heq => he heq.symm, heNames⟩
    · exact List.nodup_cons.2 ⟨fun hmem => hfresh name hmem (by simp), hnodup⟩
    · refine List.forall_mem_cons.2 ⟨fun hmem => hnew (by simpa using hmem), fun p hp hmem => ?_⟩
      exact hfresh p hp (List.mem_append_left _ hmem)
  | case4 parameters index name span he hnew span' rest' =>
    cases h
    refine ⟨[name], [⟨.letter name, span⟩], ⟨.closeParen, span'⟩, rfl, rfl, rfl,
      (parameterKinds_singleton name).symm, List.cons_ne_nil _ _, ?_, List.nodup_singleton name, ?_⟩
    · rw [List.mem_singleton]
      exact fun heq => he heq.symm
    · rintro p hp hmem
      rw [List.mem_singleton.1 hp] at hmem
      exact hnew (by simpa using hmem)
  | case5 => cases h
  | case6 => cases h

/-- Parameters are read up to the closing parenthesis. -/
theorem readParameters_eq_ok {names : List Char} {ps : List Token} {c : Token} (hc : c.kind = .closeParen)
    (hps : ps.map (·.kind) = parameterKinds names) (hne : names ≠ []) (he : 'e' ∉ names)
    (hnodup : names.Nodup) (hfresh : ∀ p ∈ names, p ∉ parameters) :
    ∃ index', readParameters tokens parameters index (ps ++ c :: rest) =
      .ok (parameters ++ names, index', rest) := by
  obtain ⟨kc, spanC⟩ := c
  obtain rfl : kc = .closeParen := hc
  induction names generalizing parameters index ps with
  | nil => exact absurd rfl hne
  | cons p names ih =>
    rw [List.mem_cons, not_or] at he
    obtain ⟨hp, hfresh⟩ := List.forall_mem_cons.1 hfresh
    obtain ⟨hpNames, hnodup⟩ := List.nodup_cons.1 hnodup
    have hpe : ¬ p = 'e' := fun heq => he.1 heq.symm
    have hpNew : ¬ parameters.contains p = true := by simpa using hp
    cases names with
    | nil =>
      rw [parameterKinds_singleton] at hps
      obtain ⟨⟨k, span⟩, rfl, hk⟩ := List.map_eq_singleton_iff.1 hps
      obtain rfl : k = .letter p := hk
      refine ⟨index + 2, ?_⟩
      rw [List.singleton_append, readParameters, if_neg hpe, if_neg hpNew]
    | cons q qs =>
      rw [parameterKinds_cons] at hps
      obtain ⟨⟨k, span⟩, others, rfl, hk, hothers⟩ := List.map_eq_cons_iff.1 hps
      obtain rfl : k = .letter p := hk
      obtain ⟨⟨k', span'⟩, ps, rfl, hk', hnames⟩ := List.map_eq_cons_iff.1 hothers
      obtain rfl : k' = .comma := hk'
      have hnext : ∀ r ∈ q :: qs, r ∉ parameters ++ [p] := by
        intro r hr hmem
        rcases List.mem_append.1 hmem with hmem | hmem
        · exact hfresh r hr hmem
        · rw [List.mem_singleton.1 hmem] at hr
          exact hpNames hr
      obtain ⟨index', hread⟩ := @ih (parameters ++ [p]) (index + 2) ps hnames (List.cons_ne_nil _ _) he.2
        hnodup hnext
      refine ⟨index', ?_⟩
      rw [List.cons_append, List.cons_append, readParameters, if_neg hpe, if_neg hpNew]
      rw [hread, List.append_assoc]
      rfl

theorem kinds_head (name : Char) (parameters : List Char) :
    (head name parameters).kinds = .letter name :: parenKinds (parameterKinds parameters) :=
  rfl

/-- What stands in front of the body is what is read as its name and its parameters. -/
theorem exists_of_readHeader {header : Header} (h : readHeader tokens = .ok header) : ∃ hs s,
    tokens = hs ++ s :: header.body ∧ hs.map (·.kind) = (head header.name header.parameters).kinds ∧
      s.kind = .assign ∧ header.body ≠ [] ∧ Admissible header.name header.parameters := by
  unfold readHeader at h
  split at h
  · next name hname =>
    split at h
    · cases h
    next hne =>
    split at h
    · cases h
    next hopen =>
    rw [ne_eq, Decidable.not_not] at hopen
    split at h
    · cases h
    next parameters index rest hparameters =>
    split at h
    · next span body =>
      split at h
      · cases h
      next hbody =>
      cases h
      cases tokens with
      | nil => cases hname
      | cons t ts =>
        cases ts with
        | nil => cases hopen
        | cons o within =>
          obtain ⟨names, ps, c, hnames, rfl, hc, hps, hnamesNe, he, hnodup, -⟩ :=
            exists_of_readParameters hparameters
          rw [List.nil_append] at hnames
          subst hnames
          refine ⟨t :: o :: ps ++ [c], ⟨.assign, span⟩, by simp, ?_, rfl, ?_, ⟨hne, he, hnodup, hnamesNe⟩⟩
          · rw [kinds_head, ← hps]
            simp [parenKinds, Option.some.inj hname, Option.some.inj hopen, hc]
          · rintro rfl
            exact hbody rfl
    · cases h
  · cases h

/-- What looks like a call with the parameters as arguments is read as the name and the parameters. -/
theorem readHeader_eq_ok {name : Char} {hs body : List Token} {s : Token}
    (hadmissible : Admissible name parameters) (hhead : hs.map (·.kind) = (head name parameters).kinds)
    (hassign : s.kind = .assign) (hbody : body ≠ []) :
    readHeader (hs ++ s :: body) = .ok ⟨name, parameters, body⟩ := by
  rw [kinds_head] at hhead
  obtain ⟨t, within, rfl, ht, hwithin⟩ := List.map_eq_cons_iff.1 hhead
  obtain ⟨o, ps, c, rfl, ho, hc, hps⟩ := exists_of_lastGroup hwithin
  have hzero : kindAt (t :: (o :: ps ++ [c]) ++ s :: body) 0 = some (.letter name) :=
    congrArg some ht
  have hone : kindAt (t :: (o :: ps ++ [c]) ++ s :: body) 1 = some .openParen := congrArg some ho
  have htwo : (t :: (o :: ps ++ [c]) ++ s :: body).drop 2 = ps ++ c :: s :: body := by simp
  obtain ⟨kind, span⟩ := s
  obtain rfl : kind = .assign := hassign
  obtain ⟨index, hread⟩ := @readParameters_eq_ok (t :: (o :: ps ++ [c]) ++ ⟨.assign, span⟩ :: body)
    (⟨.assign, span⟩ :: body) [] 2 parameters ps c hc hps hadmissible.ne_nil
    hadmissible.parameters_ne hadmissible.nodup fun p _ => List.not_mem_nil
  rw [readHeader, hzero, hone, htwo, hread]
  simp [hbody, hadmissible.name_ne]

/-- A definition of a function is read as a call with an equals sign and a body behind it. -/
theorem read_eq_some {d : FunctionDefinition} : read tokens = some d ↔ ∃ hs s body e,
    tokens = hs ++ s :: body ∧ hs.map (·.kind) = (head d.name d.parameters).kinds ∧ s.kind = .assign ∧
      Expression.read body = some e ∧ Admissible d.name d.parameters ∧
        d = make d.name d.parameters e := by
  constructor
  · intro h
    unfold read at h
    split at h
    · cases h
    next header hheader =>
    obtain ⟨e, hbody, rfl⟩ := Option.map_eq_some_iff.1 h
    obtain ⟨hs, s, htokens, hhead, hassign, -, hadmissible⟩ := exists_of_readHeader hheader
    exact ⟨hs, s, header.body, e, htokens, hhead, hassign, hbody, hadmissible, rfl⟩
  · rintro ⟨hs, s, body, e, rfl, hhead, hassign, hbody, hadmissible, hd⟩
    have hne : body ≠ [] := by
      rintro rfl
      cases hbody
    rw [read, readHeader_eq_ok hadmissible hhead hassign hne]
    simp only [hbody]
    rw [hd]
    rfl

end FunctionDefinition

end ImplicitCurves

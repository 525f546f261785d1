import ImplicitCurves.Proofs.Notation.Produced

/-!
# Tokens as they are written

Among the tokens of a tree is no division sign and no equals sign, and exponents and the bases of
logarithms stand in braces.  A factor that is read from such tokens, and in which no more parentheses are written than
there are, is read as it is written: main statement `Factor.Parsed.written`.
-/

namespace ImplicitCurves

/-- Whether only a group in braces is written behind the token. -/
def TokenKind.wantsBrace : TokenKind → Bool
  | caret | logBase => true
  | _ => false

/-- Whether the token is written in expressions.  Divisions are written as fractions. -/
def TokenKind.isWritten : TokenKind → Bool
  | div | assign => false
  | _ => true

/-- There is no division sign and no equals sign, and exponents and the bases of logarithms stand in
braces. -/
structure Tidy (ks : List TokenKind) : Prop where
  written : ∀ k ∈ ks, k.isWritten = true
  braced : ks.IsChain fun k k' => k.wantsBrace = true → k' = .openCurly

namespace Tidy

variable {k k' : TokenKind} {ks ks' front rest : List TokenKind}

theorem nil : Tidy [] :=
  ⟨fun _ hk => absurd hk List.not_mem_nil, .nil⟩

theorem cons (h : Tidy ks) (hk : k.isWritten = true)
    (hbrace : k.wantsBrace = true → ks.head? = some .openCurly) : Tidy (k :: ks) := by
  refine ⟨List.forall_mem_cons.2 ⟨hk, h.written⟩, List.isChain_cons.2 ⟨?_, h.braced⟩⟩
  intro k' hk' hwants
  have hhead := (hbrace hwants).symm.trans hk'
  exact (Option.some.inj hhead).symm

theorem of_isInfix (h : Tidy ks) (hwithin : ks' <:+: ks) : Tidy ks' := by
  refine ⟨fun k hk => h.written k (hwithin.subset hk), ?_⟩
  obtain ⟨front, rest, rfl⟩ := hwithin
  exact h.braced.left_of_append.right_of_append

theorem eq_openCurly (h : Tidy (front ++ k :: k' :: rest)) (hk : k.wantsBrace = true) : k' = .openCurly :=
  (List.isChain_append_cons_cons.1 h.braced).2.1 hk

end Tidy

/-- The tokens can be written in front of tidy ones. -/
def StaysTidy (ks : List TokenKind) : Prop :=
  ∀ rest, Tidy rest → Tidy (ks ++ rest)

namespace StaysTidy

variable {k : TokenKind} {ks ks' : List TokenKind}

theorem nil : StaysTidy [] :=
  fun _ hrest => hrest

theorem append (h : StaysTidy ks) (h' : StaysTidy ks') : StaysTidy (ks ++ ks') := by
  intro rest hrest
  rw [List.append_assoc]
  exact h _ (h' rest hrest)

theorem cons (h : StaysTidy ks) (hk : k.isWritten = true) (hbrace : k.wantsBrace = false) :
    StaysTidy (k :: ks) := by
  intro rest hrest
  refine (h rest hrest).cons hk fun hwants => ?_
  exact absurd (hbrace.symm.trans hwants) Bool.false_ne_true

theorem one (hk : k.isWritten = true) (hbrace : k.wantsBrace = false) : StaysTidy [k] :=
  nil.cons hk hbrace

theorem paren (h : StaysTidy ks) : StaysTidy (parenKinds ks) :=
  (h.cons (k := .openParen) rfl rfl).append (one rfl rfl)

theorem brace (h : StaysTidy ks) : StaysTidy (braceKinds ks) :=
  (h.cons (k := .openCurly) rfl rfl).append (one rfl rfl)

/-- A group in braces can be written behind anything. -/
theorem cons_brace (h : StaysTidy ks) (hk : k.isWritten = true) : StaysTidy (k :: braceKinds ks) := by
  intro rest hrest
  exact (h.brace rest hrest).cons hk fun _ => rfl

end StaysTidy

section Trees

theorem staysTidy_arguments {es : List Expression} (h : ∀ e ∈ es, StaysTidy e.kinds) (first : Bool) :
    StaysTidy (kindsOfArguments first es) := by
  induction es generalizing first with
  | nil => exact .nil
  | cons e es ih =>
    obtain ⟨he, hes⟩ := List.forall_mem_cons.1 h
    refine .append (.append ?_ he) (ih hes false)
    cases first
    · exact .one rfl rfl
    · exact .nil

theorem Factor.staysTidy {f : Factor} (h : ∀ e ∈ f.children, StaysTidy e.kinds) : StaysTidy f.kinds := by
  cases f with
  | number x => exact .one rfl rfl
  | constant c => cases c <;> exact .one rfl rfl
  | «variable» name bound => exact .one rfl rfl
  | fraction a b =>
    have ha := h a List.mem_cons_self
    have hb := h b (List.mem_cons_of_mem _ List.mem_cons_self)
    exact (ha.cons_brace (k := .frac) rfl).append hb.brace
  | power base exponent =>
    have hbase := h base List.mem_cons_self
    have hexponent := h exponent (List.mem_cons_of_mem _ List.mem_cons_self)
    exact hbase.append (hexponent.cons_brace (k := .caret) rfl)
  | bracket a => exact (h a List.mem_cons_self).paren
  | unary f a => exact (h a List.mem_cons_self).paren.cons rfl rfl
  | logarithm base antilog =>
    have hbase := h base List.mem_cons_self
    have hantilog := h antilog (List.mem_cons_of_mem _ List.mem_cons_self)
    exact (hbase.cons_brace (k := .logBase) rfl).append hantilog.paren
  | call name arguments link => exact (staysTidy_arguments h true).paren.cons rfl rfl

theorem staysTidy_factors {fs : List Factor} (h : ∀ f ∈ fs, StaysTidy f.kinds) (previous : Option Factor) :
    StaysTidy (kindsOfFactors previous fs) := by
  induction fs generalizing previous with
  | nil => exact .nil
  | cons f fs ih =>
    obtain ⟨hf, hfs⟩ := List.forall_mem_cons.1 h
    refine .append (.append ?_ hf) (ih hfs (some f))
    unfold separatorKinds
    split
    · exact .one rfl rfl
    · exact .nil

theorem staysTidy_items {is : List Item} (h : ∀ i ∈ is, ∀ f ∈ i.factors, StaysTidy f.kinds)
    (first : Bool) : StaysTidy (kindsOfItems first is) := by
  induction is generalizing first with
  | nil => exact .nil
  | cons i is ih =>
    obtain ⟨hi, his⟩ := List.forall_mem_cons.1 h
    obtain ⟨positive, factors⟩ := i
    refine .append (.append ?_ (staysTidy_factors hi none)) (ih his false)
    cases first <;> cases positive
    · exact .one rfl rfl
    · exact .one rfl rfl
    · exact .one rfl rfl
    · exact .nil

/-- The tokens of a tree are tidy. -/
theorem Expression.tidy_kinds (e : Expression) : Tidy e.kinds := by
  have hstays : StaysTidy e.kinds := by
    have hall := everywhere_of_forall (fun _ => trivial) e
    induction hall with
    | intro here inside ih =>
      exact staysTidy_items (fun i hi f hf => Factor.staysTidy (ih i hi f hf)) true
  have htidy := hstays [] Tidy.nil
  rw [List.append_nil] at htidy
  exact htidy

theorem Expression.assign_not_mem_kinds (e : Expression) : .assign ∉ e.kinds := by
  intro hmem
  exact Bool.false_ne_true (e.tidy_kinds.written _ hmem)

end Trees

namespace Factor

variable {tokens : List Token} {f : Factor}

/-- The argument of a function stands in parentheses, because they are written. -/
theorem ArgumentTokens.exists_paren {as rest : List Token} (h : ArgumentTokens as rest)
    (hparens : parens (as.map (·.kind)) < parens (rest.map (·.kind))) : ∃ o c : Token,
      rest = o :: as ++ [c] ∧ o.kind = .openParen ∧ c.kind = .closeParen := by
  cases h with
  | plain _ => exact absurd hparens (Nat.lt_irrefl _)
  | @paren o c ho hc => exact ⟨o, c, rfl, ho, hc⟩

/-- A factor that is no power is read as it is written. -/
theorem Parsed.written_of_not_isPower (h : Parsed Expression.read tokens f) (hpower : f.isPower = false)
    (htidy : Tidy (tokens.map (·.kind)))
    (hsnug : parens (tokens.map (·.kind)) = parens f.bracketed.kinds) : Written tokens f := by
  have hcovers : ∀ {ts : List Token} {e : Expression}, Expression.read ts = some e →
      parens (ts.map (·.kind)) ≤ parens e.bracketed.kinds := Expression.covers_of_read
  rw [Factor.parens_bracketed] at hsnug
  cases h with
  | number ht => exact .number ht
  | «variable» ht hname => exact .variable ht hname
  | pi ht => exact .constant (c := .pi) ht
  | e ht => exact .constant (c := .e) ht
  | fraction hs ho hc ho' hc' ha hb => exact .fraction hs ho hc ho' hc' ha hb
  | power => exact absurd hpower.symm Bool.false_ne_true
  | call ht hname ho hc harguments => exact .call ht hname ho hc harguments
  | @bracket o c as a ho ha =>
    cases hk : o.kind with
    | openParen =>
      rw [hk] at ho
      exact .bracket hk (Option.some.inj ho).symm ha
    | openCurly =>
      rw [hk] at ho
      have hc : c.kind = .closeCurly := (Option.some.inj ho).symm
      have hle := hcovers ha
      simp [hk, hc, parens_cons_of_ne, children, ownParens] at hsnug
      omega
    | _ =>
      rw [hk] at ho
      cases ho
  | @unary t f rest as a ht hrest ha =>
    have hle := hcovers ha
    simp [ht, parens_cons_of_ne, children, ownParens] at hsnug
    obtain ⟨o, c, rfl, ho, hc⟩ := hrest.exists_paren (by omega)
    exact .unary ht ho hc ha
  | @logarithm t o c bases rest as base a ht ho hc hrest hbase ha =>
    have hle := hcovers hbase
    have hle' := hcovers ha
    simp [ht, ho, hc, parens_cons_of_ne, children, ownParens] at hsnug
    obtain ⟨o', c', rfl, ho', hc'⟩ := hrest.exists_paren (by omega)
    have hwritten : Written (t :: o :: bases ++ c :: o' :: as ++ [c']) (.logarithm base a) :=
      .logarithm ht ho hc ho' hc' hbase ha
    simpa using hwritten
  | @logarithmOfToken t u rest as base a ht hrest hbase ha =>
    have hwants : t.kind.wantsBrace = true := by rw [ht]; rfl
    have hbrace : u.kind = .openCurly := @Tidy.eq_openCurly _ _ [] _ htidy hwants
    exact absurd hbase (Expression.read_openCurly hbrace base)

/-- Outside of the groups of a factor that is no power stands no caret. -/
theorem Written.level (h : Written tokens f) (hpower : f.isPower = false) :
    Level TokenKind.inFactor (tokens.map (·.kind)) := by
  have hparen : ∀ {o c : Token} {ts : List Token}, o.kind = .openParen → c.kind = .closeParen →
      Token.AllComplete ts → Level TokenKind.inFactor ((o :: ts ++ [c]).map (·.kind)) :=
    fun ho hc => level_group (closer_paren ho hc)
  have hbrace : ∀ {o c : Token} {ts : List Token} {e : Expression}, o.kind = .openCurly →
      c.kind = .closeCurly → Expression.read ts = some e →
        Level TokenKind.inFactor ((o :: ts ++ [c]).map (·.kind)) :=
    fun ho hc he => level_group (closer_brace ho hc) (Expression.complete_of_read he)
  cases h with
  | number ht | «variable» ht _ => exact .of_token ht rfl
  | @constant t c ht => cases c <;> exact .of_token ht rfl
  | fraction hs ho hc ho' hc' ha hb =>
    have hgroups := (hbrace ho hc ha).append (hbrace ho' hc' hb)
    rw [← List.map_append] at hgroups
    simpa using hgroups.cons_token hs rfl
  | power => exact absurd hpower.symm Bool.false_ne_true
  | bracket ho hc ha => exact hparen ho hc (Expression.complete_of_read ha)
  | unary ht ho hc ha => exact (hparen ho hc (Expression.complete_of_read ha)).cons_token ht rfl
  | logarithm ht ho hc ho' hc' hbase ha =>
    have hgroups := (hbrace ho hc hbase).append (hparen ho' hc' (Expression.complete_of_read ha))
    rw [← List.map_append] at hgroups
    simpa using hgroups.cons_token ht rfl
  | call ht hname ho hc harguments =>
    have hwithin := complete_of_arguments harguments fun _ _ => Expression.complete_of_read
    exact (hparen ho hc hwithin).cons_token ht rfl

/-- A factor is read as it is written if the tokens are tidy and no more parentheses are written than
there are. -/
theorem Parsed.written (h : Parsed Expression.read tokens f) (hinline : Inline tokens)
    (htidy : Tidy (tokens.map (·.kind)))
    (hsnug : parens (tokens.map (·.kind)) = parens f.bracketed.kinds) : Written tokens f := by
  by_cases hpower : f.isPower = true
  · cases h with
    | @power t bases rest exponents base exponent hcaret ht hrest hbase hexponent =>
      have hbraced : ∃ o c : Token, rest = o :: exponents ++ [c] ∧ o.kind = .openCurly ∧
          c.kind = .closeCurly := by
        have hwants : t.kind.wantsBrace = true := by rw [ht]; rfl
        have hfirst : ∀ {u : Token} {us : List Token}, rest = u :: us → u.kind = .openCurly := by
          rintro u us rfl
          rw [List.map_append] at htidy
          exact htidy.eq_openCurly hwants
        cases hrest with
        | @single u => exact absurd hexponent (Expression.read_openCurly (hfirst rfl) exponent)
        | paren ho _ => exact absurd (ho.symm.trans (hfirst rfl)) (by decide)
        | @brace o c _ ho hc => exact ⟨o, c, rfl, ho, hc⟩
      obtain ⟨o, c, rfl, ho, hc⟩ := hbraced
      have hle := Expression.covers_of_read hbase
      have hle' := Expression.covers_of_read hexponent
      rw [Factor.parens_bracketed] at hsnug
      simp only [Expression.Covers] at hle hle'
      simp [ht, ho, hc, parens_cons_of_ne, children, ownParens] at hsnug
      have hfactor : base.isFactor = true := by
        by_contra hno
        rw [if_neg hno] at hsnug
        omega
      obtain ⟨g, rfl⟩ := Expression.isFactor_iff.1 hfactor
      have hbasesInline := hinline.of_append_left
      have hg := Expression.readWith_of_read_ofFactor hbasesInline hbase
      have hgPower := isPower_base hcaret hg
      have hbasesTidy : Tidy (bases.map (·.kind)) :=
        htidy.of_isInfix ((List.prefix_append _ _).map _).isInfix
      have hgSnug : parens (bases.map (·.kind)) = parens g.bracketed.kinds := by
        rw [Expression.bracketed_ofFactor, Expression.kinds_ofFactor] at hle hsnug
        rw [if_pos hfactor] at hsnug
        omega
      have hwritten := (parsed_of_readWith hg).written_of_not_isPower hgPower hbasesTidy hgSnug
      have hall : Written (bases ++ t :: o :: exponents ++ [c]) (.power (.ofFactor g) exponent) :=
        .power hwritten hgPower (hwritten.level hgPower) ht ho hc hbase hexponent
      simpa using hall
    | _ => exact absurd hpower Bool.false_ne_true
  · rw [Bool.not_eq_true] at hpower
    exact h.written_of_not_isPower hpower htidy hsnug

end Factor

end ImplicitCurves

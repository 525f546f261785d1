import ImplicitCurves.Proofs.Notation.Kinds

/-!
# What is written

The text of a tree is cut into the tokens of the tree: main statement
`Expression.exists_tokens_text`.  Apart from blanks it consists of the spellings of these tokens,
and no two of them run into each other.
-/

namespace ImplicitCurves

/-- Apart from blanks, the text consists of the spellings of tokens. -/
structure Spells (cs : List Char) (ks : List TokenKind) : Prop where
  chars : (cs.filter fun c => !Text.isBlank c) = ks.flatMap TokenKind.spelled
  spellable : ∀ k ∈ ks, k.Spellable

theorem spells_nil : Spells [] [] :=
  ⟨rfl, fun _ h => absurd h List.not_mem_nil⟩

theorem Spells.append {cs cs' : List Char} {ks ks' : List TokenKind} (h : Spells cs ks)
    (h' : Spells cs' ks') : Spells (cs ++ cs') (ks ++ ks') := by
  constructor
  · rw [List.filter_append, List.flatMap_append, h.chars, h'.chars]
  · intro k hk
    rcases List.mem_append.1 hk with hk | hk
    · exact h.spellable k hk
    · exact h'.spellable k hk

/-- A text that spells one token. -/
theorem spells_one {cs : List Char} {k : TokenKind} (hk : k.Spellable)
    (h : (cs.filter fun c => !Text.isBlank c) = k.spelled) : Spells cs [k] := by
  constructor
  · rw [h, List.flatMap_singleton]
  · intro k' hk'
    rw [List.mem_singleton.1 hk']
    exact hk

theorem Spells.parenthesized {cs : List Char} {ks : List TokenKind} (h : Spells cs ks) :
    Spells (parenthesized cs) (parenKinds ks) := by
  have hopen : Spells ['('] [.openParen] := spells_one trivial (by decide)
  have hclose : Spells [')'] [.closeParen] := spells_one trivial (by decide)
  exact (hopen.append h).append hclose

theorem Spells.braced {cs : List Char} {ks : List TokenKind} (h : Spells cs ks) :
    Spells (braced cs) (braceKinds ks) := by
  have hopen : Spells ['{'] [.openCurly] := spells_one trivial (by decide)
  have hclose : Spells ['}'] [.closeCurly] := spells_one trivial (by decide)
  exact (hopen.append h).append hclose

theorem filter_eq_self_of_digits {cs : List Char}
    (h : ∀ c ∈ cs, Decimal.isDigit c = true ∨ c = '.') :
    (cs.filter fun c => !Text.isBlank c) = cs := by
  rw [List.filter_eq_self]
  intro c hc
  rcases h c hc with hdigit | rfl
  · simp only [Decimal.isDigit, Bool.and_eq_true, decide_eq_true_eq, Char.le_def,
      UInt32.le_iff_toNat_le] at hdigit
    have hzero : '0'.val.toNat = 48 := rfl
    have hnine : '9'.val.toNat = 57 := rfl
    have hvalue : c.toNat = c.val.toNat := rfl
    simp only [Text.isBlank, Text.blankRanges, List.any_cons, List.any_nil, Bool.or_false,
      Bool.not_eq_true', Bool.or_eq_false_iff, Bool.and_eq_false_iff, decide_eq_false_iff_not]
    omega
  · decide

theorem filter_letter {c : Char} (h : c.isAlpha = true) :
    ([c].filter fun c => !Text.isBlank c) = [c] := by
  rw [List.filter_eq_self]
  intro c' hc
  obtain rfl := List.mem_singleton.1 hc
  have hletter := TokenKind.toNat_of_isAlpha h
  simp only [Text.isBlank, Text.blankRanges, List.any_cons, List.any_nil, Bool.or_false,
    Bool.not_eq_true', Bool.or_eq_false_iff, Bool.and_eq_false_iff, decide_eq_false_iff_not]
  omega

/-- A number that reads back is written with digits and a point. -/
theorem Decimal.ReadsBack.isDigit_of_mem {x : Float} (h : ReadsBack x) :
    ∀ c ∈ text x, isDigit c = true ∨ c = '.' := by
  obtain ⟨whole, fraction, -, hwhole, hfraction, htext, -⟩ := h.exists_numeral
  intro c hc
  rw [htext, numeral] at hc
  split at hc
  · exact .inl (hwhole c hc)
  · rcases List.mem_append.1 hc with hc | hc
    · exact .inl (hwhole c hc)
    · rcases List.mem_cons.1 hc with hc | hc
      · exact .inr hc
      · exact .inl (hfraction c hc)

/-- A number that reads back has no sign, and it is one. -/
theorem Decimal.ReadsBack.isNaN_and_isNegative {x : Float} (h : ReadsBack x) :
    x.isNaN = false ∧ isNegative x = false := by
  have hnumber : x.isNaN = false := by
    rw [← Bool.not_eq_true]
    intro hnan
    have htext : text x = "NaN".toList := by
      rw [text, hnan, Bool.not_true, Bool.and_false, if_neg Bool.false_ne_true, magnitudeText,
        if_pos hnan]
    have hletter := h.isDigit_of_mem 'N' (by rw [htext]; decide)
    exact absurd hletter (by decide)
  refine ⟨hnumber, ?_⟩
  rw [← Bool.not_eq_true]
  intro hnegative
  have htext : text x = '-' :: magnitudeText x := by
    rw [text, hnegative, hnumber]
    rfl
  have hminus := h.isDigit_of_mem '-' (by rw [htext]; exact List.mem_cons_self)
  exact absurd hminus (by decide)

theorem numberText_of_readsBack {x : Float} (h : Decimal.ReadsBack x) : numberText x = Decimal.text x := by
  rw [numberText, h.isNaN_and_isNegative.2, Bool.false_and, if_neg Bool.false_ne_true]

theorem spells_number {x : Float} (h : Decimal.ReadsBack x) : Spells (numberText x) [.number x] := by
  refine spells_one h ?_
  rw [numberText_of_readsBack h, filter_eq_self_of_digits h.isDigit_of_mem]
  rfl

theorem spells_letter {c : Char} (h : c.isAlpha = true) : Spells [c] [.letter c] :=
  spells_one h (filter_letter h)

theorem spells_constant (c : NamedConstant) : Spells c.text [c.kind] := by
  cases c with
  | e => exact spells_letter (by decide)
  | pi => exact spells_one trivial (by decide)

theorem spells_command (f : UnaryFunction) : Spells f.command [.function f] := by
  refine spells_one trivial ?_
  cases f <;> decide

/-- The blank that is written behind the command for pi does not count. -/
theorem spells_separator (f g : Factor) :
    Spells (separator f g) (separatorKinds (some f) g) := by
  have hmul : Spells "\\cdot ".toList [.mul] := spells_one trivial (by decide)
  have hblank : Spells [' '] [] := ⟨by decide, fun _ h => absurd h List.not_mem_nil⟩
  unfold separator
  split
  · exact hmul
  · exact hmul
  · exact hmul
  · exact hblank
  · exact hblank
  · exact hblank
  · have hno : needsMul f g = false := by
      unfold needsMul
      split <;> grind
    rw [separatorKinds, Option.any_some, hno]
    exact spells_nil

theorem spells_sign (first positive : Bool) :
    Spells (signText first positive) (signKinds first positive) := by
  cases first <;> cases positive
  · exact spells_one trivial (by decide)
  · exact spells_one trivial (by decide)
  · exact spells_one trivial (by decide)
  · exact spells_nil

section Trees

variable {e : Expression} {f : Factor}

theorem spells_arguments {es : List Expression} (h : ∀ e ∈ es, Spells e.text e.kinds)
    (first : Bool) : Spells (textOfArguments first es) (kindsOfArguments first es) := by
  induction es generalizing first with
  | nil => exact spells_nil
  | cons e es ih =>
    obtain ⟨he, hes⟩ := List.forall_mem_cons.1 h
    have hcomma : Spells (if first = true then [] else [','])
        (if first = true then [] else [.comma]) := by
      cases first
      · exact spells_one trivial (by decide)
      · exact spells_nil
    exact (hcomma.append he).append (ih hes false)

/-- A factor is written as it should be if the expressions inside it are. -/
theorem Factor.spells (hf : f.WellFormed) (h : ∀ e ∈ f.children, Spells e.text e.kinds) :
    Spells f.text f.kinds := by
  cases f with
  | number x => exact spells_number hf
  | constant c => exact spells_constant c
  | «variable» name bound => exact spells_letter hf.1.1
  | fraction a b =>
    have ha := h a List.mem_cons_self
    have hb := h b (List.mem_cons_of_mem _ List.mem_cons_self)
    have hfrac : Spells "\\frac".toList [.frac] := spells_one trivial (by decide)
    exact (hfrac.append ha.braced).append hb.braced
  | power base exponent =>
    have hbase := h base List.mem_cons_self
    have hexponent := h exponent (List.mem_cons_of_mem _ List.mem_cons_self)
    have hcaret : Spells ['^'] [.caret] := spells_one trivial (by decide)
    obtain ⟨f, rfl, -⟩ := hf
    have htext : (Expression.ofFactor f).baseText = (Expression.ofFactor f).text := by
      simp [Expression.ofFactor, Expression.baseText, Expression.text, textOfItems,
        Item.factorsText, textOfFactors, signText]
    have hpower := hbase.append (hcaret.append hexponent.braced)
    rw [← htext] at hpower
    exact hpower
  | bracket a => exact (h a List.mem_cons_self).parenthesized
  | unary f a => exact (spells_command f).append (h a List.mem_cons_self).parenthesized
  | logarithm base antilog =>
    have hbase := h base List.mem_cons_self
    have hantilog := h antilog (List.mem_cons_of_mem _ List.mem_cons_self)
    have hlog : Spells "\\log_".toList [.logBase] := spells_one trivial (by decide)
    exact (hlog.append hbase.braced).append hantilog.parenthesized
  | call name arguments link =>
    exact (spells_letter hf.1.1).append (spells_arguments h true).parenthesized

theorem spells_factors {fs : List Factor} (h : ∀ f ∈ fs, Spells f.text f.kinds)
    (previous : Option Factor) :
    Spells (textOfFactors previous fs) (kindsOfFactors previous fs) := by
  induction fs generalizing previous with
  | nil => exact spells_nil
  | cons f fs ih =>
    obtain ⟨hf, hfs⟩ := List.forall_mem_cons.1 h
    refine Spells.append (Spells.append ?_ hf) (ih hfs (some f))
    cases previous with
    | none => exact spells_nil
    | some p => exact spells_separator p f

theorem spells_items {is : List Item} (h : ∀ i ∈ is, ∀ f ∈ i.factors, Spells f.text f.kinds)
    (first : Bool) : Spells (textOfItems first is) (kindsOfItems first is) := by
  induction is generalizing first with
  | nil => exact spells_nil
  | cons i is ih =>
    obtain ⟨hi, his⟩ := List.forall_mem_cons.1 h
    obtain ⟨positive, factors⟩ := i
    exact ((spells_sign first positive).append (spells_factors hi none)).append (ih his false)

/-- The text of a tree spells the tokens of the tree. -/
theorem Expression.spells (h : e.Everywhere WellFormed) : Spells e.text e.kinds := by
  induction h with
  | @intro items here inside ih =>
    obtain ⟨hne, hitems⟩ := here
    have htext : Expression.text ⟨items⟩ = textOfItems true items := by
      rw [Expression.text, if_neg (by simpa using hne)]
    rw [htext]
    exact spells_items (fun i hi f hf => Factor.spells ((hitems i hi).2 f hf) (ih i hi f hf)) true

end Trees

/-- No token runs into the one behind it. -/
def Apart (ks : List TokenKind) : Prop :=
  ks.IsChain fun k k' => k.keepsApart k' = true

/-- The tokens do not start with a number. -/
def NoNumberFirst (ks : List TokenKind) : Prop :=
  ∀ x, ks.head? ≠ some (.number x)

theorem Apart.cons {k : TokenKind} {ks : List TokenKind} (h : Apart ks)
    (hk : ∀ k', k.keepsApart k' = true) : Apart (k :: ks) :=
  List.isChain_cons.2 ⟨fun k' _ => hk k', h⟩

/-- The tokens can be written in front of tokens that do not start with a number. -/
def StaysApart (ks : List TokenKind) : Prop :=
  ∀ rest, Apart rest → NoNumberFirst rest → Apart (ks ++ rest)

/-- Anything can stand behind a group. -/
theorem StaysApart.paren {ks rest : List TokenKind} (h : StaysApart ks) (hrest : Apart rest) :
    Apart (parenKinds ks ++ rest) := by
  have hclose : Apart (.closeParen :: rest) := hrest.cons fun _ => rfl
  have hinner := h _ hclose fun x hx => by simp at hx
  rw [parenKinds, List.append_assoc]
  exact hinner.cons fun _ => rfl

theorem StaysApart.brace {ks rest : List TokenKind} (h : StaysApart ks) (hrest : Apart rest) :
    Apart (braceKinds ks ++ rest) := by
  have hclose : Apart (.closeCurly :: rest) := hrest.cons fun _ => rfl
  have hinner := h _ hclose fun x hx => by simp at hx
  rw [braceKinds, List.append_assoc]
  exact hinner.cons fun _ => rfl

section Trees

variable {e : Expression} {f : Factor} {rest : List TokenKind}

/-- Only numbers and powers can start with a number. -/
theorem Factor.noNumberFirst_kinds (hnumber : f.isNumber = false) (hpower : f.isPower = false) :
    NoNumberFirst (f.kinds ++ rest) := by
  intro x hx
  cases f with
  | number y => exact absurd hnumber.symm Bool.false_ne_true
  | power base exponent => exact absurd hpower.symm Bool.false_ne_true
  | constant c => cases c <;> exact absurd (Option.some.inj hx) (by simp [NamedConstant.kind])
  | _ => simp [Factor.kinds, parenKinds] at hx

theorem staysApart_arguments {es : List Expression} (h : ∀ e ∈ es, StaysApart e.kinds)
    (first : Bool) : StaysApart (kindsOfArguments first es) := by
  induction es generalizing first with
  | nil => exact fun rest hrest _ => hrest
  | cons e es ih =>
    intro rest hrest hfirst
    obtain ⟨he, hes⟩ := List.forall_mem_cons.1 h
    have hnext : NoNumberFirst (kindsOfArguments false es ++ rest) := by
      cases es with
      | nil => exact hfirst
      | cons e' es => exact fun x hx => by simp [kindsOfArguments] at hx
    have happart := he _ (ih hes false rest hrest hfirst) hnext
    rw [kindsOfArguments, List.append_assoc, List.append_assoc]
    cases first
    · exact happart.cons fun _ => rfl
    · exact happart

/-- A number must not stand in front of a number, and nothing else matters behind a factor. -/
theorem Factor.apart_kinds (h : ∀ e ∈ f.children, StaysApart e.kinds) (hrest : Apart rest)
    (hfirst : f.isNumber = true → NoNumberFirst rest) : Apart (f.kinds ++ rest) := by
  cases f with
  | number x =>
    refine List.isChain_cons.2 ⟨fun k hk => ?_, hrest⟩
    cases k with
    | number y => exact absurd hk (hfirst rfl y)
    | _ => rfl
  | constant c => cases c <;> exact hrest.cons fun _ => rfl
  | «variable» name bound => exact hrest.cons fun _ => rfl
  | fraction a b =>
    have ha := h a List.mem_cons_self
    have hb := h b (List.mem_cons_of_mem _ List.mem_cons_self)
    have hparts := ha.brace (hb.brace hrest)
    rw [← List.append_assoc] at hparts
    exact hparts.cons fun _ => rfl
  | power base exponent =>
    have hbase := h base List.mem_cons_self
    have hexponent := h exponent (List.mem_cons_of_mem _ List.mem_cons_self)
    have hcaret : Apart (.caret :: (braceKinds exponent.kinds ++ rest)) :=
      (hexponent.brace hrest).cons fun _ => rfl
    rw [Factor.kinds, List.append_assoc]
    exact hbase _ hcaret fun x hx => by simp at hx
  | bracket a => exact (h a List.mem_cons_self).paren hrest
  | unary f a =>
    refine List.isChain_cons.2 ⟨fun k hk => ?_, (h a List.mem_cons_self).paren hrest⟩
    obtain rfl := Option.some.inj hk
    rfl
  | logarithm base antilog =>
    have hbase := h base List.mem_cons_self
    have hantilog := h antilog (List.mem_cons_of_mem _ List.mem_cons_self)
    have hparts := hbase.brace (hantilog.paren hrest)
    rw [← List.append_assoc] at hparts
    exact hparts.cons fun _ => rfl
  | call name arguments link =>
    exact ((staysApart_arguments h true).paren hrest).cons fun _ => rfl

theorem staysApart_factors {fs : List Factor} (h : ∀ f ∈ fs, ∀ e ∈ f.children, StaysApart e.kinds)
    (hspaced : fs.IsChain fun f g => (f.isPlain && g.isPower) = false) (previous : Option Factor) :
    StaysApart (kindsOfFactors previous fs) := by
  induction fs generalizing previous with
  | nil => exact fun rest hrest _ => hrest
  | cons f fs ih =>
    intro rest hrest hfirst
    obtain ⟨hf, hfs⟩ := List.forall_mem_cons.1 h
    have hnext : f.isNumber = true → NoNumberFirst (kindsOfFactors (some f) fs ++ rest) := by
      intro hnumber
      cases fs with
      | nil => exact hfirst
      | cons g gs =>
        have hg := (List.isChain_cons_cons.1 hspaced).1
        have hplain : f.isPlain = true := by
          cases f <;> first | rfl | exact absurd hnumber Bool.false_ne_true
        rw [hplain, Bool.true_and] at hg
        rw [kindsOfFactors, List.append_assoc, List.append_assoc]
        by_cases hmul : needsMul f g = true
        · rw [separatorKinds, Option.any_some, if_pos hmul]
          exact fun x hx => by simp at hx
        · rw [separatorKinds, Option.any_some, if_neg hmul]
          refine g.noNumberFirst_kinds ?_ hg
          cases g with
          | number y => exact absurd rfl hmul
          | _ => rfl
    have happart := Factor.apart_kinds hf (ih hfs hspaced.tail (some f) rest hrest hfirst) hnext
    rw [kindsOfFactors, List.append_assoc, List.append_assoc]
    unfold separatorKinds
    split
    · exact happart.cons fun _ => rfl
    · exact happart

theorem staysApart_items {is : List Item}
    (h : ∀ i ∈ is, ∀ f ∈ i.factors, ∀ e ∈ f.children, StaysApart e.kinds)
    (hspaced : ∀ i ∈ is, i.Spaced) (first : Bool) : StaysApart (kindsOfItems first is) := by
  induction is generalizing first with
  | nil => exact fun rest hrest _ => hrest
  | cons i is ih =>
    intro rest hrest hfirst
    obtain ⟨hi, his⟩ := List.forall_mem_cons.1 h
    obtain ⟨hspace, hspaces⟩ := List.forall_mem_cons.1 hspaced
    have hnext : NoNumberFirst (kindsOfItems false is ++ rest) := by
      cases is with
      | nil => exact hfirst
      | cons i' is =>
        intro x hx
        cases hpositive : i'.positive <;> simp [kindsOfItems, signKinds, hpositive] at hx
    obtain ⟨positive, factors⟩ := i
    have happart := staysApart_factors hi hspace none _ (ih his hspaces false rest hrest hfirst) hnext
    rw [kindsOfItems, Item.factorKinds, List.append_assoc, List.append_assoc]
    cases first <;> cases positive
    · exact happart.cons fun _ => rfl
    · exact happart.cons fun _ => rfl
    · exact happart.cons fun _ => rfl
    · exact happart

/-- No token of a tree runs into the one behind it. -/
theorem Expression.staysApart (h : e.Everywhere fun e => ∀ i ∈ e.items, i.Spaced) :
    StaysApart e.kinds := by
  induction h with
  | intro here inside ih => exact staysApart_items ih here true

/-- The text of a tree is cut into the tokens of the tree. -/
theorem Expression.exists_tokens_text (h : e.Writable) :
    ∃ tokens, tokenize e.text = .ok tokens ∧ tokens.map (·.kind) = e.kinds := by
  have hspells := Expression.spells h.wellFormed
  have happart := Expression.staysApart (h.imp fun _ h => h.2) [] List.isChain_nil
    fun x hx => by simp at hx
  rw [List.append_nil] at happart
  exact tokenize_eq_ok hspells.chars hspells.spellable happart

end Trees

end ImplicitCurves

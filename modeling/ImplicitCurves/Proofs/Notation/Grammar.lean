import ImplicitCurves.Parser.Nesting
import ImplicitCurves.Proofs.Notation.Kinds
import Mathlib.Data.List.Forall2

/-!
# What the readers accept

The tokens that each reader accepts, and what it makes of them, as a grammar.  Only the order in
which the readers are tried is left out, and that a factor is as long as it can be is a part of
reading the factors of an item: main statements `Factor.parsed_of_readWith`,
`Item.readFactors_eq_some` and `Expression.readWith_eq_some`.
-/

namespace ImplicitCurves

/-- The delimiter that is found closes a group of which the first token was the opening one. -/
theorem exists_of_closeFrom {closer : TokenKind} {depth index stop : Nat} {ts : List Token}
    (h : closeFrom closer depth index ts = some stop) : ∃ inner c rest,
      ts = inner ++ c :: rest ∧ c.kind = closer ∧ stop = index + inner.length := by
  induction ts generalizing depth index with
  | nil => exact absurd h.symm (Option.some_ne_none _)
  | cons t ts ih =>
    have hskip : ∀ {d : Nat}, closeFrom closer d (index + 1) ts = some stop → ∃ inner c rest,
        t :: ts = inner ++ c :: rest ∧ c.kind = closer ∧ stop = index + inner.length := by
      intro d hd
      obtain ⟨inner, c, rest, rfl, hc, rfl⟩ := ih hd
      refine ⟨t :: inner, c, rest, rfl, hc, ?_⟩
      rw [List.length_cons]
      omega
    rw [closeFrom.eq_def] at h
    dsimp only at h
    split at h
    · exact hskip h
    · split at h
      · split at h
        · exact absurd h.symm (Option.some_ne_none _)
        · split at h
          · next hcloser => exact ⟨[], t, ts, rfl, hcloser, (Option.some.inj h).symm⟩
          · exact absurd h.symm (Option.some_ne_none _)
        · exact hskip h
      · exact hskip h

theorem exists_of_matchingClose {f ts : List Token} {o : Token} {stop : Nat}
    (h : matchingClose (f ++ o :: ts) f.length = some stop) : ∃ inner c rest,
      ts = inner ++ c :: rest ∧ o.kind.closer = some c.kind ∧
        stop = f.length + 1 + inner.length := by
  rw [matchingClose, List.drop_left] at h
  dsimp only at h
  split at h
  · exact absurd h.symm (Option.some_ne_none _)
  · next closer hcloser =>
    obtain ⟨inner, c, rest, hts, hc, hstop⟩ := exists_of_closeFrom h
    exact ⟨inner, c, rest, hts, by rw [hcloser, hc], hstop⟩

/-- A group is closed behind its first token and in the tokens. -/
theorem bounds_of_matchingClose {tokens : List Token} {start stop : Nat}
    (h : matchingClose tokens start = some stop) :
    start < stop ∧ stop < tokens.length := by
  rw [matchingClose] at h
  split at h
  · exact absurd h.symm (Option.some_ne_none _)
  next o ts hdrop =>
  split at h
  · exact absurd h.symm (Option.some_ne_none _)
  · obtain ⟨inner, c, rest, rfl, -, rfl⟩ := exists_of_closeFrom h
    have hlength := congrArg List.length hdrop
    simp only [List.length_drop, List.length_cons, List.length_append] at hlength
    omega

theorem exists_of_closesAtEnd {f ts : List Token} {o : Token}
    (h : closesAtEnd (f ++ o :: ts) f.length = true) :
    ∃ inner c, ts = inner ++ [c] ∧ o.kind.closer = some c.kind := by
  unfold closesAtEnd at h
  split at h
  · next stop hstop =>
    obtain ⟨inner, c, rest, rfl, hc, rfl⟩ := exists_of_matchingClose hstop
    refine ⟨inner, c, ?_, hc⟩
    cases rest with
    | nil => rfl
    | cons t rest =>
      simp at h
      omega
  · exact absurd h Bool.false_ne_true

namespace Factor

/-- Whether the tokens start with an opening parenthesis and end with a closing one. -/
def InParens (ts : List Token) : Prop :=
  ts.head?.map (·.kind) = some .openParen ∧ ts.getLast?.map (·.kind) = some .closeParen

/-- The tokens as which an argument is written.  Parentheses around it are taken off. -/
inductive ArgumentTokens (argument : List Token) : List Token → Prop
  | plain (h : ¬ InParens argument) : ArgumentTokens argument argument
  | paren {o c : Token} (ho : o.kind = .openParen) (hc : c.kind = .closeParen) :
    ArgumentTokens argument (o :: argument ++ [c])

/-- The tokens as which an exponent is written.  Only braces around it are taken off. -/
inductive ExponentTokens : List Token → List Token → Prop
  | single {t : Token} : ExponentTokens [t] [t]
  | paren {o c : Token} {within : List Token} (ho : o.kind = .openParen) (hc : c.kind = .closeParen) :
    ExponentTokens (o :: within ++ [c]) (o :: within ++ [c])
  | brace {o c : Token} {exponent : List Token} (ho : o.kind = .openCurly)
    (hc : c.kind = .closeCurly) : ExponentTokens exponent (o :: exponent ++ [c])

/-- The tokens as which a factor is read, where `inner` reads the expressions inside it. -/
inductive Parsed (inner : Reader) : List Token → Factor → Prop
  | fraction {s o c o' c' : Token} {as bs : List Token} {a b : Expression} (hs : s.kind = .frac)
    (ho : o.kind = .openCurly) (hc : c.kind = .closeCurly) (ho' : o'.kind = .openCurly)
    (hc' : c'.kind = .closeCurly) (ha : inner as = some a) (hb : inner bs = some b) :
    Parsed inner (s :: o :: as ++ c :: o' :: bs ++ [c']) (.fraction a b)
  | power {t : Token} {bases rest exponents : List Token} {base exponent : Expression}
    (hcaret : splitCaret 0 (bases ++ t :: rest) = some (bases, rest)) (ht : t.kind = .caret)
    (hrest : ExponentTokens exponents rest) (hbase : inner bases = some base)
    (hexponent : inner exponents = some exponent) :
    Parsed inner (bases ++ t :: rest) (.power base exponent)
  | call {t o c : Token} {name : Char} {within : List Token} {arguments : List Expression}
    (ht : t.kind = .letter name) (hname : name ≠ 'e') (ho : o.kind = .openParen)
    (hc : c.kind = .closeParen)
    (harguments : (splitTopLevel .comma 0 within).mapM inner = some arguments) :
    Parsed inner (t :: o :: within ++ [c]) (.call name arguments .unlinked)
  | bracket {o c : Token} {as : List Token} {a : Expression} (ho : o.kind.closer = some c.kind)
    (ha : inner as = some a) : Parsed inner (o :: as ++ [c]) (.bracket a)
  | unary {t : Token} {f : UnaryFunction} {rest as : List Token} {a : Expression}
    (ht : t.kind = .function f) (hrest : ArgumentTokens as rest) (ha : inner as = some a) :
    Parsed inner (t :: rest) (.unary f a)
  | logarithm {t o c : Token} {bases rest as : List Token} {base a : Expression}
    (ht : t.kind = .logBase) (ho : o.kind = .openCurly) (hc : c.kind = .closeCurly)
    (hrest : ArgumentTokens as rest) (hbase : inner bases = some base) (ha : inner as = some a) :
    Parsed inner (t :: o :: bases ++ c :: rest) (.logarithm base a)
  | logarithmOfToken {t u : Token} {rest as : List Token} {base a : Expression}
    (ht : t.kind = .logBase) (hrest : ArgumentTokens as rest) (hbase : inner [u] = some base)
    (ha : inner as = some a) : Parsed inner (t :: u :: rest) (.logarithm base a)
  | variable {t : Token} {name : Char} (ht : t.kind = .letter name) (hname : name ≠ 'e') :
    Parsed inner [t] (.variable name none)
  | number {t : Token} {x : Float} (ht : t.kind = .number x) : Parsed inner [t] (.number x)
  | pi {t : Token} (ht : t.kind = .pi) : Parsed inner [t] (.constant .pi)
  | e {t : Token} (ht : t.kind = .letter 'e') : Parsed inner [t] (.constant .e)

theorem between_append (o c : Token) (ts : List Token) : between (o :: ts ++ [c]) = ts := by
  simp [between]

theorem of_argumentTokens {rest argument : List Token} (h : argumentTokens rest = some argument) :
    ArgumentTokens argument rest := by
  unfold argumentTokens at h
  split at h
  · exact absurd h.symm (Option.some_ne_none _)
  · next t ts =>
    have hlength : t.kind = .openParen → (t :: ts).getLast?.map (·.kind) = some .closeParen →
        ts ≠ [] := by
      rintro ht hlast rfl
      rw [List.getLast?_singleton, Option.map_some, ht] at hlast
      exact absurd hlast (by simp)
    split at h
    · next hparen =>
      obtain ⟨-, ht, hlast⟩ := hparen
      obtain rfl := Option.some.inj h
      obtain ⟨within, c, rfl⟩ := (List.eq_nil_or_concat ts).resolve_left (hlength ht hlast)
      rw [List.concat_eq_append, ← List.cons_append] at hlast ⊢
      rw [between_append]
      rw [List.getLast?_concat] at hlast
      exact .paren ht (Option.some.inj hlast)
    · next hno =>
      obtain rfl := Option.some.inj h
      refine .plain fun hparens => hno ⟨?_, Option.some.inj hparens.1, hparens.2⟩
      have hts := List.length_pos_iff.2 (hlength (Option.some.inj hparens.1) hparens.2)
      rw [List.length_cons]
      omega

theorem of_exponentTokens {rest exponent : List Token} (h : exponentTokens rest = some exponent) :
    ExponentTokens exponent rest := by
  unfold exponentTokens at h
  split at h
  · exact absurd h.symm (Option.some_ne_none _)
  · next t ts =>
    split at h
    · next hbrace =>
      obtain ⟨ht, hcloses⟩ := hbrace
      obtain ⟨within, c, rfl, hc⟩ := exists_of_closesAtEnd (f := []) hcloses
      obtain rfl := Option.some.inj h
      rw [← List.cons_append, between_append]
      rw [ht] at hc
      exact .brace ht (Option.some.inj hc).symm
    · split at h
      · next hparen =>
        obtain ⟨ht, hcloses⟩ := hparen
        obtain ⟨within, c, rfl, hc⟩ := exists_of_closesAtEnd (f := []) hcloses
        obtain rfl := Option.some.inj h
        rw [ht] at hc
        exact .paren ht (Option.some.inj hc).symm
      · split at h
        · next hempty =>
          obtain rfl := Option.some.inj h
          rw [List.isEmpty_iff.1 hempty]
          exact .single
        · exact absurd h.symm (Option.some_ne_none _)

theorem exists_of_splitCaret {depth : Int} {tokens bases rest : List Token}
    (h : splitCaret depth tokens = some (bases, rest)) :
    ∃ t : Token, t.kind = .caret ∧ tokens = bases ++ t :: rest := by
  induction tokens generalizing depth bases with
  | nil => exact absurd h.symm (Option.some_ne_none _)
  | cons t ts ih =>
    rw [splitCaret] at h
    split at h
    · next hcaret =>
      obtain ⟨rfl, rfl⟩ := Prod.mk.inj (Option.some.inj h)
      exact ⟨t, hcaret.2, rfl⟩
    · obtain ⟨⟨bases', rest'⟩, h', heq⟩ := Option.map_eq_some_iff.1 h
      obtain ⟨rfl, rfl⟩ := Prod.mk.inj heq
      obtain ⟨c, hc, rfl⟩ := ih h'
      exact ⟨c, hc, rfl⟩

section Readers

variable {inner : Reader} {tokens : List Token} {f : Factor}

theorem parsed_of_readFraction (h : readFraction inner tokens = some f) : Parsed inner tokens f ∧ f.isPower = false := by
  unfold readFraction at h
  split at h
  · next span span' rest =>
    dsimp only at h
    split at h
    · exact absurd h.symm (Option.some_ne_none _)
    · next stop hstop =>
      obtain ⟨as, c, rest', rfl, hc, hlength⟩ :=
        exists_of_matchingClose (f := [⟨.frac, span⟩]) hstop
      replace hlength : stop = as.length + 2 := by
        rw [hlength, List.length_singleton]
        omega
      have hfront : ⟨.frac, span⟩ :: ⟨.openCurly, span'⟩ :: (as ++ c :: rest') =
          (⟨.frac, span⟩ :: ⟨.openCurly, span'⟩ :: as ++ [c]) ++ rest' := by
        rw [List.append_assoc]
        rfl
      have hstop' : stop + 1 =
          (⟨.frac, span⟩ :: ⟨.openCurly, span'⟩ :: as ++ [c] : List Token).length := by
        rw [hlength, List.length_append]
        rfl
      split at h
      · next span'' after hafter =>
        rw [hfront, hstop', List.drop_left] at hafter
        subst hafter
        split at h
        · next hcloses =>
          rw [hfront, hstop'] at hcloses
          obtain ⟨bs, c', rfl, hc'⟩ := exists_of_closesAtEnd hcloses
          obtain ⟨a, ha, h⟩ := Option.bind_eq_some_iff.1 h
          obtain ⟨b, hb, h⟩ := Option.bind_eq_some_iff.1 h
          obtain rfl := Option.some.inj h
          rw [← List.cons_append, between_append] at hb
          rw [hlength, Nat.add_sub_cancel, List.take_left] at ha
          have htokens : ⟨.frac, span⟩ :: ⟨.openCurly, span'⟩ ::
              (as ++ c :: ⟨.openCurly, span''⟩ :: (bs ++ [c'])) =
              ⟨.frac, span⟩ :: ⟨.openCurly, span'⟩ :: as ++ c :: ⟨.openCurly, span''⟩ :: bs ++
                [c'] := by
            simp
          rw [htokens]
          exact ⟨.fraction rfl rfl (Option.some.inj hc).symm rfl (Option.some.inj hc').symm ha hb, rfl⟩
        · exact absurd h.symm (Option.some_ne_none _)
      · exact absurd h.symm (Option.some_ne_none _)
  · exact absurd h.symm (Option.some_ne_none _)

theorem parsed_of_readPower (h : readPower inner tokens = some f) : Parsed inner tokens f := by
  unfold readPower at h
  obtain ⟨⟨bases, rest⟩, hcaret, h⟩ := Option.bind_eq_some_iff.1 h
  dsimp only at h
  split at h
  · exact absurd h.symm (Option.some_ne_none _)
  · obtain ⟨exponents, hrest, h⟩ := Option.bind_eq_some_iff.1 h
    obtain ⟨base, hbase, h⟩ := Option.bind_eq_some_iff.1 h
    obtain ⟨exponent, hexponent, h⟩ := Option.bind_eq_some_iff.1 h
    obtain rfl := Option.some.inj h
    obtain ⟨t, ht, rfl⟩ := exists_of_splitCaret hcaret
    exact .power hcaret ht (of_exponentTokens hrest) hbase hexponent

theorem parsed_of_readCall (h : readCall inner tokens = some f) : Parsed inner tokens f ∧ f.isPower = false := by
  unfold readCall at h
  split at h
  · next name span span' rest =>
    split at h
    · next hcall =>
      obtain ⟨hname, hcloses⟩ := hcall
      obtain ⟨within, c, rfl, hc⟩ := exists_of_closesAtEnd (f := [⟨.letter name, span⟩]) hcloses
      obtain ⟨arguments, harguments, h⟩ := Option.bind_eq_some_iff.1 h
      obtain rfl := Option.some.inj h
      rw [List.dropLast_concat] at harguments
      exact ⟨.call rfl hname rfl (Option.some.inj hc).symm harguments, rfl⟩
    · exact absurd h.symm (Option.some_ne_none _)
  · exact absurd h.symm (Option.some_ne_none _)

theorem parsed_of_readBracket (h : readBracket inner tokens = some f) : Parsed inner tokens f ∧ f.isPower = false := by
  unfold readBracket at h
  split at h
  · exact absurd h.symm (Option.some_ne_none _)
  · next t ts =>
    split at h
    · next hgroup =>
      obtain ⟨-, hcloses⟩ := Bool.and_eq_true_iff.1 hgroup
      obtain ⟨as, c, rfl, hc⟩ := exists_of_closesAtEnd (f := []) hcloses
      obtain ⟨a, ha, rfl⟩ := Option.map_eq_some_iff.1 h
      rw [← List.cons_append, between_append] at ha
      exact ⟨.bracket hc ha, rfl⟩
    · exact absurd h.symm (Option.some_ne_none _)

theorem parsed_of_readUnary (h : readUnary inner tokens = some f) : Parsed inner tokens f ∧ f.isPower = false := by
  unfold readUnary at h
  split at h
  · next g span rest =>
    obtain ⟨argument, hrest, h⟩ := Option.bind_eq_some_iff.1 h
    obtain ⟨a, ha, h⟩ := Option.bind_eq_some_iff.1 h
    obtain rfl := Option.some.inj h
    exact ⟨.unary rfl (of_argumentTokens hrest) ha, rfl⟩
  · exact absurd h.symm (Option.some_ne_none _)

theorem parsed_of_readLogarithm (h : readLogarithm inner tokens = some f) :
    Parsed inner tokens f ∧ f.isPower = false := by
  unfold readLogarithm at h
  split at h
  · next span t rest =>
    split at h
    · next ht =>
      split at h
      · exact absurd h.symm (Option.some_ne_none _)
      · next stop hstop =>
        obtain ⟨bases, c, rest, rfl, hc, hlength⟩ :=
          exists_of_matchingClose (f := [⟨.logBase, span⟩]) hstop
        replace hlength : stop = bases.length + 2 := by
          rw [hlength, List.length_singleton]
          omega
        obtain ⟨base, hbase, h⟩ := Option.bind_eq_some_iff.1 h
        obtain ⟨argument, hrest, h⟩ := Option.bind_eq_some_iff.1 h
        obtain ⟨a, ha, h⟩ := Option.bind_eq_some_iff.1 h
        obtain rfl := Option.some.inj h
        rw [hlength, Nat.add_sub_cancel, List.take_left] at hbase
        have hdrop : (bases ++ c :: rest).drop (stop - 1) = rest := by
          have hcount : stop - 1 = (bases ++ [c]).length := by
            rw [hlength, List.length_append, List.length_singleton]
            omega
          rw [hcount, List.append_cons bases c rest, List.drop_left]
        rw [hdrop] at hrest
        rw [ht] at hc
        exact ⟨.logarithm rfl ht (Option.some.inj hc).symm (of_argumentTokens hrest) hbase ha, rfl⟩
    · obtain ⟨base, hbase, h⟩ := Option.bind_eq_some_iff.1 h
      obtain ⟨argument, hrest, h⟩ := Option.bind_eq_some_iff.1 h
      obtain ⟨a, ha, h⟩ := Option.bind_eq_some_iff.1 h
      obtain rfl := Option.some.inj h
      exact ⟨.logarithmOfToken rfl (of_argumentTokens hrest) hbase ha, rfl⟩
  · exact absurd h.symm (Option.some_ne_none _)

theorem parsed_of_readVariable (h : readVariable tokens = some f) : Parsed inner tokens f ∧ f.isPower = false := by
  unfold readVariable at h
  split at h
  · split at h
    · exact absurd h.symm (Option.some_ne_none _)
    · next hname =>
      obtain rfl := Option.some.inj h
      exact ⟨.variable rfl hname, rfl⟩
  · exact absurd h.symm (Option.some_ne_none _)

theorem parsed_of_readConstant (h : readConstant tokens = some f) : Parsed inner tokens f ∧ f.isPower = false := by
  unfold readConstant at h
  split at h
  · obtain rfl := Option.some.inj h
    exact ⟨.number rfl, rfl⟩
  · obtain rfl := Option.some.inj h
    exact ⟨.pi rfl, rfl⟩
  · split at h
    · next hname =>
      obtain rfl := Option.some.inj h
      exact ⟨.e (congrArg TokenKind.letter hname), rfl⟩
    · exact absurd h.symm (Option.some_ne_none _)
  · exact absurd h.symm (Option.some_ne_none _)

/-- Whatever is read as a factor is one. -/
theorem parsed_of_readWith (h : readWith inner tokens = some f) : Parsed inner tokens f := by
  simp only [readWith, Option.orElse_eq_orElse, Option.orElse_eq_or, Option.or_eq_some_iff] at h
  rcases h with h | ⟨-, h | ⟨-, h | ⟨-, h | ⟨-, h | ⟨-, h | ⟨-, h | ⟨-, h⟩⟩⟩⟩⟩⟩⟩
  · exact (parsed_of_readFraction h).1
  · exact parsed_of_readPower h
  · exact (parsed_of_readCall h).1
  · exact (parsed_of_readBracket h).1
  · exact (parsed_of_readUnary h).1
  · exact (parsed_of_readLogarithm h).1
  · exact (parsed_of_readVariable h).1
  · exact (parsed_of_readConstant h).1

/-- Only one of the readers makes powers. -/
theorem readPower_of_isPower (h : readWith inner tokens = some f) (hf : f.isPower = true) :
    readPower inner tokens = some f := by
  have hno : f.isPower ≠ false := fun hfalse => Bool.false_ne_true (hfalse.symm.trans hf)
  simp only [readWith, Option.orElse_eq_orElse, Option.orElse_eq_or, Option.or_eq_some_iff] at h
  rcases h with h | ⟨-, h | ⟨-, h | ⟨-, h | ⟨-, h | ⟨-, h | ⟨-, h | ⟨-, h⟩⟩⟩⟩⟩⟩⟩
  · exact absurd (parsed_of_readFraction h).2 hno
  · exact h
  · exact absurd (parsed_of_readCall h).2 hno
  · exact absurd (parsed_of_readBracket h).2 hno
  · exact absurd (parsed_of_readUnary h).2 hno
  · exact absurd (parsed_of_readLogarithm h).2 hno
  · exact absurd (@parsed_of_readVariable inner _ _ h).2 hno
  · exact absurd (@parsed_of_readConstant inner _ _ h).2 hno

theorem Parsed.ne_nil (h : Parsed inner tokens f) : tokens ≠ [] := by
  cases h <;> simp

section Heads

variable {t : Token} {rest : List Token}

/-- Behind a number nothing is read but a power. -/
theorem Parsed.of_number {x : Float} (h : Parsed inner (t :: rest) f) (ht : t.kind = .number x) :
    f.isPower = true ∨ rest = [] ∧ f = .number x := by
  generalize hus : t :: rest = us at h
  cases h with
  | power => exact .inl rfl
  | number ht' => simp_all
  | _ => simp_all [TokenKind.closer]

theorem Parsed.of_pi (h : Parsed inner (t :: rest) f) (ht : t.kind = .pi) :
    f.isPower = true ∨ rest = [] ∧ f = .constant .pi := by
  generalize hus : t :: rest = us at h
  cases h with
  | power => exact .inl rfl
  | pi ht' => simp_all
  | _ => simp_all [TokenKind.closer]

theorem Parsed.of_frac (h : Parsed inner (t :: rest) f) (ht : t.kind = .frac) :
    f.isPower = true ∨ ∃ o as c o' bs c' a b, rest = o :: as ++ c :: o' :: bs ++ [c'] ∧
      c.kind = .closeCurly ∧ c'.kind = .closeCurly ∧ inner as = some a ∧ inner bs = some b ∧
        f = .fraction a b := by
  generalize hus : t :: rest = us at h
  cases h with
  | @fraction s o c o' c' as bs a b hs ho hc ho' hc' ha hb =>
    exact .inr ⟨o, as, c, o', bs, c', a, b, (List.cons.inj hus).2, hc, hc', ha, hb, rfl⟩
  | power => exact .inl rfl
  | _ => simp_all [TokenKind.closer]

theorem Parsed.of_open (h : Parsed inner (t :: rest) f) (ht : t.kind.isOpen = true) :
    f.isPower = true ∨ ∃ as c a, rest = as ++ [c] ∧ t.kind.closer = some c.kind ∧
      inner as = some a ∧ f = .bracket a := by
  generalize hus : t :: rest = us at h
  cases h with
  | @bracket o c as a ho ha =>
    obtain ⟨rfl, rfl⟩ := List.cons.inj hus
    exact .inr ⟨as, c, a, rfl, ho, ha, rfl⟩
  | power => exact .inl rfl
  | _ => simp_all [TokenKind.isOpen]

theorem Parsed.of_function {g : UnaryFunction} (h : Parsed inner (t :: rest) f)
    (ht : t.kind = .function g) :
    f.isPower = true ∨ ∃ as a, ArgumentTokens as rest ∧ inner as = some a ∧ f = .unary g a := by
  generalize hus : t :: rest = us at h
  cases h with
  | @unary t' g' rest' as a ht' hrest ha =>
    obtain ⟨rfl, rfl⟩ := List.cons.inj hus
    obtain rfl := TokenKind.function.inj (ht.symm.trans ht')
    exact .inr ⟨as, a, hrest, ha, rfl⟩
  | power => exact .inl rfl
  | _ => simp_all [TokenKind.closer]

theorem Parsed.of_logBase (h : Parsed inner (t :: rest) f) (ht : t.kind = .logBase) :
    f.isPower = true ∨
      (∃ o bases c rest' as base a, rest = o :: bases ++ c :: rest' ∧ c.kind = .closeCurly ∧
        ArgumentTokens as rest' ∧ inner bases = some base ∧ inner as = some a ∧
          f = .logarithm base a) ∨
      ∃ u rest' as base a, rest = u :: rest' ∧ ArgumentTokens as rest' ∧ inner [u] = some base ∧
        inner as = some a ∧ f = .logarithm base a := by
  generalize hus : t :: rest = us at h
  cases h with
  | @logarithm t' o c bases rest' as base a ht' ho hc hrest hbase ha =>
    obtain ⟨rfl, rfl⟩ := List.cons.inj hus
    exact .inr (.inl ⟨o, bases, c, rest', as, base, a, rfl, hc, hrest, hbase, ha, rfl⟩)
  | @logarithmOfToken t' u rest' as base a ht' hrest hbase ha =>
    obtain ⟨rfl, rfl⟩ := List.cons.inj hus
    exact .inr (.inr ⟨u, rest', as, base, a, rfl, hrest, hbase, ha, rfl⟩)
  | power => exact .inl rfl
  | _ => simp_all [TokenKind.closer]

theorem Parsed.of_letter {name : Char} (h : Parsed inner (t :: rest) f)
    (ht : t.kind = .letter name) : f.isPower = true ∨
      rest = [] ∧ f = (if name = 'e' then .constant .e else .variable name none) ∨
      name ≠ 'e' ∧ ∃ o within c arguments, rest = o :: within ++ [c] ∧ o.kind = .openParen ∧
        c.kind = .closeParen ∧ (splitTopLevel .comma 0 within).mapM inner = some arguments ∧
          f = .call name arguments .unlinked := by
  generalize hus : t :: rest = us at h
  cases h with
  | @call t' o c name' within arguments ht' hname ho hc harguments =>
    obtain ⟨rfl, rfl⟩ := List.cons.inj hus
    obtain rfl := TokenKind.letter.inj (ht.symm.trans ht')
    exact .inr (.inr ⟨hname, o, within, c, arguments, rfl, ho, hc, harguments, rfl⟩)
  | @«variable» t' name' ht' hname =>
    obtain ⟨rfl, rfl⟩ := List.cons.inj hus
    obtain rfl := TokenKind.letter.inj (ht.symm.trans ht')
    exact .inr (.inl ⟨rfl, (if_neg hname).symm⟩)
  | @e t' ht' =>
    obtain ⟨rfl, rfl⟩ := List.cons.inj hus
    obtain rfl := TokenKind.letter.inj (ht.symm.trans ht')
    exact .inr (.inl ⟨rfl, rfl⟩)
  | power => exact .inl rfl
  | _ => simp_all [TokenKind.closer]

/-- A power is read from its first caret. -/
theorem Parsed.of_isPower {tokens : List Token} (h : Parsed inner tokens f)
    (hf : f.isPower = true) : ∃ t bases rest exponents base exponent, tokens = bases ++ t :: rest ∧
      splitCaret 0 tokens = some (bases, rest) ∧ ExponentTokens exponents rest ∧
        inner bases = some base ∧ inner exponents = some exponent ∧ f = .power base exponent := by
  cases h with
  | @power t bases rest exponents base exponent hcaret ht hrest hbase hexponent =>
    exact ⟨t, bases, rest, exponents, base, exponent, rfl, hcaret, hrest, hbase, hexponent, rfl⟩
  | _ => exact absurd hf Bool.false_ne_true

end Heads

/-- The tokens `first` are read as a factor, and they are not once some of the tokens `rest` behind
them are added. -/
structure IsLongest (inner : Reader) (first rest : List Token) (f : Factor) : Prop where
  reads : readWith inner first = some f
  longest : ∀ more, more ≠ [] → more <+: rest → readWith inner (first ++ more) = none

end Readers

end Factor

namespace Item

variable {inner : Factor.Reader} {tokens first rest : List Token} {f : Factor}

theorem longestFactor_eq_some {length n : Nat} (h : longestFactor inner tokens length = some (f, n)) :
    0 < n ∧ Factor.readWith inner (tokens.take n) = some f ∧
      ∀ m, n < m → m ≤ length → Factor.readWith inner (tokens.take m) = none := by
  induction length with
  | zero => exact absurd h.symm (Option.some_ne_none _)
  | succ length ih =>
    rw [longestFactor] at h
    split at h
    · next f' hf =>
      obtain ⟨rfl, rfl⟩ := Prod.mk.inj (Option.some.inj h)
      exact ⟨Nat.succ_pos length, hf, fun m hlt hle => absurd hlt (by omega)⟩
    · next hnone =>
      obtain ⟨hpos, hf, hlongest⟩ := ih h
      refine ⟨hpos, hf, fun m hlt hle => ?_⟩
      by_cases hm : m = length + 1
      · rw [hm]
        exact hnone
      · exact hlongest m hlt (by omega)

theorem isLongest_of_longestFactor {n : Nat}
    (h : longestFactor inner tokens tokens.length = some (f, n)) :
    0 < n ∧ Factor.IsLongest inner (tokens.take n) (tokens.drop n) f := by
  obtain ⟨hpos, hf, hlongest⟩ := longestFactor_eq_some h
  refine ⟨hpos, hf, fun more hne hmore => ?_⟩
  obtain ⟨rest, hrest⟩ := hmore
  by_cases hn : n ≤ tokens.length
  · have hlength : (tokens.take n).length = n := List.length_take_of_le hn
    have htake : tokens.take (n + more.length) = tokens.take n ++ more := by
      rw [List.take_add, ← hrest, List.take_left]
    have hle := congrArg List.length hrest
    rw [List.length_append, List.length_drop] at hle
    have hmore := List.length_pos_iff.2 hne
    rw [← htake]
    exact hlongest _ (by omega) (by omega)
  · rw [List.drop_of_length_le (by omega)] at hrest
    exact absurd (List.append_eq_nil_iff.1 hrest).1 hne

/-- The longest factor is found. -/
theorem longestFactor_of_isLongest (h : Factor.IsLongest inner first rest f) :
    longestFactor inner (first ++ rest) (first ++ rest).length = some (f, first.length) := by
  have hpos : 0 < first.length :=
    List.length_pos_iff.2 (Factor.parsed_of_readWith h.reads).ne_nil
  have hfind : ∀ n, n ≤ rest.length →
      longestFactor inner (first ++ rest) (first.length + n) = some (f, first.length) := by
    intro n hn
    induction n with
    | zero =>
      obtain ⟨m, hm⟩ := Nat.exists_eq_succ_of_ne_zero (Nat.ne_of_gt hpos)
      have hreads := h.reads
      rw [← @List.take_left _ first rest, hm] at hreads
      rw [Nat.add_zero, hm, longestFactor, hreads]
    | succ n ih =>
      have hlonger : Factor.readWith inner ((first ++ rest).take (first.length + n + 1)) = none := by
        rw [Nat.add_assoc, List.take_length_add_append]
        refine h.longest _ (fun hnil => ?_) (List.take_prefix _ _)
        have hlength := congrArg List.length hnil
        rw [List.length_take_of_le hn] at hlength
        exact absurd hlength (Nat.succ_ne_zero n)
      rw [← Nat.add_assoc, longestFactor, hlonger]
      exact ih (by omega)
  rw [List.length_append]
  exact hfind rest.length (Nat.le_refl _)

section FirstToken

variable {started : Bool} {t : Token} {ts : List Token}

theorem readFactors_mul (ht : t.kind = .mul) : readFactors inner started (t :: ts) =
    if started && ts.head?.any canFollowMul then readFactors inner started ts else none := by
  rw [readFactors.eq_def]
  dsimp only
  rw [ht]
  cases ts with
  | nil => rw [List.head?_nil, Option.any_none, Bool.and_false, if_neg Bool.false_ne_true]
  | cons u us => rfl

theorem readFactors_div (ht : t.kind = .div) : readFactors inner started (t :: ts) =
    if started then (longestFactor inner ts ts.length).bind fun found =>
      (readFactors inner true (ts.drop found.2)).map (found.1.reciprocal :: ·)
    else none := by
  rw [readFactors.eq_def]
  dsimp only
  rw [ht]
  cases longestFactor inner ts ts.length <;> rfl

theorem readFactors_factor (hmul : t.kind ≠ .mul) (hdiv : t.kind ≠ .div) :
    readFactors inner started (t :: ts) =
      (longestFactor inner (t :: ts) (t :: ts).length).bind fun found =>
        (readFactors inner true (ts.drop (found.2 - 1))).map (found.1 :: ·) := by
  rw [readFactors.eq_def]
  dsimp only
  split
  · next ht => exact absurd ht hmul
  · next ht => exact absurd ht hdiv
  · rw [List.length_cons]
    cases longestFactor inner (t :: ts) (ts.length + 1) <;> rfl

end FirstToken

/-- The tokens as which factors are read one after another.  `started` says whether there is a factor
in front of them. -/
inductive Factored (inner : Factor.Reader) : Bool → List Token → List Factor → Prop
  | nil {started : Bool} : Factored inner started [] []
  | mul {t u : Token} {us : List Token} {fs : List Factor} (ht : t.kind = .mul)
    (hu : canFollowMul u = true) (h : Factored inner true (u :: us) fs) :
    Factored inner true (t :: u :: us) fs
  | div {t : Token} {first rest : List Token} {f : Factor} {fs : List Factor} (ht : t.kind = .div)
    (hf : Factor.IsLongest inner first rest f) (h : Factored inner true rest fs) :
    Factored inner true (t :: (first ++ rest)) (f.reciprocal :: fs)
  | factor {started : Bool} {t : Token} {first rest : List Token} {f : Factor} {fs : List Factor}
    (hmul : t.kind ≠ .mul) (hdiv : t.kind ≠ .div)
    (hf : Factor.IsLongest inner (t :: first) rest f) (h : Factored inner true rest fs) :
    Factored inner started (t :: (first ++ rest)) (f :: fs)

theorem factored_of_readFactors {started : Bool} {fs : List Factor}
    (h : readFactors inner started tokens = some fs) : Factored inner started tokens fs := by
  fun_induction readFactors inner started tokens generalizing fs with
  | case1 =>
    obtain rfl := Option.some.inj h
    exact .nil
  | case2 => exact absurd h.symm (Option.some_ne_none _)
  | case3 started t hk u us hs ih =>
    obtain ⟨rfl, hu⟩ := Bool.and_eq_true_iff.1 hs
    exact .mul hk hu (ih h)
  | case4 => exact absurd h.symm (Option.some_ne_none _)
  | case5 => exact absurd h.symm (Option.some_ne_none _)
  | case6 t ts hk f length hf ih =>
    obtain ⟨fs', hfs, rfl⟩ := Option.map_eq_some_iff.1 h
    obtain ⟨-, hlongest⟩ := isLongest_of_longestFactor hf
    rw [← List.take_append_drop length ts]
    exact .div hk hlongest (ih hfs)
  | case7 => exact absurd h.symm (Option.some_ne_none _)
  | case8 => exact absurd h.symm (Option.some_ne_none _)
  | case9 started t ts f length hf hmul hdiv ih =>
    obtain ⟨fs', hfs, rfl⟩ := Option.map_eq_some_iff.1 h
    obtain ⟨hpos, hlongest⟩ := isLongest_of_longestFactor hf
    obtain ⟨n, rfl⟩ := Nat.exists_eq_succ_of_ne_zero (Nat.ne_of_gt hpos)
    have hrest := ih hfs
    rw [Nat.succ_sub_one] at hrest
    rw [List.take_succ_cons, List.drop_succ_cons] at hlongest
    rw [← List.take_append_drop n ts]
    exact .factor hmul hdiv hlongest hrest

theorem readFactors_of_factored {started : Bool} {fs : List Factor}
    (h : Factored inner started tokens fs) : readFactors inner started tokens = some fs := by
  induction h with
  | nil => rw [readFactors]
  | mul ht hu _ ih =>
    rw [readFactors_mul ht, List.head?_cons, Option.any_some, hu, ih]
    rfl
  | div ht hf _ ih =>
    rw [readFactors_div ht, longestFactor_of_isLongest hf, Option.bind_some, List.drop_left, ih]
    rfl
  | @factor started t first rest f fs hmul hdiv hf _ ih =>
    have hlongest := longestFactor_of_isLongest hf
    rw [List.cons_append] at hlongest
    rw [readFactors_factor hmul hdiv, hlongest, Option.bind_some, List.length_cons,
      Nat.add_sub_cancel, List.drop_left, ih]
    rfl

/-- Factors are read one after another, each as long as it can be. -/
theorem readFactors_eq_some {started : Bool} {fs : List Factor} :
    readFactors inner started tokens = some fs ↔ Factored inner started tokens fs :=
  ⟨factored_of_readFactors, readFactors_of_factored⟩

/-- The tokens as which an item is read. -/
inductive Parsed (inner : Factor.Reader) : List Token → Item → Prop
  | plus {t : Token} {ts : List Token} {fs : List Factor} (ht : t.kind = .add) (hne : fs ≠ [])
    (h : Factored inner false ts fs) : Parsed inner (t :: ts) ⟨true, fs⟩
  | minus {t : Token} {ts : List Token} {fs : List Factor} (ht : t.kind = .sub) (hne : fs ≠ [])
    (h : Factored inner false ts fs) : Parsed inner (t :: ts) ⟨false, fs⟩
  | unsigned {t : Token} {ts : List Token} {fs : List Factor} (ht : t.kind.isSign = false)
    (hne : fs ≠ []) (h : Factored inner false (t :: ts) fs) : Parsed inner (t :: ts) ⟨true, fs⟩

theorem readWith_eq_some_iff_factored {i : Item} : readWith inner tokens = some i ↔
    i.factors ≠ [] ∧ i.positive = (splitSign tokens).1 ∧
      Factored inner false (splitSign tokens).2 i.factors := by
  rw [← readFactors_eq_some, readWith]
  obtain ⟨positive, rest⟩ := splitSign tokens
  obtain ⟨positive', factors⟩ := i
  dsimp only
  cases readFactors inner false rest with
  | none => simp
  | some fs =>
    cases fs with
    | nil =>
      simp only [reduceCtorEq, false_iff, Option.some.injEq]
      rintro ⟨hne, -, hfactors⟩
      exact hne hfactors.symm
    | cons f fs =>
      simp only [Option.some.injEq, mk.injEq]
      constructor
      · rintro ⟨rfl, rfl⟩
        exact ⟨List.cons_ne_nil _ _, rfl, rfl⟩
      · rintro ⟨-, rfl, rfl⟩
        exact ⟨rfl, rfl⟩

theorem parsed_of_readWith {i : Item} (h : readWith inner tokens = some i) :
    Parsed inner tokens i := by
  obtain ⟨hne, hpositive, hfactors⟩ := readWith_eq_some_iff_factored.1 h
  obtain ⟨positive, fs⟩ := i
  dsimp only at hne hpositive hfactors
  unfold splitSign at hpositive hfactors
  cases tokens with
  | nil =>
    cases hfactors
    exact absurd rfl hne
  | cons t ts =>
    dsimp only at hpositive hfactors
    split at hfactors
    · next hsub =>
      rw [hsub] at hpositive
      obtain rfl := hpositive
      exact .minus hsub hne hfactors
    · next hadd =>
      rw [hadd] at hpositive
      obtain rfl := hpositive
      exact .plus hadd hne hfactors
    · next hsub hadd =>
      have hsign : t.kind.isSign = false := by
        cases hk : t.kind <;> first | rfl | contradiction
      have hplain : positive = true := by
        cases hk : t.kind <;> rw [hk] at hpositive <;> first | exact hpositive | contradiction
      obtain rfl := hplain
      exact .unsigned hsign hne hfactors

theorem splitSign_of_unsigned {t : Token} {ts : List Token} (ht : t.kind.isSign = false) :
    splitSign (t :: ts) = (true, t :: ts) := by
  simp only [splitSign]
  split
  · next hsub => exact absurd ht (by rw [hsub]; decide)
  · next hadd => exact absurd ht (by rw [hadd]; decide)
  · rfl

theorem readWith_of_parsed {i : Item} (h : Parsed inner tokens i) :
    readWith inner tokens = some i := by
  rw [readWith_eq_some_iff_factored]
  cases h with
  | plus ht hne h => simpa only [splitSign, ht] using ⟨hne, trivial, h⟩
  | minus ht hne h => simpa only [splitSign, ht] using ⟨hne, trivial, h⟩
  | @unsigned t ts fs ht hne h =>
    rw [splitSign_of_unsigned ht]
    exact ⟨hne, rfl, h⟩

/-- An item is a sign, if there is one, and factors. -/
theorem readWith_eq_some {i : Item} : readWith inner tokens = some i ↔ Parsed inner tokens i :=
  ⟨parsed_of_readWith, readWith_of_parsed⟩

end Item

theorem mapM_eq_some {α β : Type} {f : α → Option β} {xs : List α} {ys : List β} :
    xs.mapM f = some ys ↔ List.Forall₂ (fun x y => f x = some y) xs ys := by
  induction xs generalizing ys with
  | nil =>
    rw [List.mapM_nil, List.forall₂_nil_left_iff]
    exact ⟨fun h => (Option.some.inj h).symm, fun h => congrArg some h.symm⟩
  | cons x xs ih =>
    rw [List.mapM_cons, List.forall₂_cons_left_iff]
    constructor
    · intro h
      obtain ⟨y, hy, h⟩ := Option.bind_eq_some_iff.1 h
      obtain ⟨ys', hys, h⟩ := Option.bind_eq_some_iff.1 h
      exact ⟨y, ys', hy, ih.1 hys, (Option.some.inj h).symm⟩
    · rintro ⟨y, ys', hy, hys, rfl⟩
      rw [hy, Option.bind_eq_bind, Option.bind_some, ih.2 hys]
      rfl

theorem exists_of_forall₂ {α β : Type} {r : α → β → Prop} {xs : List α} {ys : List β}
    (h : List.Forall₂ r xs ys) {x : α} (hx : x ∈ xs) : ∃ y ∈ ys, r x y := by
  induction h with
  | nil => exact absurd hx List.not_mem_nil
  | @cons x' y xs ys hxy _ ih =>
    rcases List.mem_cons.1 hx with rfl | hx
    · exact ⟨y, List.mem_cons_self, hxy⟩
    · obtain ⟨y', hy', hr⟩ := ih hx
      exact ⟨y', List.mem_cons_of_mem _ hy', hr⟩

namespace Expression

variable {inner : Factor.Reader} {tokens : List Token}

/-- An expression is read item by item. -/
theorem readWith_eq_some {items : List Item} : readWith inner tokens = some ⟨items⟩ ↔
    tokens ≠ [] ∧ List.Forall₂ (Item.Parsed inner) (splitItems tokens) items := by
  have hitems : (splitItems tokens).mapM (Item.readWith inner) = some items ↔
      List.Forall₂ (Item.Parsed inner) (splitItems tokens) items := by
    rw [mapM_eq_some]
    simp only [Item.readWith_eq_some]
  rw [← hitems, readWith]
  cases tokens with
  | nil => simp
  | cons t ts => simp

/-- To show something of all expressions that are read it is enough to show it for one layer of a
reader that reads the expressions inside by some reader of which it holds. -/
theorem readNested_induction {P : List Token → Expression → Prop}
    (step : ∀ inner : Factor.Reader, (∀ ts e, inner ts = some e → P ts e) →
      ∀ ts e, readWith inner ts = some e → P ts e)
    {depth : Nat} {e : Expression} (h : readNested depth tokens = some e) : P tokens e := by
  induction depth generalizing tokens e with
  | zero => exact absurd h.symm (Option.some_ne_none _)
  | succ depth ih => exact step _ (fun _ _ => ih) _ _ h

theorem read_induction {P : List Token → Expression → Prop}
    (step : ∀ inner : Factor.Reader, (∀ ts e, inner ts = some e → P ts e) →
      ∀ ts e, readWith inner ts = some e → P ts e) (h : read tokens = some e) : P tokens e :=
  readNested_induction step h

/-- The items take up all of the tokens. -/
theorem flatten_splitItems (tokens : List Token) : (splitItems tokens).flatten = tokens := by
  have haddToFirst : ∀ (t : Token) (parts : List (List Token)),
      (addToFirst t parts).flatten = t :: parts.flatten := by
    intro t parts
    cases parts <;> rfl
  have hsigns : ∀ (ts : List Token) (depth : Int), (splitSigns depth ts).flatten = ts := by
    intro ts
    induction ts with
    | nil => exact fun _ => rfl
    | cons t ts ih =>
      intro depth
      simp only [splitSigns]
      split
      · rw [List.flatten_cons, List.nil_append, haddToFirst, ih]
      · rw [haddToFirst, ih]
  cases tokens with
  | nil => rfl
  | cons t ts => rw [splitItems, haddToFirst, hsigns]

end Expression

end ImplicitCurves

import ImplicitCurves.Proofs.Notation.Greedy
import ImplicitCurves.Proofs.Notation.RoundTrip
import ImplicitCurves.Proofs.Notation.Sides
import ImplicitCurves.Proofs.Notation.Unambiguous
import ImplicitCurves.Proofs.Notation.WrittenChains

/-!
# Reading what was read and written

Trees that were read are told apart by their texts, up to brackets around the bases of powers, which are
written anyway: main statement `Expression.Produced.text_eq_iff`.  The tokens of such a tree are read as
a tree with the same text if the factors of its items stand in order, and not otherwise:
`Expression.Produced.rereads_iff`.
-/

namespace ImplicitCurves

/-- The text is cut into tokens of these kinds. -/
def IsCutInto (cs : List Char) (ks : List TokenKind) : Prop :=
  ∃ tokens, tokenize cs = .ok tokens ∧ tokens.map (·.kind) = ks

theorem IsCutInto.unique {cs : List Char} {ks ks' : List TokenKind} (h : IsCutInto cs ks)
    (h' : IsCutInto cs ks') : ks = ks' := by
  obtain ⟨tokens, htokens, rfl⟩ := h
  obtain ⟨tokens', htokens', rfl⟩ := h'
  cases htokens.symm.trans htokens'
  rfl

theorem spellable_of_kinds {tokens : List Token} {ks : List TokenKind} (h : tokens.map (·.kind) = ks)
    (hks : ∀ k ∈ ks, k.Spellable) : ∀ t ∈ tokens, t.kind.Spellable :=
  fun t ht => hks t.kind (h ▸ List.mem_map_of_mem ht)

namespace Expression

variable {e e' : Expression} {tokens : List Token}

theorem Produced.isCutInto (h : e.Produced) : IsCutInto e.text e.bracketed.kinds := by
  rw [← text_bracketed e]
  exact exists_tokens_text h.writable_bracketed

theorem Produced.spells (h : e.Produced) : Spells e.text e.bracketed.kinds := by
  rw [← text_bracketed e]
  exact Expression.spells h.writable_bracketed.wellFormed

/-- Expressions that were read have the same text if they have the same tokens. -/
theorem Produced.text_eq_iff (h : e.Produced) (h' : e'.Produced) :
    e'.text = e.text ↔ e'.bracketed.kinds = e.bracketed.kinds := by
  constructor
  · intro htext
    exact h'.isCutInto.unique (htext ▸ h.isCutInto)
  · intro hkinds
    have hbracketed := eq_of_kinds_eq h'.writable_bracketed h.writable_bracketed hkinds
    rw [← text_bracketed e', hbracketed, text_bracketed]

/-- An expression that was read can be written in brackets if its factors stand in order. -/
theorem Produced.legible_bracketed (h : e.Produced) (horderly : e.Orderly) : e.bracketed.Legible :=
  (h.writable_bracketed.and (orderly_bracketed.2 horderly)).imp fun _ h => ⟨h.1.1, h.2⟩

/-- The tokens of an expression that was read are read as one with the same tokens just if the factors
of each item stand in order. -/
theorem Produced.rereads_iff (h : e.Produced) (htokens : tokens.map (·.kind) = e.bracketed.kinds) :
    (∃ e', read tokens = some e' ∧ e'.text = e.text) ↔ e.Orderly := by
  constructor
  · rintro ⟨e', hread, htext⟩
    have hproduced := produced_of_read hread (spellable_of_kinds htokens h.spells.spellable)
    have hkinds := (h.text_eq_iff hproduced).1 htext
    have hbracketed := eq_of_kinds_eq hproduced.writable_bracketed h.writable_bracketed hkinds
    have horderly : e'.Orderly := by
      refine orderly_of_read hread (htokens ▸ tidy_kinds _) ?_
      rw [Snug, htokens, hkinds]
    rw [← orderly_bracketed, hbracketed, orderly_bracketed] at horderly
    exact horderly
  · intro horderly
    exact ⟨e.bracketed, read_kinds (h.legible_bracketed horderly) htokens, text_bracketed e⟩

end Expression

namespace Equation

variable {eq eq' : Equation} {tokens : List Token}

/-- The factors of both sides stand in an order in which they can be read. -/
def Orderly (eq : Equation) : Prop :=
  eq.lhs.Orderly ∧ eq.rhs.Orderly

/-- Both sides are as the readers make them. -/
def Produced (eq : Equation) : Prop :=
  eq.lhs.Produced ∧ eq.rhs.Produced

/-- The tokens of an equation once there are brackets around the bases of powers. -/
def kinds (eq : Equation) : List TokenKind :=
  eq.lhs.bracketed.kinds ++ .assign :: eq.rhs.bracketed.kinds

theorem Produced.spells (h : eq.Produced) : Spells eq.text eq.kinds := by
  have hsign : Spells ['='] [.assign] := spells_one trivial (by decide)
  exact h.1.spells.append (hsign.append h.2.spells)

theorem Produced.isCutInto (h : eq.Produced) : IsCutInto eq.text eq.kinds := by
  have hleft := Expression.staysApart (h.1.writable_bracketed.imp fun _ h => h.2)
  have hright := Expression.staysApart (h.2.writable_bracketed.imp fun _ h => h.2) [] List.isChain_nil
    fun x hx => by cases hx
  rw [List.append_nil] at hright
  exact tokenize_eq_ok h.spells.chars h.spells.spellable
    (hleft _ (hright.cons fun _ => rfl) fun x hx => by cases hx)

/-- Equations that were read have the same text if both of their sides have. -/
theorem Produced.text_eq_iff (h : eq.Produced) (h' : eq'.Produced) :
    eq'.text = eq.text ↔ eq'.lhs.text = eq.lhs.text ∧ eq'.rhs.text = eq.rhs.text := by
  constructor
  · intro htext
    have hkinds : eq'.kinds = eq.kinds := h'.isCutInto.unique (htext ▸ h.isCutInto)
    obtain ⟨hlhs, -, hrhs⟩ := (List.append_cons_inj_of_notMem (Expression.assign_not_mem_kinds _)
      (Expression.assign_not_mem_kinds _)).1 hkinds
    exact ⟨(h.1.text_eq_iff h'.1).2 hlhs, (h.2.text_eq_iff h'.2).2 hrhs⟩
  · rintro ⟨hlhs, hrhs⟩
    rw [text, text, hlhs, hrhs]

/-- Both sides of what was read were read. -/
theorem produced_of_read (h : read tokens = some eq) (hspellable : ∀ t ∈ tokens, t.kind.Spellable) :
    eq.Produced := by
  obtain ⟨ls, t, rs, rfl, -, hlhs, hrhs⟩ := exists_sides h
  obtain ⟨hls, hrs⟩ := List.forall_mem_append.1 hspellable
  exact ⟨Expression.produced_of_read hlhs hls,
    Expression.produced_of_read hrhs (List.forall_mem_cons.1 hrs).2⟩

theorem complete_of_read (h : read tokens = some eq) : Token.AllComplete tokens := by
  obtain ⟨ls, t, rs, rfl, ht, hlhs, hrhs⟩ := exists_sides h
  have hright : Complete (t.kind :: rs.map (·.kind)) :=
    Complete.operation (by rw [ht]; rfl) (Expression.complete_of_read hrhs)
  have hall := (Expression.complete_of_read hlhs).append hright
  rw [← List.map_cons, ← List.map_append] at hall
  exact hall

/-- The tokens of an equation are those of its sides. -/
theorem exists_of_kinds (htokens : tokens.map (·.kind) = eq.kinds) : ∃ ls t rs, tokens = ls ++ t :: rs ∧
    t.kind = .assign ∧ (∀ u ∈ ls, u.kind ≠ .assign) ∧ ls.map (·.kind) = eq.lhs.bracketed.kinds ∧
      rs.map (·.kind) = eq.rhs.bracketed.kinds := by
  obtain ⟨ls, behind, rfl, hls, hbehind⟩ := List.map_eq_append_iff.1 htokens
  obtain ⟨t, rs, rfl, ht, hrs⟩ := List.map_eq_cons_iff.1 hbehind
  refine ⟨ls, t, rs, rfl, ht, fun u hu hassign => ?_, hls, hrs⟩
  refine Expression.assign_not_mem_kinds eq.lhs.bracketed ?_
  rw [← hls, ← hassign]
  exact List.mem_map_of_mem hu

/-- The tokens of an equation that was read are read again. -/
theorem exists_read_kinds {source : List Token} (h : read source = some eq)
    (hspellable : ∀ t ∈ source, t.kind.Spellable) (htokens : tokens.map (·.kind) = eq.kinds) :
    ∃ eq', read tokens = some eq' := by
  obtain ⟨ls, s, rs, rfl, -, hlhs, hrhs⟩ := exists_sides h
  obtain ⟨hlsSpellable, hbehind⟩ := List.forall_mem_append.1 hspellable
  obtain ⟨ls', t, rs', rfl, ht, hfirst, hls, hrs⟩ := exists_of_kinds htokens
  obtain ⟨lhs, hlhs'⟩ := Expression.exists_read_kinds hlhs hlsSpellable hls
  obtain ⟨rhs, hrhs'⟩ := Expression.exists_read_kinds hrhs (List.forall_mem_cons.1 hbehind).2 hrs
  exact ⟨between lhs rhs, (read_sides ht hfirst).2 ⟨lhs, rhs, hlhs', hrhs', rfl⟩⟩

/-- The tokens of an equation that was read are read as one with the same text just if the factors of
both sides stand in order. -/
theorem Produced.rereads_iff (h : eq.Produced) (htokens : tokens.map (·.kind) = eq.kinds) :
    (∃ eq', read tokens = some eq' ∧ eq'.text = eq.text) ↔ eq.Orderly := by
  obtain ⟨ls, t, rs, rfl, ht, hfirst, hls, hrs⟩ := exists_of_kinds htokens
  constructor
  · rintro ⟨eq', hread, htext⟩
    have hproduced := produced_of_read hread (spellable_of_kinds htokens h.spells.spellable)
    obtain ⟨lhs, rhs, hlhs, hrhs, rfl⟩ := (read_sides ht hfirst).1 hread
    obtain ⟨hlhsText, hrhsText⟩ := (h.text_eq_iff hproduced).1 htext
    exact ⟨(h.1.rereads_iff hls).1 ⟨lhs, hlhs, hlhsText⟩, (h.2.rereads_iff hrs).1 ⟨rhs, hrhs, hrhsText⟩⟩
  · rintro ⟨hleft, hright⟩
    obtain ⟨lhs, hlhs, hlhsText⟩ := (h.1.rereads_iff hls).2 hleft
    obtain ⟨rhs, hrhs, hrhsText⟩ := (h.2.rereads_iff hrs).2 hright
    refine ⟨between lhs rhs, (read_sides ht hfirst).2 ⟨lhs, rhs, hlhs, hrhs, rfl⟩, ?_⟩
    rw [text, text, ← hlhsText, ← hrhsText]
    rfl

end Equation

namespace Expression

/-- There is only one order for a single factor. -/
theorem orderly_single {positive : Bool} {f : Factor} (hinside : ∀ c ∈ f.children, c.Orderly) :
    Orderly ⟨[⟨positive, [f]⟩]⟩ := by
  refine .intro (fun i hi => ?_) fun i hi g hg => ?_
  all_goals obtain rfl := List.mem_singleton.1 hi
  · exact List.pairwise_singleton _ _
  · obtain rfl := List.mem_singleton.1 hg
    exact hinside

end Expression

end ImplicitCurves

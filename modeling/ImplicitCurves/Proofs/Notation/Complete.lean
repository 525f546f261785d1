import ImplicitCurves.Proofs.Notation.Grammar
import ImplicitCurves.Proofs.Notation.Groups

/-!
# Tokens that can stand on their own

A small machine goes through tokens and keeps what they still demand: a group that is open has to be
closed, an operation needs an operand behind it, a logarithm a base and then an argument, and a fraction
two groups.
Whatever is read as an expression leaves nothing open: main statement `Expression.complete_of_read`.
So tokens at which something is missing are not read, which is what ends a factor.
-/

namespace ImplicitCurves

/-- What has to follow. -/
inductive Demand where
  | nothing
  | operand
  /-- The base of a logarithm, and its argument behind it, or the two groups of a fraction. -/
  | base
deriving DecidableEq

/-- A group that is open: whether it is in braces, and what has to follow behind it. -/
structure OpenGroup where
  curly : Bool
  outer : Demand
deriving DecidableEq

/-- What has to follow, and the groups that are open, the innermost first. -/
structure Pending where
  demand : Demand
  groups : List OpenGroup
deriving DecidableEq

namespace Pending

/-- What is pending behind the end of a group. -/
def close (p : Pending) (curly : Bool) : Option Pending :=
  match p.demand, p.groups with
  | .nothing, group :: groups => if group.curly = curly then some ⟨group.outer, groups⟩ else none
  | _, _ => none

/-- What is pending behind the first token of the base of a logarithm, or of the first group of a
fraction. -/
def stepBase (p : Pending) : TokenKind → Option Pending
  | .openCurly => some ⟨.operand, ⟨true, .operand⟩ :: p.groups⟩
  | .number _ | .letter _ | .pi => some ⟨.operand, p.groups⟩
  | _ => none

/-- What is pending behind any other token. -/
def stepOther (p : Pending) : TokenKind → Option Pending
  | .openParen => some ⟨.operand, ⟨false, .nothing⟩ :: p.groups⟩
  | .openCurly => some ⟨.operand, ⟨true, .nothing⟩ :: p.groups⟩
  | .closeParen => p.close false
  | .closeCurly => p.close true
  | .number _ | .letter _ | .pi => some ⟨.nothing, p.groups⟩
  | .logBase | .frac => some ⟨.base, p.groups⟩
  | _ => some ⟨.operand, p.groups⟩

/-- What is pending behind a token.  There is nothing if the token cannot stand there. -/
def step (p : Pending) (k : TokenKind) : Option Pending :=
  match p.demand with
  | .base => p.stepBase k
  | _ => p.stepOther k

/-- What is pending behind tokens. -/
def behind (p : Pending) (ks : List TokenKind) : Option Pending :=
  ks.foldlM step p

theorem behind_append {p : Pending} {ks ks' : List TokenKind} :
    p.behind (ks ++ ks') = (p.behind ks).bind fun q => q.behind ks' :=
  List.foldlM_append

theorem behind_cons {p : Pending} {k : TokenKind} {ks : List TokenKind} :
    p.behind (k :: ks) = (p.step k).bind fun q => q.behind ks := by
  rw [behind, List.foldlM_cons]
  rfl

theorem exists_of_close {p q : Pending} {curly : Bool} (h : p.close curly = some q) :
    p.demand = .nothing ∧ ∃ outer, p.groups = ⟨curly, outer⟩ :: q.groups ∧ q.demand = outer := by
  unfold close at h
  split at h
  · next group groups hdemand hgroups =>
    split at h
    · next hcurly =>
      obtain rfl := Option.some.inj h
      exact ⟨hdemand, group.outer, by rw [hgroups, ← hcurly], rfl⟩
    · exact absurd h.symm (Option.some_ne_none _)
  · exact absurd h.symm (Option.some_ne_none _)

theorem close_eq {curly : Bool} {outer : Demand} {groups : List OpenGroup} :
    Pending.close ⟨.nothing, ⟨curly, outer⟩ :: groups⟩ curly = some ⟨outer, groups⟩ :=
  if_pos rfl

/-- What one token does to the groups that are open. -/
theorem groups_of_step {p q : Pending} {k : TokenKind} (h : p.step k = some q) :
    (k = .openParen ∧ ∃ outer, q.groups = ⟨false, outer⟩ :: p.groups) ∨
      (k = .openCurly ∧ ∃ outer, q.groups = ⟨true, outer⟩ :: p.groups) ∨
      (k = .closeParen ∧ ∃ outer, p.groups = ⟨false, outer⟩ :: q.groups) ∨
      (k = .closeCurly ∧ ∃ outer, p.groups = ⟨true, outer⟩ :: q.groups) ∨
      k.isOpen = false ∧ k.isClose = false ∧ q.groups = p.groups := by
  have hclose : ∀ {curly : Bool}, p.close curly = some q →
      ∃ outer, p.groups = ⟨curly, outer⟩ :: q.groups := by
    intro curly h
    obtain ⟨-, outer, hgroups, -⟩ := exists_of_close h
    exact ⟨outer, hgroups⟩
  unfold step at h
  split at h
  · cases k with
    | openCurly => exact .inr (.inl ⟨rfl, .operand, by rw [← Option.some.inj h]⟩)
    | number x => exact .inr (.inr (.inr (.inr ⟨rfl, rfl, by rw [← Option.some.inj h]⟩)))
    | letter c => exact .inr (.inr (.inr (.inr ⟨rfl, rfl, by rw [← Option.some.inj h]⟩)))
    | pi => exact .inr (.inr (.inr (.inr ⟨rfl, rfl, by rw [← Option.some.inj h]⟩)))
    | _ => exact absurd h.symm (Option.some_ne_none _)
  · cases k with
    | openParen => exact .inl ⟨rfl, .nothing, by rw [← Option.some.inj h]⟩
    | openCurly => exact .inr (.inl ⟨rfl, .nothing, by rw [← Option.some.inj h]⟩)
    | closeParen => exact .inr (.inr (.inl ⟨rfl, hclose h⟩))
    | closeCurly => exact .inr (.inr (.inr (.inl ⟨rfl, hclose h⟩)))
    | _ => exact .inr (.inr (.inr (.inr ⟨rfl, rfl, by rw [← Option.some.inj h]⟩)))

/-- Groups that are open around the tokens do not matter, as long as none of them is closed. -/
theorem step_outer {p q : Pending} {k : TokenKind} (h : p.step k = some q)
    (outer : List OpenGroup) :
    Pending.step ⟨p.demand, p.groups ++ outer⟩ k = some ⟨q.demand, q.groups ++ outer⟩ := by
  have hclose : ∀ {curly : Bool}, p.close curly = some q →
      Pending.close ⟨p.demand, p.groups ++ outer⟩ curly = some ⟨q.demand, q.groups ++ outer⟩ := by
    intro curly h
    obtain ⟨hdemand, behind, hgroups, hbehind⟩ := exists_of_close h
    rw [hdemand, hgroups, hbehind]
    exact close_eq
  have hother : p.stepOther k = some q →
      Pending.stepOther ⟨p.demand, p.groups ++ outer⟩ k = some ⟨q.demand, q.groups ++ outer⟩ := by
    intro h
    cases k with
    | closeParen => exact hclose h
    | closeCurly => exact hclose h
    | _ =>
      obtain rfl := Option.some.inj h
      rfl
  obtain ⟨demand, groups⟩ := p
  cases demand with
  | base =>
    cases k <;>
      first
      | exact absurd h.symm (Option.some_ne_none _)
      | (obtain rfl := Option.some.inj h; rfl)
  | _ => exact hother h

theorem behind_outer {p q : Pending} {ks : List TokenKind} (h : p.behind ks = some q)
    (outer : List OpenGroup) :
    Pending.behind ⟨p.demand, p.groups ++ outer⟩ ks = some ⟨q.demand, q.groups ++ outer⟩ := by
  induction ks generalizing p with
  | nil =>
    obtain rfl := Option.some.inj h
    rfl
  | cons k ks ih =>
    rw [behind_cons] at h
    obtain ⟨p', hstep, hrest⟩ := Option.bind_eq_some_iff.1 h
    rw [behind_cons, step_outer hstep outer]
    exact ih hrest

/-- The open groups are as many as the depth. -/
theorem depthStep_of_step {p q : Pending} {k : TokenKind} (h : p.step k = some q) :
    depthStep (fun _ => true) p.groups.length k = some q.groups.length := by
  rcases groups_of_step h with ⟨rfl, outer, hgroups⟩ | ⟨rfl, outer, hgroups⟩ |
    ⟨rfl, outer, hgroups⟩ | ⟨rfl, outer, hgroups⟩ | ⟨hopen, hclose, hgroups⟩
  · rw [hgroups]
    rfl
  · rw [hgroups]
    rfl
  · rw [hgroups]
    rfl
  · rw [hgroups]
    rfl
  · rw [hgroups]
    simp [depthStep, hopen, hclose]

end Pending

/-- The tokens can stand where an operand is demanded and also where nothing is, and leave nothing
pending. -/
def Complete (ks : List TokenKind) : Prop :=
  ∀ demand groups, demand ≠ .base →
    Pending.behind ⟨demand, groups⟩ ks = some ⟨.nothing, groups⟩

/-- The token is a number, a letter or pi. -/
def TokenKind.isAtom : TokenKind → Bool
  | number _ | letter _ | pi => true
  | _ => false

/-- The token demands an operand and nothing else. -/
def TokenKind.isOperation : TokenKind → Bool
  | add | sub | mul | div | caret | function _ | comma | assign => true
  | _ => false

/-- The delimiter closes a group in braces, or one in parentheses. -/
def Closes (curly : Bool) (c : TokenKind) : Prop :=
  c = if curly then .closeCurly else .closeParen

namespace Complete

variable {ks ks' : List TokenKind}

theorem atom {k : TokenKind} (hk : k.isAtom = true) : Complete [k] := by
  intro demand groups hdemand
  cases k <;> first | exact absurd hk Bool.false_ne_true | (cases demand <;> first | rfl | exact absurd rfl hdemand)

theorem append (h : Complete ks) (h' : Complete ks') : Complete (ks ++ ks') := by
  intro demand groups hdemand
  rw [Pending.behind_append, h demand groups hdemand]
  exact h' .nothing groups (by decide)

/-- An operation in front. -/
theorem operation {k : TokenKind} (hk : k.isOperation = true) (h : Complete ks) :
    Complete (k :: ks) := by
  intro demand groups hdemand
  have hstep : Pending.step ⟨demand, groups⟩ k = some ⟨.operand, groups⟩ := by
    cases k <;> first | exact absurd hk Bool.false_ne_true | (cases demand <;> first | rfl | exact absurd rfl hdemand)
  rw [Pending.behind_cons, hstep]
  exact h .operand groups (by decide)

/-- What a closing delimiter does behind what is complete. -/
theorem closed {c : TokenKind} {curly : Bool} (hc : Closes curly c) (h : Complete ks)
    (outer : Demand) (groups : List OpenGroup) :
    Pending.behind ⟨.operand, ⟨curly, outer⟩ :: groups⟩ (ks ++ c :: ks') =
      Pending.behind ⟨outer, groups⟩ ks' := by
  have hstep : Pending.step ⟨.nothing, ⟨curly, outer⟩ :: groups⟩ c = some ⟨outer, groups⟩ := by
    cases curly
    · obtain rfl : c = .closeParen := hc
      rfl
    · obtain rfl : c = .closeCurly := hc
      rfl
  rw [Pending.behind_append, h .operand _ (by decide), Option.bind_some, Pending.behind_cons, hstep]
  rfl

theorem group {o c : TokenKind} (hc : o.closer = some c) (h : Complete ks) :
    Complete (o :: ks ++ [c]) := by
  intro demand groups hdemand
  obtain ⟨curly, hstep, hcloses⟩ : ∃ curly, Pending.step ⟨demand, groups⟩ o =
      some ⟨.operand, ⟨curly, .nothing⟩ :: groups⟩ ∧ Closes curly c := by
    cases o with
    | openParen =>
      refine ⟨false, ?_, (Option.some.inj hc).symm⟩
      cases demand <;> first | rfl | exact absurd rfl hdemand
    | openCurly =>
      refine ⟨true, ?_, (Option.some.inj hc).symm⟩
      cases demand <;> first | rfl | exact absurd rfl hdemand
    | _ => exact absurd hc.symm (Option.some_ne_none _)
  rw [List.cons_append, Pending.behind_cons, hstep]
  exact h.closed hcloses .nothing groups

/-- A command for a logarithm or a fraction, with a group in braces and what is behind it. -/
theorem command {k : TokenKind} (hk : k = .logBase ∨ k = .frac) (h : Complete ks) (h' : Complete ks') :
    Complete (k :: .openCurly :: ks ++ .closeCurly :: ks') := by
  intro demand groups hdemand
  have hstep : Pending.step ⟨demand, groups⟩ k = some ⟨.base, groups⟩ := by
    rcases hk with rfl | rfl <;> cases demand <;> first | rfl | exact absurd rfl hdemand
  rw [List.cons_append, Pending.behind_cons, hstep]
  have hbase : Pending.behind ⟨.base, groups⟩ (.openCurly :: (ks ++ .closeCurly :: ks')) =
      Pending.behind ⟨.operand, ⟨true, .operand⟩ :: groups⟩ (ks ++ .closeCurly :: ks') := rfl
  exact hbase.trans ((h.closed rfl .operand groups).trans (h' .operand groups (by decide)))

/-- A token that is complete is an atom, and the base of a logarithm without braces. -/
theorem logarithmOfAtom {k : TokenKind} (hk : Complete [k]) (h : Complete ks) :
    Complete (.logBase :: k :: ks) := by
  intro demand groups hdemand
  have hstep : Pending.step ⟨demand, groups⟩ .logBase = some ⟨.base, groups⟩ := by
    cases demand <;> first | rfl | exact absurd rfl hdemand
  have hatom : Pending.step ⟨.base, groups⟩ k = some ⟨.operand, groups⟩ := by
    have hone := hk .operand [] (by decide)
    cases k <;> first | rfl | cases hone
  rw [Pending.behind_cons, hstep, Option.bind_some, Pending.behind_cons, hatom]
  exact h .operand groups (by decide)

/-- A closing delimiter cannot follow what is complete, so nothing that goes on like this is complete. -/
theorem not_close {c : TokenKind} (hc : c.isClose = true) (h : Complete ks) :
    ¬ Complete (ks ++ c :: ks') := by
  intro hlonger
  have hbehind := hlonger .operand [] (by decide)
  rw [Pending.behind_append, h .operand [] (by decide), Option.bind_some, Pending.behind_cons] at hbehind
  have hstep : Pending.step ⟨.nothing, []⟩ c = none := by
    cases c <;> first | exact absurd hc Bool.false_ne_true | rfl
  rw [hstep] at hbehind
  exact absurd hbehind.symm (Option.some_ne_none _)

/-- The groups of what is complete are closed in turn. -/
theorem level (h : Complete ks) : Level (fun _ => true) ks := by
  have hdepth : ∀ (ks : List TokenKind) (p q : Pending), p.behind ks = some q →
      depthBehind (fun _ => true) p.groups.length ks = some q.groups.length := by
    intro ks
    induction ks with
    | nil =>
      intro p q hq
      rw [← Option.some.inj hq]
      rfl
    | cons k ks ih =>
      intro p q hq
      rw [Pending.behind_cons] at hq
      obtain ⟨p', hstep, hrest⟩ := Option.bind_eq_some_iff.1 hq
      rw [depthBehind, List.foldlM_cons, Pending.depthStep_of_step hstep]
      exact ih p' q hrest
  exact hdepth ks ⟨.operand, []⟩ _ (h .operand [] (by decide))

end Complete

/-- Tokens whose kinds are complete. -/
def Token.AllComplete (ts : List Token) : Prop :=
  Complete (ts.map (·.kind))

/-- The opening delimiter of a group. -/
def OpenGroup.IsOpenedBy (group : OpenGroup) (t : Token) : Prop :=
  t.kind = if group.curly then .openCurly else .openParen

/-- The check of the groups goes through as long as the tokens can stand where they do.  It keeps the
opening delimiters of the groups that are open. -/
theorem Pending.checkBalancedFrom_of_behind {p q : Pending} {ts opened : List Token}
    (h : p.behind (ts.map (·.kind)) = some q)
    (hopened : List.Forall₂ OpenGroup.IsOpenedBy p.groups opened) : ∃ opened',
      List.Forall₂ OpenGroup.IsOpenedBy q.groups opened' ∧
        checkBalancedFrom opened ts = checkBalancedFrom opened' [] := by
  induction ts generalizing p opened with
  | nil =>
    obtain rfl := Option.some.inj h
    exact ⟨opened, hopened, rfl⟩
  | cons t ts ih =>
    rw [List.map_cons, behind_cons] at h
    obtain ⟨p', hstep, hrest⟩ := Option.bind_eq_some_iff.1 h
    have hclosed : ∀ {curly : Bool} {outer : Demand}, p.groups = ⟨curly, outer⟩ :: p'.groups →
        Closes curly t.kind → ∃ opened', List.Forall₂ OpenGroup.IsOpenedBy q.groups opened' ∧
          checkBalancedFrom opened (t :: ts) = checkBalancedFrom opened' [] := by
      intro curly outer hgroups hcloses
      rw [hgroups] at hopened
      obtain ⟨u, us, hu, hus, rfl⟩ := List.forall₂_cons_left_iff.1 hopened
      have hcloser : u.kind.closer = some t.kind := by
        cases curly <;> rw [hu, hcloses] <;> rfl
      rw [checkBalancedFrom_close hcloser]
      exact ih hrest hus
    have hopens : ∀ {curly : Bool} {outer : Demand}, p'.groups = ⟨curly, outer⟩ :: p.groups →
        OpenGroup.IsOpenedBy ⟨curly, outer⟩ t → ∃ opened',
          List.Forall₂ OpenGroup.IsOpenedBy q.groups opened' ∧
            checkBalancedFrom opened (t :: ts) = checkBalancedFrom opened' [] := by
      intro curly outer hgroups hkind
      have hopen : t.kind.isOpen = true := by
        cases curly <;> rw [hkind] <;> rfl
      rw [checkBalancedFrom_open hopen]
      exact ih hrest (by rw [hgroups]; exact .cons hkind hopened)
    rcases groups_of_step hstep with ⟨hkind, outer, hgroups⟩ | ⟨hkind, outer, hgroups⟩ |
      ⟨hkind, outer, hgroups⟩ | ⟨hkind, outer, hgroups⟩ | ⟨hopen, hclose, hgroups⟩
    · exact hopens hgroups hkind
    · exact hopens hgroups hkind
    · exact hclosed hgroups hkind
    · exact hclosed hgroups hkind
    · rw [checkBalancedFrom_pass hopen hclose]
      exact ih hrest (by rw [hgroups]; exact hopened)

/-- The groups of complete tokens pass the check. -/
theorem Token.AllComplete.checkBalanced_eq {ts : List Token} (h : AllComplete ts) :
    checkBalanced ts = .ok () := by
  obtain ⟨opened, hopened, hcheck⟩ :=
    Pending.checkBalancedFrom_of_behind (h .operand [] (by decide)) .nil
  obtain rfl := List.forall₂_nil_left_iff.1 hopened
  exact hcheck

/-- Where a group with complete tokens inside ends is determined by the tokens. -/
theorem Token.AllComplete.eq_of_close {as bs rest rest' : List Token} {c c' : Token}
    (ha : AllComplete as) (hb : AllComplete bs) (hc : c.kind.isClose = true)
    (hc' : c'.kind.isClose = true) (h : as ++ c :: rest = bs ++ c' :: rest') :
    as = bs ∧ c = c' ∧ rest = rest' := by
  have hshorter : ∀ {as bs more : List Token} {c : Token}, AllComplete as → AllComplete bs →
      c.kind.isClose = true → bs ≠ as ++ c :: more := by
    intro as bs more c ha hb hc heq
    rw [heq, AllComplete, List.map_append] at hb
    exact Complete.not_close hc ha hb
  rcases List.append_eq_append_iff.1 h with ⟨more, hbs, hrest⟩ | ⟨more, has, hrest⟩
  · cases more with
    | nil =>
      rw [List.append_nil] at hbs
      obtain ⟨hc, hrest⟩ := List.cons.inj hrest
      exact ⟨hbs.symm, hc, hrest⟩
    | cons t more =>
      obtain ⟨rfl, -⟩ := List.cons.inj hrest
      exact absurd hbs (hshorter ha hb hc)
  · cases more with
    | nil =>
      rw [List.append_nil] at has
      obtain ⟨hc, hrest⟩ := List.cons.inj hrest
      exact ⟨has, hc.symm, hrest.symm⟩
    | cons t more =>
      obtain ⟨rfl, -⟩ := List.cons.inj hrest
      exact absurd has (hshorter hb ha hc')

section Readers

variable {inner : Factor.Reader}

theorem closer_paren {o c : Token} (ho : o.kind = .openParen) (hc : c.kind = .closeParen) :
    o.kind.closer = some c.kind := by
  rw [ho, hc]
  rfl

theorem closer_brace {o c : Token} (ho : o.kind = .openCurly) (hc : c.kind = .closeCurly) :
    o.kind.closer = some c.kind := by
  rw [ho, hc]
  rfl

theorem isClose_of_closer {o c : Token} (h : o.kind.closer = some c.kind) :
    o.kind.isOpen = true ∧ c.kind.isClose = true :=
  (TokenKind.delimiters_of_closer h).imp_right And.right

theorem complete_group {o c : Token} {ts : List Token} (hc : o.kind.closer = some c.kind)
    (h : Token.AllComplete ts) : Token.AllComplete (o :: ts ++ [c]) := by
  have hgroup := Complete.group hc h
  rw [Token.AllComplete, List.map_append]
  exact hgroup

/-- A group of complete tokens counts as nothing from outside. -/
theorem level_group {allowed : TokenKind → Bool} {o c : Token} {ts : List Token}
    (hc : o.kind.closer = some c.kind) (h : Token.AllComplete ts) :
    Level allowed ((o :: ts ++ [c]).map (·.kind)) := by
  have hkinds : (o :: ts ++ [c]).map (·.kind) = o.kind :: (ts.map (·.kind) ++ [c.kind]) := by simp
  rw [hkinds]
  exact h.level.group hc

theorem Level.cons_token {allowed : TokenKind → Bool} {t : Token} {k : TokenKind} {ts : List Token}
    (h : Level allowed (ts.map (·.kind))) (ht : t.kind = k) (hk : depthStep allowed 0 k = some 0) :
    Level allowed ((t :: ts).map (·.kind)) := by
  rw [List.map_cons, ht, Level, depthBehind, List.foldlM_cons, hk]
  exact h

theorem Level.of_token {allowed : TokenKind → Bool} {t : Token} {k : TokenKind} (ht : t.kind = k)
    (hk : depthStep allowed 0 k = some 0) : Level allowed ([t].map (·.kind)) :=
  @Level.cons_token allowed t k [] .nil ht hk

theorem Factor.ArgumentTokens.complete {argument rest : List Token}
    (h : ArgumentTokens argument rest) (hargument : Token.AllComplete argument) :
    Token.AllComplete rest := by
  cases h with
  | plain _ => exact hargument
  | paren ho hc => exact complete_group (closer_paren ho hc) hargument

theorem Factor.ExponentTokens.complete {exponent rest : List Token}
    (h : ExponentTokens exponent rest) (hexponent : Token.AllComplete exponent) :
    Token.AllComplete rest := by
  cases h with
  | single => exact hexponent
  | paren ho hc => exact hexponent
  | brace ho hc => exact complete_group (closer_brace ho hc) hexponent

theorem splitTopLevel_ne_nil (separator : TokenKind) (depth : Int) (ts : List Token) :
    splitTopLevel separator depth ts ≠ [] := by
  cases ts with
  | nil => exact List.cons_ne_nil _ _
  | cons t ts =>
    rw [splitTopLevel]
    split
    · exact List.cons_ne_nil _ _
    · cases splitTopLevel separator (t.depthAfter depth) ts <;> exact List.cons_ne_nil _ _

/-- Parts for which `P` holds, with commas between them. -/
inductive CommaSeparated (P : List Token → Prop) : List Token → Prop
  | single {part : List Token} (hpart : P part) : CommaSeparated P part
  | more {t : Token} {part rest : List Token} (ht : t.kind = .comma) (hpart : P part)
    (hrest : CommaSeparated P rest) : CommaSeparated P (part ++ t :: rest)

/-- What is split at commas consists of the parts with commas between them.  `done` is what has been
gone through of the first part. -/
theorem commaSeparated_of_splitTopLevel {P : List Token → Prop} {ts first : List Token}
    {rest : List (List Token)} {depth : Int} (done : List Token)
    (h : splitTopLevel .comma depth ts = first :: rest) (hrest : ∀ part ∈ rest, P part)
    (hfirst : P (done ++ first)) : CommaSeparated P (done ++ ts) := by
  induction ts generalizing depth done first rest with
  | nil =>
    obtain ⟨rfl, -⟩ := List.cons.inj h
    exact .single hfirst
  | cons t ts ih =>
    rw [splitTopLevel] at h
    split at h
    · next hcomma =>
      obtain ⟨rfl, rfl⟩ := List.cons.inj h
      obtain ⟨first', rest', hsplit⟩ := List.exists_cons_of_ne_nil
        (splitTopLevel_ne_nil .comma depth ts)
      rw [hsplit] at hrest
      obtain ⟨hnext, hrest⟩ := List.forall_mem_cons.1 hrest
      rw [List.append_nil] at hfirst
      exact .more hcomma.2.1 hfirst (ih [] hsplit hrest hnext)
    · obtain ⟨first', rest', hsplit⟩ := List.exists_cons_of_ne_nil
        (splitTopLevel_ne_nil .comma (t.depthAfter depth) ts)
      rw [hsplit] at h
      obtain ⟨rfl, rfl⟩ := List.cons.inj h
      rw [List.append_cons] at hfirst ⊢
      exact ih (done ++ [t]) hsplit hrest hfirst

/-- The arguments of a call stand between commas. -/
theorem commaSeparated_of_arguments {within : List Token} {arguments : List Expression}
    (h : (splitTopLevel .comma 0 within).mapM inner = some arguments) :
    CommaSeparated (fun part => ∃ e, inner part = some e) within := by
  have hparts : ∀ part ∈ splitTopLevel .comma 0 within, ∃ e, inner part = some e := by
    intro part hpart
    obtain ⟨e, -, he⟩ := exists_of_forall₂ (mapM_eq_some.1 h) hpart
    exact ⟨e, he⟩
  obtain ⟨first, rest, hsplit⟩ := List.exists_cons_of_ne_nil (splitTopLevel_ne_nil .comma 0 within)
  rw [hsplit] at hparts
  obtain ⟨hfirst, hrest⟩ := List.forall_mem_cons.1 hparts
  exact commaSeparated_of_splitTopLevel [] hsplit hrest hfirst

/-- Commas are operations, so arguments with commas between them are complete. -/
theorem CommaSeparated.complete {within : List Token}
    (h : CommaSeparated (fun part => ∃ e, inner part = some e) within)
    (hinner : ∀ ts e, inner ts = some e → Token.AllComplete ts) : Token.AllComplete within := by
  induction h with
  | single hpart =>
    obtain ⟨e, he⟩ := hpart
    exact hinner _ e he
  | @more t part rest ht hpart _ ih =>
    obtain ⟨e, he⟩ := hpart
    rw [Token.AllComplete, List.map_append, List.map_cons, ht]
    exact (hinner part e he).append (Complete.operation rfl ih)

theorem complete_of_arguments {within : List Token} {arguments : List Expression}
    (h : (splitTopLevel .comma 0 within).mapM inner = some arguments)
    (hinner : ∀ ts e, inner ts = some e → Token.AllComplete ts) : Token.AllComplete within :=
  (commaSeparated_of_arguments h).complete hinner

/-- A factor is complete if the expressions inside it are. -/
theorem Factor.Parsed.complete {tokens : List Token} {f : Factor} (h : Parsed inner tokens f)
    (hinner : ∀ ts e, inner ts = some e → Token.AllComplete ts) : Token.AllComplete tokens := by
  cases h with
  | @fraction s o c o' c' as bs a b hs ho hc ho' hc' ha hb =>
    have hsecond := complete_group (closer_brace ho' hc') (hinner bs b hb)
    have hfraction := Complete.command (.inr rfl) (hinner as a ha) hsecond
    rw [← hs, ← ho, ← hc] at hfraction
    simpa [Token.AllComplete] using hfraction
  | @power t bases rest exponents base exponent hcaret ht hrest hbase hexponent =>
    have hexponent := hrest.complete (hinner _ _ hexponent)
    have hpower := (hinner _ _ hbase).append
      (Complete.operation (k := t.kind) (by rw [ht]; rfl) hexponent)
    rw [Token.AllComplete, List.map_append]
    exact hpower
  | @call t o c name within arguments ht hname ho hc harguments =>
    have hgroup := complete_group (closer_paren ho hc)
      (complete_of_arguments harguments hinner)
    exact (Complete.atom (k := t.kind) (by rw [ht]; rfl)).append hgroup
  | bracket ho ha =>
    exact complete_group ho (hinner _ _ ha)
  | @unary t f rest as a ht hrest ha =>
    exact Complete.operation (k := t.kind) (by rw [ht]; rfl) (hrest.complete (hinner _ _ ha))
  | @logarithm t o c bases rest as base a ht ho hc hrest hbase ha =>
    have hlog := Complete.command (.inl rfl) (hinner _ _ hbase) (hrest.complete (hinner _ _ ha))
    rw [← ht, ← ho, ← hc] at hlog
    simpa [Token.AllComplete] using hlog
  | @logarithmOfToken t u rest as base a ht hrest hbase ha =>
    have hlog := Complete.logarithmOfAtom (hinner _ _ hbase) (hrest.complete (hinner _ _ ha))
    rw [Token.AllComplete, List.map_cons, ht]
    exact hlog
  | @«variable» t name ht _ => exact Complete.atom (k := t.kind) (by rw [ht]; rfl)
  | @number t x ht => exact Complete.atom (k := t.kind) (by rw [ht]; rfl)
  | @pi t ht => exact Complete.atom (k := t.kind) (by rw [ht]; rfl)
  | @e t ht => exact Complete.atom (k := t.kind) (by rw [ht]; rfl)

/-- Factors in a row are complete, and so is what stands in front of them with them. -/
theorem Item.Factored.complete {started : Bool} {tokens : List Token} {fs : List Factor}
    (h : Factored inner started tokens fs)
    (hinner : ∀ ts e, inner ts = some e → Token.AllComplete ts) :
    tokens = [] ∨ Token.AllComplete tokens := by
  have hfirst : ∀ {first rest : List Token} {f : Factor}, Factor.IsLongest inner first rest f →
      rest = [] ∨ Token.AllComplete rest → Token.AllComplete (first ++ rest) := by
    intro first rest f hf hrest
    have hfirst := (Factor.parsed_of_readWith hf.reads).complete hinner
    rcases hrest with rfl | hrest
    · rw [List.append_nil]
      exact hfirst
    · rw [Token.AllComplete, List.map_append]
      exact hfirst.append hrest
  induction h with
  | nil => exact .inl rfl
  | @mul t u us fs ht hu _ ih =>
    have hrest := ih.resolve_left (List.cons_ne_nil _ _)
    exact .inr (Complete.operation (k := t.kind) (by rw [ht]; rfl) hrest)
  | @div t first rest f fs ht hf _ ih =>
    exact .inr (Complete.operation (k := t.kind) (by rw [ht]; rfl) (hfirst hf ih))
  | factor hmul hdiv hf _ ih => exact .inr (hfirst hf ih)

theorem Item.Parsed.complete {tokens : List Token} {i : Item} (h : Parsed inner tokens i)
    (hinner : ∀ ts e, inner ts = some e → Token.AllComplete ts) : Token.AllComplete tokens := by
  have hfactors : ∀ {ts : List Token} {fs : List Factor}, fs ≠ [] → Factored inner false ts fs →
      Token.AllComplete ts := by
    intro ts fs hne h
    refine (h.complete hinner).resolve_left ?_
    rintro rfl
    cases h
    exact hne rfl
  cases h with
  | @plus t ts fs ht hne h =>
    exact Complete.operation (k := t.kind) (by rw [ht]; rfl) (hfactors hne h)
  | @minus t ts fs ht hne h =>
    exact Complete.operation (k := t.kind) (by rw [ht]; rfl) (hfactors hne h)
  | unsigned ht hne h => exact hfactors hne h

/-- What holds of the tokens of each item, and of tokens in a row if it holds of each of them, holds
of the tokens of an expression. -/
theorem Expression.of_items {P : List Token → Prop} {tokens : List Token} {e : Expression}
    (h : readWith inner tokens = some e) (happend : ∀ ts us, P ts → P us → P (ts ++ us))
    (hitems : ∀ part ∈ splitItems tokens, ∀ i, Item.Parsed inner part i → P part) : P tokens := by
  have hjoin : ∀ parts : List (List Token), parts ≠ [] → (∀ part ∈ parts, P part) →
      P parts.flatten := by
    intro parts
    induction parts with
    | nil => exact fun hne => absurd rfl hne
    | cons part parts ih =>
      intro _ hparts
      obtain ⟨hpart, hparts⟩ := List.forall_mem_cons.1 hparts
      by_cases hne : parts = []
      · rw [hne, List.flatten_cons, List.flatten_nil, List.append_nil]
        exact hpart
      · exact happend _ _ hpart (ih hne hparts)
  obtain ⟨items⟩ := e
  obtain ⟨hne, hparsed⟩ := readWith_eq_some.1 h
  rw [← flatten_splitItems tokens]
  refine hjoin _ (fun hnil => hne ?_) fun part hpart => ?_
  · rw [← flatten_splitItems tokens, hnil, List.flatten_nil]
  · obtain ⟨i, -, hi⟩ := exists_of_forall₂ hparsed hpart
    exact hitems part hpart i hi

/-- An expression is complete if the expressions inside it are. -/
theorem Expression.complete_of_readWith {tokens : List Token} {e : Expression}
    (h : readWith inner tokens = some e)
    (hinner : ∀ ts e, inner ts = some e → Token.AllComplete ts) : Token.AllComplete tokens := by
  refine of_items h (fun ts us hts hus => ?_) fun part _ i hi => hi.complete hinner
  rw [Token.AllComplete, List.map_append]
  exact hts.append hus

/-- What is read as an expression is complete. -/
theorem Expression.complete_of_read {tokens : List Token} {e : Expression}
    (h : read tokens = some e) : Token.AllComplete tokens :=
  read_induction (P := fun ts _ => Token.AllComplete ts)
    (fun _ hinner _ _ he => complete_of_readWith he hinner) h

/-- What is shown of the tokens of expressions can be shown along with their being complete. -/
theorem Expression.complete_and_of_readNested {P : List Token → Prop}
    (step : ∀ inner : Factor.Reader, (∀ ts e, inner ts = some e → Token.AllComplete ts) →
      (∀ ts e, inner ts = some e → P ts) → ∀ ts e, readWith inner ts = some e → P ts)
    {depth : Nat} {tokens : List Token} {e : Expression} (h : readNested depth tokens = some e) :
    Token.AllComplete tokens ∧ P tokens := by
  refine readNested_induction (P := fun ts _ => Token.AllComplete ts ∧ P ts)
    (fun inner hinner ts e he => ?_) h
  have hcomplete : ∀ ts e, inner ts = some e → Token.AllComplete ts := fun ts e h => (hinner ts e h).1
  exact ⟨complete_of_readWith he hcomplete,
    step inner hcomplete (fun ts e h => (hinner ts e h).2) ts e he⟩

/-- A token that is read as an expression is a number, a letter or pi. -/
theorem Expression.isAtom_of_read {t : Token} {e : Expression} (h : read [t] = some e) :
    t.kind.isAtom = true := by
  have hone := complete_of_read h .operand [] (by decide)
  rw [List.map_singleton] at hone
  cases hk : t.kind <;> rw [hk] at hone <;> first | rfl | cases hone

/-- A brace is no expression by itself. -/
theorem Expression.read_openCurly {t : Token} (ht : t.kind = .openCurly) (e : Expression) :
    read [t] ≠ some e := by
  intro h
  have hatom := isAtom_of_read h
  rw [ht] at hatom
  exact Bool.false_ne_true hatom

end Readers

end ImplicitCurves

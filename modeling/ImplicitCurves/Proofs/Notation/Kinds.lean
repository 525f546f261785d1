import ImplicitCurves.Proofs.Notation.Lexing
import ImplicitCurves.Tree.Printer

/-!
# The tokens of trees

The kinds of the tokens that the text of a tree consists of, and the trees whose text can be taken
apart again.  In such a tree a power only stands behind powers in its item, because the base of a
power is everything in front of its caret; and behind a function only groups and functions stand,
because the argument of a function goes on as long as it can.
-/

namespace ImplicitCurves

/-- Whether a multiplication sign is written between two neighbouring factors. -/
def needsMul : Factor → Factor → Bool
  | _, .number _ => true
  | .variable _ _, .bracket _ => true
  | .variable _ _, .call _ _ _ => true
  | _, _ => false

/-- The tokens in front of a factor, given the factor in front of it. -/
def separatorKinds (previous : Option Factor) (f : Factor) : List TokenKind :=
  if previous.any fun p => needsMul p f then [.mul] else []

/-- The token of the sign of an item. -/
def signKinds (first positive : Bool) : List TokenKind :=
  match first, positive with
  | true, true => []
  | false, true => [.add]
  | _, false => [.sub]

/-- The token of a named constant. -/
def NamedConstant.kind : NamedConstant → TokenKind
  | e => .letter 'e'
  | pi => .pi

/-- The tokens of a group in parentheses. -/
def parenKinds (ks : List TokenKind) : List TokenKind :=
  .openParen :: ks ++ [.closeParen]

/-- The tokens of a group in braces. -/
def braceKinds (ks : List TokenKind) : List TokenKind :=
  .openCurly :: ks ++ [.closeCurly]

mutual

/-- The tokens of an expression. -/
def Expression.kinds : Expression → List TokenKind
  | ⟨items⟩ => kindsOfItems true items

/-- The tokens of items with their signs. -/
def kindsOfItems (first : Bool) : List Item → List TokenKind
  | [] => []
  | i :: is => signKinds first i.positive ++ i.factorKinds ++ kindsOfItems false is

/-- The tokens of the factors of an item. -/
def Item.factorKinds : Item → List TokenKind
  | ⟨_, factors⟩ => kindsOfFactors none factors

/-- The tokens of factors, with those that separate the first from the factor in front of it. -/
def kindsOfFactors (previous : Option Factor) : List Factor → List TokenKind
  | [] => []
  | f :: fs => separatorKinds previous f ++ f.kinds ++ kindsOfFactors (some f) fs

/-- The tokens of a factor.  The base of a power is a single factor. -/
def Factor.kinds : Factor → List TokenKind
  | .number x => [.number x]
  | .constant c => [c.kind]
  | .variable name _ => [.letter name]
  | .fraction a b => .frac :: braceKinds a.kinds ++ braceKinds b.kinds
  | .power base exponent => base.kinds ++ .caret :: braceKinds exponent.kinds
  | .bracket a => parenKinds a.kinds
  | .unary f a => .function f :: parenKinds a.kinds
  | .logarithm base antilog => .logBase :: braceKinds base.kinds ++ parenKinds antilog.kinds
  | .call name arguments _ => .letter name :: parenKinds (kindsOfArguments true arguments)

/-- The tokens of arguments, with commas between them. -/
def kindsOfArguments (first : Bool) : List Expression → List TokenKind
  | [] => []
  | e :: es => (if first then [] else [.comma]) ++ e.kinds ++ kindsOfArguments false es

end

namespace Factor

/-- Whether the factor is a power. -/
def isPower : Factor → Bool
  | .power _ _ => true
  | _ => false

/-- Whether the factor is a number. -/
def isNumber : Factor → Bool
  | .number _ => true
  | _ => false

/-- Whether the factor is a number or a variable. -/
def isPlain : Factor → Bool
  | .number _ | .variable _ _ => true
  | _ => false

/-- Whether the factor is a function or a logarithm, which take what is behind them as a part of
their argument if they can. -/
def isFunction : Factor → Bool
  | .unary _ _ | .logarithm _ _ => true
  | _ => false

/-- Whether the factor is a function, a logarithm, or a power of one. -/
def isOpen : Factor → Bool
  | .power ⟨[⟨true, [f]⟩]⟩ _ => f.isFunction
  | f => f.isFunction

/-- Whether the factor ends with a parenthesis that a function in front of it cannot take. -/
def isClosed : Factor → Bool
  | .bracket _ | .unary _ _ | .logarithm _ _ => true
  | _ => false

/-- Whether the second factor can stand somewhere behind the first one in an item. -/
def mayPrecede (f g : Factor) : Bool :=
  (!g.isPower || f.isPower) && (!f.isOpen || g.isClosed)

/-- The factor can be written as it stands: a number reads back, a name is a letter other than `e`
with nothing hidden behind it, and the base of a power is a single factor, which is no power. -/
def WellFormed : Factor → Prop
  | .number x => Decimal.ReadsBack x
  | .variable name bound => (name.isAlpha = true ∧ name ≠ 'e') ∧ bound = none
  | .power base _ => ∃ f : Factor, base = .ofFactor f ∧ f.isPower = false
  | .call name arguments link => (name.isAlpha = true ∧ name ≠ 'e') ∧ link = .unlinked ∧ arguments ≠ []
  | _ => True

end Factor

/-- The factors can be read one after another. -/
def Item.Ordered (i : Item) : Prop :=
  i.factors.Pairwise fun f g => f.mayPrecede g = true

/-- No power stands right behind a number or a variable. -/
def Item.Spaced (i : Item) : Prop :=
  i.factors.IsChain fun f g => (f.isPlain && g.isPower) = false

theorem Item.Ordered.spaced {i : Item} (h : i.Ordered) : i.Spaced := by
  refine List.Pairwise.isChain (h.imp fun {f g} hfg => ?_)
  cases f with
  | number x =>
    cases g <;> first | rfl | exact absurd hfg Bool.false_ne_true
  | «variable» name bound =>
    cases g <;> first | rfl | exact absurd hfg Bool.false_ne_true
  | _ => rfl

namespace Expression

/-- There is at least one item, each item has at least one factor, and its factors can be written. -/
def WellFormed (e : Expression) : Prop :=
  e.items ≠ [] ∧ ∀ i ∈ e.items, i.factors ≠ [] ∧ ∀ f ∈ i.factors, f.WellFormed

/-- The expression and all expressions inside it have a property.  The bodies of linked definitions
do not count. -/
inductive Everywhere (p : Expression → Prop) : Expression → Prop
  | intro {items : List Item} (here : p ⟨items⟩)
    (inside : ∀ i ∈ items, ∀ f ∈ i.factors, ∀ e ∈ f.children, Everywhere p e) : Everywhere p ⟨items⟩

/-- The text of the expression is cut into the tokens of the expression. -/
def Writable : Expression → Prop :=
  Everywhere fun e => e.WellFormed ∧ ∀ i ∈ e.items, i.Spaced

/-- The text of the expression can be read back. -/
def Legible : Expression → Prop :=
  Everywhere fun e => e.WellFormed ∧ ∀ i ∈ e.items, i.Ordered

theorem Everywhere.here {p : Expression → Prop} {e : Expression} (h : e.Everywhere p) : p e := by
  cases h with
  | intro here inside => exact here

theorem Everywhere.inside {p : Expression → Prop} {e : Expression} (h : e.Everywhere p) {i : Item}
    (hi : i ∈ e.items) {f : Factor} (hf : f ∈ i.factors) : ∀ c ∈ f.children, c.Everywhere p := by
  cases h with
  | intro here inside => exact inside i hi f hf

theorem everywhere_iff {p : Expression → Prop} {items : List Item} : Everywhere p ⟨items⟩ ↔
    p ⟨items⟩ ∧ ∀ i ∈ items, ∀ f ∈ i.factors, ∀ e ∈ f.children, Everywhere p e := by
  constructor
  · intro h
    exact ⟨h.here, fun i hi f hf => h.inside hi hf⟩
  · rintro ⟨here, inside⟩
    exact .intro here inside

theorem Everywhere.imp {p q : Expression → Prop} (hpq : ∀ e, p e → q e) {e : Expression}
    (h : e.Everywhere p) : e.Everywhere q := by
  induction h with
  | intro here inside ih => exact .intro (hpq _ here) ih

theorem Everywhere.and {p q : Expression → Prop} {e : Expression} (hp : e.Everywhere p)
    (hq : e.Everywhere q) : e.Everywhere fun e => p e ∧ q e := by
  induction hp with
  | intro here inside ih =>
    exact .intro ⟨here, hq.here⟩ fun i hi f hf c hc => ih i hi f hf c hc (hq.inside hi hf c hc)

theorem Legible.writable {e : Expression} (h : e.Legible) : e.Writable :=
  h.imp fun _ here => ⟨here.1, fun i hi => (here.2 i hi).spaced⟩

theorem Writable.wellFormed {e : Expression} (h : e.Writable) : e.Everywhere WellFormed :=
  h.imp fun _ here => here.1

end Expression

end ImplicitCurves

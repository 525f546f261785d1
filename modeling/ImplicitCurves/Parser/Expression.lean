import ImplicitCurves.Parser.Factor

/-!
# Reading expressions

An expression is split at its signs into items, and an item is read factor by factor, each factor
being the longest one that starts where the last one ended.
-/

namespace ImplicitCurves

namespace Item

/-- The longest of the first `length` tokens that make up a factor, and how many there are. -/
def longestFactor (inner : Factor.Reader) (tokens : List Token) :
    (length : Nat) → Option (Factor × Nat)
  | 0 => none
  | length + 1 =>
    match Factor.readWith inner (tokens.take (length + 1)) with
    | some f => some (f, length + 1)
    | none => longestFactor inner tokens length

/-- Whether the token can follow a multiplication sign. -/
def canFollowMul (t : Token) : Bool :=
  t.kind ≠ .mul && t.kind ≠ .div

/-- Reads factors up to the end of the tokens.  A multiplication sign stands between two factors, a
division sign in front of one.  `started` says whether there is a factor yet. -/
def readFactors (inner : Factor.Reader) (started : Bool) : List Token → Option (List Factor)
  | [] => some []
  | t :: ts =>
    match t.kind with
    | .mul =>
      match ts with
      | [] => none
      | u :: us =>
        if started && canFollowMul u then readFactors inner started (u :: us) else none
    | .div =>
      if started then
        match longestFactor inner ts ts.length with
        | none => none
        | some (f, length) =>
          (readFactors inner true (ts.drop length)).map (f.reciprocal :: ·)
      else none
    | _ =>
      match longestFactor inner (t :: ts) (ts.length + 1) with
      | none => none
      | some (f, length) => (readFactors inner true (ts.drop (length - 1))).map (f :: ·)
termination_by tokens => tokens.length
decreasing_by all_goals simp; try omega

/-- Splits the sign in front off: whether it is not a minus, and the rest. -/
def splitSign : List Token → Bool × List Token
  | [] => (true, [])
  | t :: ts =>
    match t.kind with
    | .sub => (false, ts)
    | .add => (true, ts)
    | _ => (true, t :: ts)

/-- Reads an item, which has at least one factor. -/
def readWith (inner : Factor.Reader) (tokens : List Token) : Option Item :=
  let (positive, rest) := splitSign tokens
  match readFactors inner false rest with
  | none | some [] => none
  | some factors => some ⟨positive, factors⟩

end Item

namespace Expression

/-- Splits in front of each sign at depth zero, where `depth` is the depth of the first token. -/
def splitSigns (depth : Int) : List Token → List (List Token)
  | [] => [[]]
  | t :: ts =>
    let parts := addToFirst t (splitSigns (t.depthAfter depth) ts)
    if depth = 0 ∧ t.kind.isSign then [] :: parts else parts

/-- The tokens of the items of an expression.  A sign at the start does not start a new item. -/
def splitItems : List Token → List (List Token)
  | [] => [[]]
  | t :: ts => addToFirst t (splitSigns (t.depthAfter 0) ts)

/-- Reads an expression, given a reader for the expressions inside it. -/
def readWith (inner : Factor.Reader) (tokens : List Token) : Option Expression :=
  if tokens.isEmpty then none
  else ((splitItems tokens).mapM (Item.readWith inner)).map fun items => ⟨items⟩

/-- Reads an expression in which expressions are nested at most `depth` deep. -/
def readNested : (depth : Nat) → List Token → Option Expression
  | 0, _ => none
  | depth + 1, tokens => readWith (readNested depth) tokens

/-- Reads an expression that makes up all of the tokens.  Each expression has fewer tokens than the
one around it, so there are not more levels than tokens. -/
def read (tokens : List Token) : Option Expression :=
  readNested tokens.length tokens

end Expression

/-- Reads a factor that makes up all of the tokens. -/
def Factor.read (tokens : List Token) : Option Factor :=
  Factor.readWith Expression.read tokens

/-- Reads an item that makes up all of the tokens. -/
def Item.read (tokens : List Token) : Option Item :=
  Item.readWith Expression.read tokens

/-- The error that a cause is found somewhere in the tokens. -/
def errorAt (cause : Cause) (tokens : List Token) : Error :=
  ⟨cause, (spanOf tokens).toList⟩

/-- The error for an item that cannot be read: a sign alone misses an expression. -/
def Item.explain (tokens : List Token) : Error :=
  match tokens with
  | [t] => if t.kind.isSign then ⟨.emptyExpression, [t.span]⟩ else errorAt .invalidTerm tokens
  | _ => errorAt .invalidTerm tokens

/-- The error for tokens that are no expression, which is about the first item that cannot be
read. -/
def Expression.explain (tokens : List Token) : Error :=
  if tokens.isEmpty then ⟨.emptyExpression, []⟩
  else
    match (splitItems tokens).find? fun part => (Item.read part).isNone with
    | some part => Item.explain part
    | none => errorAt .invalidTerm tokens

end ImplicitCurves

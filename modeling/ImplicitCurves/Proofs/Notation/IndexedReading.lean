import ImplicitCurves.Proofs.Notation.Placement
import ImplicitCurves.Proofs.Notation.Slices

/-!
# Reading by index

The readers of items, expressions and statements, and what explains their errors, written with
indexes and slices of tokens that are checked.  Factors are read from any part of an item, so the
tokens they are read from can have groups that are not closed, or closed by a token that opens none.
Nothing is out of range even so: main statement `Indexed.readsInRange`.
-/

namespace ImplicitCurves

namespace Indexed

/-! ### Items -/

/-- The longest of the first `length` tokens that make up a factor. -/
def longestFactor (inner : Reader) (tokens : List Token) :
    (length : Nat) → Indexed (Factor × { length : Nat // 0 < length })
  | 0 => failure
  | length + 1 =>
    (do
      let f ← readFactor inner (← slice tokens 0 (length + 1))
      return (f, ⟨length + 1, length.succ_pos⟩)) <|>
    longestFactor inner tokens length

/-- Reads factors from the index `cursor` on, behind the factors that are there. -/
def readFactors (inner : Reader) (tokens : List Token) (factors : List Factor) (cursor : Nat) :
    Indexed (List Factor) :=
  if cursor < tokens.length then do
    match (← tokenAt tokens cursor).kind with
    | .mul =>
      guard (factors ≠ [] ∧ (tokens[cursor + 1]?).any Item.canFollowMul)
      readFactors inner tokens factors (cursor + 1)
    | .div =>
      guard (factors ≠ [])
      let divided ← slice tokens (cursor + 1) tokens.length
      let (f, ⟨length, _⟩) ← longestFactor inner divided divided.length
      readFactors inner tokens (factors ++ [f.reciprocal]) (cursor + 1 + length)
    | _ =>
      let rest ← slice tokens cursor tokens.length
      let (f, ⟨length, _⟩) ← longestFactor inner rest rest.length
      readFactors inner tokens (factors ++ [f]) (cursor + length)
  else return factors
termination_by tokens.length - cursor

/-- Reads an item. -/
def readItem (inner : Reader) (tokens : List Token) : Indexed Item := do
  let kind ← inRange (kindAt tokens 0)
  let factors ← readFactors inner tokens [] (if kind = .sub ∨ kind = .add then 1 else 0)
  guard (factors ≠ [])
  return ⟨kind ≠ .sub, factors⟩

section Items

variable {inner : Reader} {reader : Factor.Reader} {tokens : List Token}

theorem InRangeBelow.mono {m n : Nat} (h : InRangeBelow n inner reader) (hmn : m ≤ n) :
    InRangeBelow m inner reader :=
  fun us hus => h us (by omega)

/-- What is done with the longest factor is in range if it is for all factors that have a token. -/
theorem longestFactor_bind (h : InRangeBelow tokens.length inner reader) {length : Nat}
    (hlength : length ≤ tokens.length) {β : Type}
    {k : Factor × { length : Nat // 0 < length } → Indexed β} {g : Factor × Nat → Option β}
    (hk : ∀ found, k found = inRange (g (found.1, found.2))) :
    longestFactor inner tokens length >>= k =
      inRange ((Item.longestFactor reader tokens length).bind g) := by
  induction length with
  | zero => rfl
  | succ length ih =>
    have htake : (tokens.take (length + 1)).length ≤ tokens.length := List.length_take_le' _ _
    rw [longestFactor, slice_take hlength, inRange_some_bind, readFactor_eq (h.mono htake),
      Item.longestFactor]
    cases Factor.readWith reader (tokens.take (length + 1)) with
    | none => exact ih (by omega)
    | some f => exact hk (f, ⟨length + 1, length.succ_pos⟩)

/-- Behind the factors that are there stand those of the tokens from the cursor on. -/
theorem readFactors_eq (h : InRangeBelow tokens.length inner reader) (factors : List Factor)
    (cursor : Nat) : readFactors inner tokens factors cursor = inRange
      ((Item.readFactors reader (!factors.isEmpty) (tokens.drop cursor)).map (factors ++ ·)) := by
  fun_induction readFactors inner tokens factors cursor with
  | case1 factors cursor hlt hmul hdiv hother =>
    have hcut : tokens.drop cursor = tokens[cursor] :: tokens.drop (cursor + 1) :=
      List.drop_eq_getElem_cons hlt
    have hdrop : ∀ start, (tokens.drop start).length ≤ tokens.length := by simp
    have hstarted : (!factors.isEmpty) = true ↔ factors ≠ [] := by simp
    have hadded : ∀ f : Factor, (!(factors ++ [f]).isEmpty) = true := by simp
    have hmore : ∀ (f : Factor) (fs : Option (List Factor)),
        fs.map (factors ++ [f] ++ ·) = (fs.map (f :: ·)).map (factors ++ ·) := by
      intro f fs
      cases fs <;> simp
    -- behind a factor that is added, the others are read as those of an item that is started
    simp only [hadded, hmore] at hdiv hother
    rw [tokenAt_eq (List.getElem?_eq_getElem hlt), inRange_some_bind]
    generalize tokens[cursor] = t at *
    split
    · next ht =>
      rw [hcut, Item.readFactors_mul ht, guard_bind, List.head?_drop, hmul]
      simp only [Bool.and_eq_true, hstarted]
      split <;> rfl
    · next ht =>
      rw [hcut, Item.readFactors_div ht, guard_bind, slice_drop (by omega), inRange_some_bind]
      simp only [hstarted]
      split
      · rw [Option.map_bind]
        refine longestFactor_bind (h.mono (hdrop _)) le_rfl ?_
        rintro ⟨f, length, hpos⟩
        dsimp only [Function.comp_apply]
        rw [hdiv f length hpos, List.drop_drop]
      · rfl
    · next hmulNe hdivNe =>
      rw [slice_drop hlt.le, inRange_some_bind, hcut, Item.readFactors_factor hmulNe hdivNe, ← hcut,
        Option.map_bind]
      refine longestFactor_bind (h.mono (hdrop _)) le_rfl ?_
      rintro ⟨f, length, hpos⟩
      have hbehind : cursor + 1 + (length - 1) = cursor + length := by omega
      dsimp only [Function.comp_apply]
      rw [hother f length hpos, List.drop_drop, hbehind]
  | case2 factors cursor hle =>
    rw [List.drop_of_length_le (by omega), Item.readFactors, Option.map_some, List.append_nil]
    rfl

theorem readItem_eq (h : InRangeBelow tokens.length inner reader) :
    readItem inner tokens = inRange (Item.readWith reader tokens) := by
  cases tokens with
  | nil =>
    rw [Item.readWith, Item.splitSign]
    dsimp only
    rw [Item.readFactors]
    rfl
  | cons t ts =>
    have hkind : kindAt (t :: ts) 0 = some t.kind := rfl
    have hsign : Item.splitSign (t :: ts) = (decide (t.kind ≠ .sub),
        (t :: ts).drop (if t.kind = .sub ∨ t.kind = .add then 1 else 0)) := by
      rw [Item.splitSign]
      split
      · next hk => simp [hk]
      · next hk => simp [hk]
      · next hsub hadd =>
        rw [if_neg (not_or_intro hsub hadd), decide_eq_true (show t.kind ≠ .sub from hsub)]
        rfl
    have hfactors : ∀ cursor, readFactors inner (t :: ts) [] cursor =
        inRange (Item.readFactors reader false ((t :: ts).drop cursor)) := by
      intro cursor
      rw [readFactors_eq h]
      simp
    rw [readItem, hkind, inRange_some_bind, hfactors, Item.readWith, hsign]
    dsimp only
    generalize Item.readFactors reader false _ = found
    cases found with
    | none => rfl
    | some fs => cases fs <;> rfl

end Items

/-! ### Expressions -/

/-- Reads an expression, given a reader for the expressions inside it. -/
def readExpressionWith (inner : Reader) (tokens : List Token) : Indexed Expression := do
  guard (tokens ≠ [])
  let parts ← splitItems tokens
  return ⟨← parts.mapM (readItem inner)⟩

/-- Reads an expression, and is stopped where expressions are nested more than `depth` deep. -/
def readNested : (depth : Nat) → Reader
  | 0, _ => OptionT.mk (.error .nesting)
  | depth + 1, tokens => readExpressionWith (readNested depth) tokens

/-- Reads an expression. -/
def readExpression (tokens : List Token) : Indexed Expression :=
  readNested (tokens.length + 1) tokens

/-- The error for the first of the parts that cannot be read as an item. -/
def explainParts (tokens : List Token) : List (List Token) → Indexed Error
  | [] => return errorAt .invalidTerm tokens
  | part :: parts => do
    if (← attempt (readItem readExpression part)).isSome then explainParts tokens parts
    else return Item.explain part

/-- The error for tokens that are no expression. -/
def explainExpression (tokens : List Token) : Indexed Error := do
  if tokens = [] then return ⟨.emptyExpression, []⟩
  else explainParts tokens (← splitItems tokens)

section Expressions

variable {inner : Reader} {reader : Factor.Reader} {tokens : List Token}

theorem readExpressionWith_eq (h : InRangeBelow tokens.length inner reader) :
    readExpressionWith inner tokens = inRange (Expression.readWith reader tokens) := by
  have hparts : (Expression.splitItems tokens).mapM (readItem inner) =
      inRange ((Expression.splitItems tokens).mapM (Item.readWith reader)) :=
    mapM_eq fun part hpart => readItem_eq (h.mono (Expression.length_le_of_splitItems part hpart))
  rw [readExpressionWith, Expression.readWith, guard_bind, splitItems_eq, inRange_some_bind, hparts]
  cases tokens with
  | nil => rfl
  | cons t ts =>
    rw [if_pos (List.cons_ne_nil t ts)]
    cases (Expression.splitItems (t :: ts)).mapM (Item.readWith reader) <;> rfl

/-- Expressions are not nested deeper than there are tokens. -/
theorem readNested_eq {depth : Nat} (h : tokens.length < depth) :
    readNested depth tokens = inRange (Expression.read tokens) := by
  induction depth generalizing tokens with
  | zero => exact absurd h (Nat.not_lt_zero _)
  | succ depth ih =>
    rw [readNested, Expression.read_eq]
    exact readExpressionWith_eq fun us hus => ih (by omega)

/-- Reading an expression takes only tokens and slices that are in range, and reads what the tokens
say. -/
theorem readExpression_eq (tokens : List Token) :
    readExpression tokens = inRange (Expression.read tokens) :=
  readNested_eq (Nat.lt_succ_self _)

theorem inRangeBelow_readExpression (n : Nat) : InRangeBelow n readExpression Expression.read :=
  fun us _ => readExpression_eq us

theorem explainParts_eq (tokens : List Token) (parts : List (List Token)) :
    explainParts tokens parts =
      inRange (some (match parts.find? fun part => (Item.read part).isNone with
        | some part => Item.explain part
        | none => errorAt .invalidTerm tokens)) := by
  induction parts with
  | nil => rfl
  | cons part parts ih =>
    rw [explainParts, readItem_eq (inRangeBelow_readExpression _), attempt_inRange,
      inRange_some_bind, List.find?_cons, Item.read]
    cases Item.readWith Expression.read part with
    | none => rfl
    | some i => exact ih

theorem explainExpression_eq (tokens : List Token) :
    explainExpression tokens = inRange (some (Expression.explain tokens)) := by
  rw [explainExpression, Expression.explain, splitItems_eq]
  cases tokens with
  | nil => rfl
  | cons t ts => exact explainParts_eq _ _

end Expressions

/-! ### Equations -/

/-- The index of the first equals sign. -/
def assignIndex (tokens : List Token) : Option Nat :=
  tokens.findIdx? fun t => t.kind = .assign

/-- Reads an equation. -/
def readEquation (tokens : List Token) : Indexed Equation := do
  let sign ← inRange (assignIndex tokens)
  let lhs ← readExpression (← slice tokens 0 sign)
  let rhs ← readExpression (← slice tokens (sign + 1) tokens.length)
  return .between lhs rhs

/-- The error for tokens that are no equation. -/
def explainEquation (tokens : List Token) : Indexed Error :=
  match assignIndex tokens with
  | none => return errorAt .missingEquals tokens
  | some sign => do
    let lhs ← slice tokens 0 sign
    let rhs ← slice tokens (sign + 1) tokens.length
    let failing := if (← attempt (readExpression lhs)).isNone then lhs else rhs
    if failing = [] then return ⟨.emptyExpression, [(← tokenAt tokens sign).span]⟩
    else explainExpression failing

section Equations

variable {tokens : List Token}

theorem splitAssign_eq (tokens : List Token) : Equation.splitAssign tokens =
    (assignIndex tokens).bind fun sign =>
      tokens[sign]?.map fun t => (tokens.take sign, t, tokens.drop (sign + 1)) := by
  induction tokens with
  | nil => rfl
  | cons t ts ih =>
    rw [assignIndex, List.findIdx?_cons, Equation.splitAssign, ih, ← assignIndex]
    by_cases ht : t.kind = .assign
    · rw [if_pos ht, if_pos (decide_eq_true ht)]
      rfl
    · rw [if_neg ht, if_neg (by simpa using ht)]
      cases assignIndex ts with
      | none => rfl
      | some sign => cases hsign : ts[sign]? <;> simp [hsign]

theorem lt_of_assignIndex {sign : Nat} (h : assignIndex tokens = some sign) :
    sign < tokens.length :=
  (List.findIdx?_eq_some_iff_getElem.1 h).1

theorem readEquation_eq (tokens : List Token) :
    readEquation tokens = inRange (Equation.read tokens) := by
  rw [readEquation, Equation.read, splitAssign_eq]
  cases hsign : assignIndex tokens with
  | none => rfl
  | some sign =>
    have hlt := lt_of_assignIndex hsign
    simp only [inRange_some_bind, slice_take hlt.le, slice_drop hlt, readExpression_eq, pure_eq,
      inRange_bind, Option.bind_some, List.getElem?_eq_getElem hlt]
    rfl

theorem explainEquation_eq (tokens : List Token) :
    explainEquation tokens = inRange (some (Equation.explain tokens)) := by
  rw [explainEquation, Equation.explain, splitAssign_eq]
  cases hsign : assignIndex tokens with
  | none => rfl
  | some sign =>
    have hlt := lt_of_assignIndex hsign
    have htoken := List.getElem?_eq_getElem hlt
    have hrhs : sign + 1 ≤ tokens.length := hlt
    simp only [htoken, inRange_some_bind, slice_take hlt.le, slice_drop hrhs, readExpression_eq,
      attempt_inRange, tokenAt_eq htoken, explainExpression_eq, List.isEmpty_iff, Option.bind_some,
      Option.map_some]
    generalize (if (Expression.read (tokens.take sign)).isNone = true then tokens.take sign
      else tokens.drop (sign + 1)) = failing
    split <;> rfl

end Equations

/-! ### Definitions -/

/-- Reads a definition of a variable, or says what is wrong with it. -/
def readVariableOrExplain (tokens : List Token) : Indexed (Except Error VariableDefinition) :=
  match kindAt tokens 0 with
  | some (.letter name) =>
    if name = 'x' ∨ name = 'y' then return .error (definitionError tokens 0 .coordinateDefined)
    else if name = 'e' then return .error (definitionError tokens 0 .constantDefined)
    else if kindAt tokens 1 ≠ some .assign then
      return .error (definitionError tokens 1 .assignAfterNameExpected)
    else do
      match VariableDefinition.readSigned (← slice tokens 2 tokens.length) with
      | some value => return .ok ⟨name, value⟩
      | none => return .error (definitionError tokens 2 .numberExpected)
  | _ => return .error (definitionError tokens 0 .variableNameExpected)

/-- Reads a definition of a variable. -/
def readVariableDefinition (tokens : List Token) : Indexed VariableDefinition := do
  inRange (← readVariableOrExplain tokens).toOption

/-- The error for tokens that are no definition of a variable. -/
def explainVariableDefinition (tokens : List Token) : Indexed Error := do
  match ← readVariableOrExplain tokens with
  | .error error => return error
  | .ok _ => return definitionError tokens 0 .none

/-- What stands in front of the body of a function, and the index of the first token of the body. -/
structure Header where
  name : Char
  parameters : List Char
  bodyStart : Nat

/-- Reads parameters between commas from the index `index` on, up to the closing parenthesis.  Gives
the index after the parenthesis. -/
def readParameters (tokens : List Token) (parameters : List Char) (index : Nat) :
    Except Error (List Char × Nat) :=
  if index < tokens.length then
    match kindAt tokens index with
    | some (.letter name) =>
      if name = 'e' then .error (definitionError tokens index .parameterNameExpected)
      else if parameters.contains name then
        .error (definitionError tokens index (.parameterRepeated name))
      else
        match kindAt tokens (index + 1) with
        | some .comma => readParameters tokens (parameters ++ [name]) (index + 2)
        | some .closeParen => .ok (parameters ++ [name], index + 2)
        | _ => .error (definitionError tokens (index + 1) .separatorExpected)
    | _ => .error (definitionError tokens index .parameterNameExpected)
  else .error (definitionError tokens index .parameterNameExpected)
termination_by tokens.length - index

/-- Reads what stands in front of the body of a function, or says what is wrong with it. -/
def readHeader (tokens : List Token) : Except Error Header :=
  match kindAt tokens 0 with
  | some (.letter name) =>
    if name = 'e' then .error (definitionError tokens 0 .functionNameExpected)
    else if kindAt tokens 1 ≠ some .openParen then
      .error (definitionError tokens 1 .parenAfterNameExpected)
    else
      match readParameters tokens [] 2 with
      | .error error => .error error
      | .ok (parameters, index) =>
        if kindAt tokens index ≠ some .assign then
          .error (definitionError tokens index .assignAfterParametersExpected)
        else if index + 1 = tokens.length then .error (definitionError tokens index .bodyMissing)
        else .ok ⟨name, parameters, index + 1⟩
  | _ => .error (definitionError tokens 0 .functionNameExpected)

/-- Reads a definition of a function. -/
def readFunctionDefinition (tokens : List Token) : Indexed FunctionDefinition :=
  match readHeader tokens with
  | .error _ => failure
  | .ok header => do
    let body ← readExpression (← slice tokens header.bodyStart tokens.length)
    return .make header.name header.parameters body

/-- The error for tokens that are no definition of a function. -/
def explainFunctionDefinition (tokens : List Token) : Indexed Error :=
  match readHeader tokens with
  | .error error => return error
  | .ok header => do explainExpression (← slice tokens header.bodyStart tokens.length)

section Definitions

variable {tokens : List Token}

theorem readVariableOrExplain_eq (tokens : List Token) :
    readVariableOrExplain tokens = inRange (some (VariableDefinition.readOrExplain tokens)) := by
  rw [readVariableOrExplain]
  split
  · next name hname =>
    rw [VariableDefinition.readOrExplain, hname]
    dsimp only
    split
    · rfl
    split
    · rfl
    split
    · rfl
    next hassign =>
    have htwo : 2 ≤ tokens.length := (kindAt_eq_some.1 (not_not.1 hassign)).fst
    rw [slice_drop htwo, inRange_some_bind]
    cases VariableDefinition.readSigned (tokens.drop 2) <;> rfl
  · next hname =>
    rw [VariableDefinition.readOrExplain]
    split
    · next name hname' => exact absurd hname' (hname name)
    · rfl

theorem readVariableDefinition_eq (tokens : List Token) :
    readVariableDefinition tokens = inRange (VariableDefinition.read tokens) := by
  rw [readVariableDefinition, readVariableOrExplain_eq]
  rfl

theorem explainVariableDefinition_eq (tokens : List Token) :
    explainVariableDefinition tokens = inRange (some (VariableDefinition.explain tokens)) := by
  rw [explainVariableDefinition, readVariableOrExplain_eq, VariableDefinition.explain]
  cases VariableDefinition.readOrExplain tokens <;> rfl

theorem readParameters_eq (parameters : List Char) (index : Nat) :
    FunctionDefinition.readParameters tokens parameters index (tokens.drop index) =
      (readParameters tokens parameters index).map fun (parameters, index) =>
        (parameters, index, tokens.drop index) := by
  fun_induction readParameters tokens parameters index with
  | case1 parameters index hlt hname =>
    obtain ⟨span, hdrop⟩ := drop_of_kindAt hname
    rw [hdrop, FunctionDefinition.readParameters.eq_def]
    rfl
  | case2 parameters index hlt name hname he hknown =>
    obtain ⟨span, hdrop⟩ := drop_of_kindAt hname
    rw [hdrop, FunctionDefinition.readParameters.eq_def]
    dsimp only
    rw [if_neg he, if_pos hknown]
    rfl
  | case3 parameters index hlt name hname he hnew hcomma ih =>
    obtain ⟨span, hdrop⟩ := drop_of_kindAt hname
    obtain ⟨span', hdrop'⟩ := drop_of_kindAt hcomma
    rw [hdrop, hdrop', FunctionDefinition.readParameters, if_neg he, if_neg hnew]
    exact ih
  | case4 parameters index hlt name hname he hnew hclose =>
    obtain ⟨span, hdrop⟩ := drop_of_kindAt hname
    obtain ⟨span', hdrop'⟩ := drop_of_kindAt hclose
    rw [hdrop, hdrop', FunctionDefinition.readParameters, if_neg he, if_neg hnew]
    rfl
  | case5 parameters index hlt name hname he hnew hcomma hclose =>
    obtain ⟨span, hdrop⟩ := drop_of_kindAt hname
    rw [hdrop, FunctionDefinition.readParameters.eq_def]
    dsimp only
    rw [if_neg he, if_neg hnew]
    split
    · next hdrop' => exact absurd (kindAt_of_drop hdrop') hcomma
    · next hdrop' => exact absurd (kindAt_of_drop hdrop') hclose
    · rfl
  | case6 parameters index hlt hname =>
    rw [FunctionDefinition.readParameters.eq_def]
    split
    · next hdrop => exact absurd (kindAt_of_drop hdrop) (hname _)
    · rfl
  | case7 parameters index hle =>
    rw [List.drop_of_length_le (by omega), FunctionDefinition.readParameters.eq_def]
    rfl

theorem readHeader_eq (tokens : List Token) : FunctionDefinition.readHeader tokens =
    (readHeader tokens).map fun header =>
      ⟨header.name, header.parameters, tokens.drop header.bodyStart⟩ := by
  rw [readHeader]
  split
  · next name hname =>
    rw [FunctionDefinition.readHeader, hname]
    dsimp only
    split
    · rfl
    split
    · rfl
    rw [readParameters_eq]
    cases hparameters : readParameters tokens [] 2 with
    | error error => rfl
    | ok p =>
      obtain ⟨parameters, index⟩ := p
      dsimp only [Except.map]
      split
      · next span body hdrop =>
        have hbody : body = tokens.drop (index + 1) := by
          rw [← List.tail_drop, hdrop, List.tail_cons]
        have hassign : kindAt tokens index = some .assign := kindAt_of_drop hdrop
        obtain ⟨hlt, -⟩ := kindAt_eq_some.1 hassign
        have hempty : body.isEmpty = true ↔ index + 1 = tokens.length := by
          rw [hbody, List.isEmpty_iff, List.drop_eq_nil_iff]
          omega
        simp only [if_neg (not_not_intro hassign), hempty]
        split
        · rfl
        · rw [hbody]
      · next hassign =>
        rw [if_pos]
        intro hkind
        obtain ⟨span, hdrop⟩ := drop_of_kindAt hkind
        exact hassign span _ hdrop
  · next hname =>
    rw [FunctionDefinition.readHeader]
    split
    · next name hname' => exact absurd hname' (hname name)
    · rfl

/-- The body starts in the tokens. -/
theorem bodyStart_le {header : Header} (h : readHeader tokens = .ok header) :
    header.bodyStart ≤ tokens.length := by
  unfold readHeader at h
  split at h
  · split at h
    · cases h
    split at h
    · cases h
    split at h
    · cases h
    split at h
    · cases h
    next hassign =>
    split at h
    · cases h
    · cases h
      exact (kindAt_eq_some.1 (not_not.1 hassign)).fst
  · cases h

theorem readFunctionDefinition_eq (tokens : List Token) :
    readFunctionDefinition tokens = inRange (FunctionDefinition.read tokens) := by
  rw [readFunctionDefinition, FunctionDefinition.read, readHeader_eq]
  cases hheader : readHeader tokens with
  | error error => rfl
  | ok header =>
    dsimp only [Except.map]
    rw [slice_drop (bodyStart_le hheader), inRange_some_bind, readExpression_eq]
    cases Expression.read (tokens.drop header.bodyStart) <;> rfl

theorem explainFunctionDefinition_eq (tokens : List Token) :
    explainFunctionDefinition tokens = inRange (some (FunctionDefinition.explain tokens)) := by
  rw [explainFunctionDefinition, FunctionDefinition.explain, readHeader_eq]
  cases hheader : readHeader tokens with
  | error error => rfl
  | ok header =>
    dsimp only [Except.map]
    rw [slice_drop (bodyStart_le hheader), inRange_some_bind, explainExpression_eq]

end Definitions

/-! ### Statements -/

/-- Reads a statement. -/
def readStatement (tokens : List Token) : Indexed Statement :=
  Statement.variable <$> readVariableDefinition tokens <|>
    Statement.function <$> readFunctionDefinition tokens <|>
    if Statement.hasAssign tokens then Statement.equation <$> readEquation tokens
    else Statement.expression <$> readExpression tokens

/-- The error for tokens that are no statement. -/
def explainStatement (tokens : List Token) : Indexed Error :=
  if Statement.hasAssign tokens then explainEquation tokens else explainExpression tokens

theorem map_inRange {α β : Type} (found : Option α) (f : α → β) :
    f <$> inRange found = inRange (found.map f) := by
  cases found <;> rfl

theorem readStatement_eq (tokens : List Token) :
    readStatement tokens = inRange (Statement.read tokens) := by
  rw [readStatement, Statement.read, readVariableDefinition_eq, readFunctionDefinition_eq,
    readEquation_eq, readExpression_eq]
  simp only [map_inRange]
  cases VariableDefinition.read tokens with
  | some d => rfl
  | none =>
    cases FunctionDefinition.read tokens with
    | some d => rfl
    | none => cases Statement.hasAssign tokens <;> rfl

theorem explainStatement_eq (tokens : List Token) :
    explainStatement tokens = inRange (some (Statement.explain tokens)) := by
  rw [explainStatement, explainEquation_eq, explainExpression_eq, Statement.explain]
  split <;> rfl

/-- No token and no slice is out of range, whatever the tokens are taken for.  A group that is
closed is closed in the tokens, and what is read by index is what the readers read. -/
structure ReadsInRange (tokens : List Token) : Prop where
  groupEnd : ∀ start, closeIndex tokens start = inRange (matchingClose tokens start)
  groupEndInside : ∀ start stop, matchingClose tokens start = some stop →
    start < stop ∧ stop < tokens.length
  lastGroup : ∀ start, closesLast tokens start = inRange (some (closesAtEnd tokens start))
  parts : ∀ separator, splitTopLevel separator tokens =
    inRange (some (ImplicitCurves.splitTopLevel separator 0 tokens))
  items : splitItems tokens = inRange (some (Expression.splitItems tokens))
  argument : argumentTokens tokens = inRange (Factor.argumentTokens tokens)
  fraction : readFraction readExpression tokens =
    inRange (Factor.readFraction Expression.read tokens)
  power : readPower readExpression tokens = inRange (Factor.readPower Expression.read tokens)
  call : readCall readExpression tokens = inRange (Factor.readCall Expression.read tokens)
  bracket : readBracket readExpression tokens = inRange (Factor.readBracket Expression.read tokens)
  unary : readUnary readExpression tokens = inRange (Factor.readUnary Expression.read tokens)
  logarithm : readLogarithm readExpression tokens =
    inRange (Factor.readLogarithm Expression.read tokens)
  factor : readFactor readExpression tokens = inRange (Factor.read tokens)
  item : readItem readExpression tokens = inRange (Item.read tokens)
  expression : readExpression tokens = inRange (Expression.read tokens)
  expressionError : explainExpression tokens = inRange (some (Expression.explain tokens))
  equation : readEquation tokens = inRange (Equation.read tokens)
  equationError : explainEquation tokens = inRange (some (Equation.explain tokens))
  variableDefinition : readVariableDefinition tokens = inRange (VariableDefinition.read tokens)
  variableDefinitionError : explainVariableDefinition tokens =
    inRange (some (VariableDefinition.explain tokens))
  functionDefinition : readFunctionDefinition tokens = inRange (FunctionDefinition.read tokens)
  functionDefinitionError : explainFunctionDefinition tokens =
    inRange (some (FunctionDefinition.explain tokens))
  statement : readStatement tokens = inRange (Statement.read tokens)
  statementError : explainStatement tokens = inRange (some (Statement.explain tokens))

/-- Whatever the tokens are, balanced or not, nothing that is taken from them is out of range. -/
theorem readsInRange (tokens : List Token) : ReadsInRange tokens :=
  have hinner := inRangeBelow_readExpression tokens.length
  { groupEnd := closeIndex_eq tokens
    groupEndInside := fun _ _ => bounds_of_matchingClose
    lastGroup := closesLast_eq tokens
    parts := fun separator => splitTopLevel_eq separator tokens
    items := splitItems_eq tokens
    argument := argumentTokens_eq tokens
    fraction := readFraction_eq hinner
    power := readPower_eq hinner
    call := readCall_eq hinner
    bracket := readBracket_eq hinner
    unary := readUnary_eq hinner
    logarithm := readLogarithm_eq hinner
    factor := readFactor_eq hinner
    item := readItem_eq hinner
    expression := readExpression_eq tokens
    expressionError := explainExpression_eq tokens
    equation := readEquation_eq tokens
    equationError := explainEquation_eq tokens
    variableDefinition := readVariableDefinition_eq tokens
    variableDefinitionError := explainVariableDefinition_eq tokens
    functionDefinition := readFunctionDefinition_eq tokens
    functionDefinitionError := explainFunctionDefinition_eq tokens
    statement := readStatement_eq tokens
    statementError := explainStatement_eq tokens }

end Indexed

end ImplicitCurves

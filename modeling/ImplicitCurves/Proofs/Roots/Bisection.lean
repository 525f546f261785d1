import ImplicitCurves.Proofs.Roots.Ends
import ImplicitCurves.Proofs.Scalar.Order

/-!
# The brackets of bisection

Bisection of a function on doubles, which may be NaN or infinite anywhere inside of the range.  A
halving moves one end of a bracket to its middle, and the value there has the sign of the old one,
where NaN counts as positive.  Main statement: `bisect_keepsBracket`.
-/

namespace ImplicitCurves

open OrderedScalar Binary64

/-! ### Halvings -/

/-- A range with the values of a function at its ends. -/
def Bracket.on (f : Float → Float) (left right : Float) : Bracket Float :=
  ⟨left, right, f left, f right⟩

/-- The middle lies strictly inside of the range. -/
def Bracket.Divided (b : Bracket Float) : Prop :=
  b.left < b.middle ∧ b.middle < b.right

/-- The second bracket is what is left of the first after that many halvings: each has a middle
strictly inside where the function is not zero, and keeps one half. -/
inductive Bracket.Halved (f : Float → Float) (rising : Bool) :
    Nat → Bracket Float → Bracket Float → Prop
  | none (b : Bracket Float) : Halved f rising 0 b b
  | next {n : Nat} {b c : Bracket Float} : b.Divided → isZero (f b.middle) = false →
      Halved f rising n (b.half rising (f b.middle)) c → Halved f rising (n + 1) b c

/-- What the halvings of a bracket keep: it has a function's values at its ends, not both of which are
infinite, and both values are not zero and have opposite signs, of which the rising bracket has the
negative one on the left. -/
structure Bracket.Kept (f : Float → Float) (rising : Bool) (b : Bracket Float) : Prop where
  eq_on : b = .on f b.left b.right
  lt : b.left < b.right
  finite_end : b.left.isFinite = true ∨ b.right.isFinite = true
  leftSign : isBelowZero b.leftValue = rising
  rightSign : isBelowZero b.rightValue = !rising
  leftNonzero : isZero b.leftValue = false
  rightNonzero : isZero b.rightValue = false

namespace Bracket

variable {f : Float → Float} {rising : Bool} {n : Nat} {b c : Bracket Float}

theorem Kept.isNumber_middle (h : b.Kept f rising) : IsNumber b.middle := by
  obtain ⟨hleft, hright⟩ := isNumber_of_lt h.lt
  exact isNumber_half (isNumber_sum hleft hright h.finite_end)

/-- A bracket whose middle lies strictly inside keeps what it has in each of its halves. -/
theorem Kept.half (h : b.Kept f rising) (hdivided : b.Divided)
    (hzero : isZero (f b.middle) = false) : (b.half rising (f b.middle)).Kept f rising := by
  obtain ⟨hlow, hhigh⟩ := hdivided
  have hfinite : b.middle.isFinite = true := isFinite_of_between hlow hhigh
  have hleft : b.leftValue = f b.left := congrArg leftValue h.eq_on
  have hright : b.rightValue = f b.right := congrArg rightValue h.eq_on
  unfold Bracket.half
  by_cases hsign : isBelowZero (f b.middle) = rising
  · rw [if_pos hsign]
    exact ⟨by simp only [on, hright], hhigh, .inl hfinite, hsign, h.rightSign, hzero,
      h.rightNonzero⟩
  · rw [if_neg hsign]
    exact ⟨by simp only [on, hleft], hlow, .inr hfinite, h.leftSign, Bool.eq_not_of_ne hsign,
      h.leftNonzero, hzero⟩

/-- Halving stays within the range. -/
theorem Kept.half_within (h : b.Kept f rising) (hdivided : b.Divided) (value : Float) :
    b.left ≤ (b.half rising value).left ∧ (b.half rising value).right ≤ b.right := by
  obtain ⟨hleft, hright⟩ := isNumber_of_lt h.lt
  unfold Bracket.half
  split
  · exact ⟨Binary64.le_of_lt hdivided.1, Binary64.le_refl hright⟩
  · exact ⟨Binary64.le_refl hleft, Binary64.le_of_lt hdivided.2⟩

/-- Halvings keep what a bracket has, and stay within its range. -/
theorem Halved.kept (hn : Halved f rising n b c) (h : b.Kept f rising) :
    c.Kept f rising ∧ b.left ≤ c.left ∧ c.right ≤ b.right := by
  induction hn with
  | none b =>
    obtain ⟨hleft, hright⟩ := isNumber_of_lt h.lt
    exact ⟨h, Binary64.le_refl hleft, Binary64.le_refl hright⟩
  | next hdivided hzero _ ih =>
    obtain ⟨hkept, hlow, hhigh⟩ := ih (h.half hdivided hzero)
    obtain ⟨hleft, hright⟩ := h.half_within hdivided _
    exact ⟨hkept, Binary64.le_trans hleft hlow, Binary64.le_trans hhigh hright⟩

end Bracket

/-! ### Narrowing -/

section Narrowing

variable {f : Float → Float} {gap : Float} {rising : Bool}

/-- The tests for a middle that is not strictly inside, which NaN would pass. -/
theorem Bracket.divided_iff {b : Bracket Float} (hleft : IsNumber b.left)
    (hright : IsNumber b.right) (hmiddle : IsNumber b.middle) :
    (atMost b.middle b.left || atMost b.right b.middle) = true ↔ ¬ b.Divided := by
  have htests : (atMost b.middle b.left || atMost b.right b.middle) = true ↔
      b.middle ≤ b.left ∨ b.right ≤ b.middle := by
    rw [Bool.or_eq_true]
    exact or_congr decide_eq_true_iff decide_eq_true_iff
  rw [htests, Bracket.Divided, ← not_le_iff hmiddle hleft, ← not_le_iff hright hmiddle]
  tauto

theorem Bracket.Kept.divided_iff {b : Bracket Float} (h : b.Kept f rising) :
    (atMost b.middle b.left || atMost b.right b.middle) = true ↔ ¬ b.Divided := by
  obtain ⟨hleft, hright⟩ := isNumber_of_lt h.lt
  exact Bracket.divided_iff hleft hright h.isNumber_middle

/-- Narrowing halves a bracket until it meets a zero in the middle, or has a reason to stop. -/
theorem narrow_halved (gap : Float) (tries : Nat) (probes : List Float) {b : Bracket Float}
    (h : b.Kept f rising) : ∃ n c, n ≤ tries ∧ Bracket.Halved f rising n b c ∧
      ((narrow f gap rising tries b probes).zero? = some c.middle ∧ n < tries ∧ c.Divided ∧
          isZero (f c.middle) = true ∨
        (narrow f gap rising tries b probes).zero? = none ∧
          (narrow f gap rising tries b probes).bracket = c ∧
          (c.right - c.left < gap ∨ ¬ c.Divided ∨ n = tries)) := by
  induction tries generalizing b probes with
  | zero => exact ⟨0, b, le_rfl, .none b, .inr ⟨rfl, rfl, .inr (.inr rfl)⟩⟩
  | succ tries ih =>
    simp only [narrow]
    split
    · next hnarrow =>
      exact ⟨0, b, Nat.zero_le _, .none b, .inr ⟨rfl, rfl, .inl (of_decide_eq_true hnarrow)⟩⟩
    · split
      · next hmiddle =>
        exact ⟨0, b, Nat.zero_le _, .none b,
          .inr ⟨rfl, rfl, .inr (.inl (h.divided_iff.1 hmiddle))⟩⟩
      · next hmiddle =>
        have hdivided : b.Divided := by
          by_contra hno
          exact hmiddle (h.divided_iff.2 hno)
        split
        · next hzero =>
          exact ⟨0, b, Nat.zero_le _, .none b, .inl ⟨rfl, Nat.succ_pos _, hdivided, hzero⟩⟩
        · next hzero =>
          have hzero : isZero (f b.middle) = false := Bool.eq_false_iff.2 hzero
          obtain ⟨n, c, hn, hhalved, hends⟩ := ih (b.middle :: probes) (h.half hdivided hzero)
          refine ⟨n + 1, c, Nat.succ_le_succ hn, .next hdivided hzero hhalved, ?_⟩
          rcases hends with ⟨hroot, hlt, hends⟩ | ⟨hnone, hbracket, hends⟩
          · exact .inl ⟨hroot, Nat.succ_lt_succ hlt, hends⟩
          · refine .inr ⟨hnone, hbracket, ?_⟩
            rwa [Nat.succ_inj]

end Narrowing

/-! ### Bisection -/

section Outcome

variable {f : Float → Float} {gap root : Float} {b c : Bracket Float} {probes : List Float}

theorem bisect_of_zero
    (h : (narrow f gap (less Scalar.zero b.rightValue) maxHalvings b probes).zero? = some root) :
    (bisect f gap b probes).1 = some root := by
  unfold bisect
  simp only [h]

/-- Without a zero, the middle of the narrowed bracket is a root if the values at its ends are closer
together than before. -/
theorem bisect_of_none
    (h : (narrow f gap (less Scalar.zero b.rightValue) maxHalvings b probes).zero? = none)
    (hc : (narrow f gap (less Scalar.zero b.rightValue) maxHalvings b probes).bracket = c) :
    (bisect f gap b probes).1 = some root ↔ less c.drop b.drop = true ∧ c.middle = root := by
  unfold bisect
  simp only [h, hc]
  by_cases hdrop : less c.drop b.drop = true
  · simp [hdrop]
  · simp [hdrop]

end Outcome

/-- Both values are below zero, or both are above. -/
def SameSign (x y : Float) : Prop :=
  x < 0 ∧ y < 0 ∨ 0 < x ∧ 0 < y

instance (x y : Float) : Decidable (SameSign x y) :=
  inferInstanceAs (Decidable (x < 0 ∧ y < 0 ∨ 0 < x ∧ 0 < y))

theorem sameSign_of_isBelowZero {x y : Float} (hx : x.isFinite = true) (hy : y.isFinite = true)
    (hzero : isZero x = false) (hzero' : isZero y = false)
    (h : isBelowZero x = isBelowZero y) : SameSign x y := by
  by_cases hbelow : x < 0
  · have hbelow' : isBelowZero y = true := h.symm.trans (decide_eq_true hbelow)
    exact .inl ⟨hbelow, of_decide_eq_true hbelow'⟩
  · have hbelow' : isBelowZero y = false := h.symm.trans (decide_eq_false hbelow)
    exact .inr ⟨zero_lt (.of_isFinite hx) hbelow (Bool.eq_false_iff.1 hzero),
      zero_lt (.of_isFinite hy) (of_decide_eq_false hbelow') (Bool.eq_false_iff.1 hzero')⟩

theorem isZero_of_lt {x : Float} (h : x < 0 ∨ 0 < x) : isZero x = false := by
  refine Bool.eq_false_iff.2 ?_
  intro hzero
  rcases h with h | h
  · obtain ⟨hx, hzero'⟩ := isNumber_of_lt h
    exact ((lt_iff hx hzero').1 h).ne ((beq_iff hx hzero').1 hzero)
  · obtain ⟨hzero', hx⟩ := isNumber_of_lt h
    exact ((lt_iff hzero' hx).1 h).ne' ((beq_iff hx hzero').1 hzero)

/-- What bisection starts from. -/
theorem kept_on {f : Float → Float} {left right : Float} (hlt : left < right)
    (hend : left.isFinite = true ∨ right.isFinite = true)
    (hsigns : f left < 0 ∧ 0 < f right ∨ 0 < f left ∧ f right < 0) :
    (Bracket.on f left right).Kept f (less Scalar.zero (f right)) := by
  rcases hsigns with ⟨hleft, hright⟩ | ⟨hleft, hright⟩
  · have hrising : less Scalar.zero (f right) = true := decide_eq_true hright
    rw [hrising]
    exact ⟨rfl, hlt, hend, decide_eq_true hleft, decide_eq_false (not_lt_zero hright),
      isZero_of_lt (.inl hleft), isZero_of_lt (.inr hright)⟩
  · have hfalling : less Scalar.zero (f right) = false :=
      decide_eq_false fun hno => not_lt_zero hno hright
    rw [hfalling]
    exact ⟨rfl, hlt, hend, decide_eq_false (not_lt_zero hleft), decide_eq_true hright,
      isZero_of_lt (.inr hleft), isZero_of_lt (.inl hright)⟩

/-- A search with accepted options only visits points of its range. -/
theorem RootSearch.gridPoint_within {o : RootOptions Float} {low high : Float} {n : Nat}
    (h : o.fault? low high = none) (hn : n < countLimit)
    (hinside : less high (gridPoint low o.granularity n) = false) :
    Within low high (gridPoint low o.granularity n) := by
  obtain ⟨-, -, -, hhigh⟩ := RootOptions.finite_of_fault? h
  have hend : ¬ high < gridPoint low o.granularity n := of_decide_eq_false hinside
  refine ⟨le_gridPoint h hn, ?_⟩
  rwa [lt_iff (.of_isFinite hhigh) (gridPoint_le h hn).1, not_lt,
    ← le_iff (gridPoint_le h hn).1 (.of_isFinite hhigh)] at hend

/-- The points that a search with accepted options visits are finite, and so are the ends of the ranges
that it bisects. -/
theorem RootSearch.isFinite_gridPoint {o : RootOptions Float} {low high : Float} {n : Nat}
    (h : o.fault? low high = none) (hn : n < countLimit)
    (hinside : less high (gridPoint low o.granularity n) = false) :
    (gridPoint low o.granularity n).isFinite = true := by
  obtain ⟨-, -, hlow, hhigh⟩ := RootOptions.finite_of_fault? h
  exact isFinite_of_within hlow hhigh (gridPoint_within h hn hinside)

/-- Where bisection of a range finds a root, this is the middle of a bracket that is left of the range
after some halvings.  Either the function is zero there, or the values at the ends of the bracket are
finite, have the signs that they have at the ends of the range and are closer together, and nothing
was left to halve.  The function may have any values inside of the range.  Only the range from minus to
plus infinity has no middle; no search meets it, by `RootSearch.isFinite_gridPoint`. -/
theorem bisect_keepsBracket {f : Float → Float} {gap left right root : Float} {probes : List Float}
    (hlt : left < right) (hend : left.isFinite = true ∨ right.isFinite = true)
    (hleft : (f left).isFinite = true) (hright : (f right).isFinite = true)
    (hsigns : f left < 0 ∧ 0 < f right ∨ 0 < f left ∧ f right < 0)
    (hroot : (bisect f gap (.on f left right) probes).1 = some root) :
    ∃ n l h, n ≤ maxHalvings ∧
      Bracket.Halved f (less 0 (f right)) n (.on f left right) (.on f l h) ∧
      left ≤ l ∧ l < h ∧ h ≤ right ∧ root = (Bracket.on f l h).middle ∧
      ((left < root ∧ root < right ∧ (f root == 0) = true) ∨
        ((f l).isFinite = true ∧ SameSign (f l) (f left) ∧
          (f h).isFinite = true ∧ SameSign (f h) (f right) ∧
          (f l - f h).abs < (f left - f right).abs ∧
          (h - l < gap ∨ ¬ (l < root ∧ root < h) ∨ n = maxHalvings))) := by
  have hstart : (Bracket.on f left right).Kept f
      (less Scalar.zero (Bracket.on f left right).rightValue) := kept_on hlt hend hsigns
  obtain ⟨n, c, hn, hhalved, hends⟩ := narrow_halved gap maxHalvings probes hstart
  obtain ⟨hkept, hlow, hhigh⟩ := hhalved.kept hstart
  have hc : c = .on f c.left c.right := hkept.eq_on
  have hmiddle : (Bracket.on f c.left c.right).middle = c.middle := congrArg Bracket.middle hc.symm
  have hleftValue : c.leftValue = f c.left := congrArg Bracket.leftValue hc
  have hrightValue : c.rightValue = f c.right := congrArg Bracket.rightValue hc
  refine ⟨n, c.left, c.right, hn, hc ▸ hhalved, hlow, hkept.lt, hhigh, ?_⟩
  rw [hmiddle]
  rcases hends with ⟨hzero, -, hdivided, hat⟩ | ⟨hnone, hbracket, hstop⟩
  · have hfound : root = c.middle := Option.some.inj (hroot.symm.trans (bisect_of_zero hzero))
    subst hfound
    exact ⟨rfl, .inl ⟨Binary64.lt_of_le_of_lt hlow hdivided.1, Binary64.lt_of_lt_of_le hdivided.2 hhigh, hat⟩⟩
  · obtain ⟨hdrop, rfl⟩ := (bisect_of_none hnone hbracket).1 hroot
    have hdrop : (f c.left - f c.right).abs < (f left - f right).abs := by
      rw [← hleftValue, ← hrightValue]
      exact of_decide_eq_true hdrop
    obtain ⟨hfinite, hfinite'⟩ := isFinite_of_sub (isFinite_of_abs_lt hdrop)
    have hsign : SameSign (f c.left) (f left) := by
      refine sameSign_of_isBelowZero hfinite hleft (hleftValue ▸ hkept.leftNonzero)
        hstart.leftNonzero ?_
      rw [← hleftValue, hkept.leftSign]
      exact hstart.leftSign.symm
    have hsign' : SameSign (f c.right) (f right) := by
      refine sameSign_of_isBelowZero hfinite' hright (hrightValue ▸ hkept.rightNonzero)
        hstart.rightNonzero ?_
      rw [← hrightValue, hkept.rightSign]
      exact hstart.rightSign.symm
    exact ⟨rfl, .inr ⟨hfinite, hsign, hfinite', hsign', hdrop, hstop⟩⟩

/-- The identity rises through zero between minus one and two.  With a gap of two, one half of the range
is enough. -/
theorem bisect_keepsBracket_identity :
    (-1 : Float) < 2 ∧ (bisect id 2 (.on id (-1) 2) []).1 = some (-0.25) ∧
    ∃ n l h, n ≤ maxHalvings ∧
      Bracket.Halved id (less 0 (id (2 : Float))) n (.on id (-1) 2) (.on id l h) ∧
      -1 ≤ l ∧ l < h ∧ h ≤ 2 ∧ -0.25 = (Bracket.on id l h).middle ∧
      ((-1 < -0.25 ∧ -0.25 < 2 ∧ (id (-0.25) == 0) = true) ∨
        ((id l).isFinite = true ∧ SameSign (id l) (id (-1)) ∧
          (id h).isFinite = true ∧ SameSign (id h) (id 2) ∧
          (id l - id h).abs < (id (-1) - id 2 : Float).abs ∧
          (h - l < 2 ∨ ¬ (l < -0.25 ∧ -0.25 < h) ∨ n = maxHalvings))) := by
  have hfound : (bisect id 2 (.on id (-1) 2) []).1 = some (-0.25) := by decide +kernel
  have hlt : (-1 : Float) < 2 := by decide +kernel
  exact ⟨hlt, hfound, bisect_keepsBracket hlt (.inl (by decide)) (by decide) (by decide)
    (.inl (by decide +kernel)) hfound⟩

/-- A function on all doubles that rises from minus one at minus infinity to one at plus infinity, and
is zero elsewhere, also at NaN. -/
def oddAtEnds (x : Float) : Float :=
  if x == 1 / 0 then 1 else if x == -1 / 0 then -1 else 0

/-- A value with the sign of an end is the value at this end. -/
theorem oddAtEnds_of_sameSign {x y : Float} (hy : y = 1 ∨ y = -1)
    (h : SameSign (oddAtEnds x) y) : oddAtEnds x = y := by
  have hvalue : oddAtEnds x = 1 ∨ oddAtEnds x = -1 ∨ oddAtEnds x = 0 := by
    unfold oddAtEnds
    split
    · exact .inl rfl
    · split
      · exact .inr (.inl rfl)
      · exact .inr (.inr rfl)
  rcases hy with rfl | rfl
  · rcases hvalue with hx | hx | hx
    · exact hx
    all_goals
      rw [hx] at h
      exact absurd h (by decide +kernel)
  · rcases hvalue with hx | hx | hx
    · rw [hx] at h
      exact absurd h (by decide +kernel)
    · exact hx
    · rw [hx] at h
      exact absurd h (by decide +kernel)

/-- The middle of the range from minus to plus infinity is NaN, which is not in the range.  It is the
root of a function that is zero there, but is not inside of any bracket whose values at the ends are
closer together. -/
theorem bisect_unboundedRange :
    let left : Float := -1 / 0
    let right : Float := 1 / 0
    ∃ root, left < right ∧ (oddAtEnds left).isFinite = true ∧ (oddAtEnds right).isFinite = true ∧
      oddAtEnds left < 0 ∧ 0 < oddAtEnds right ∧
      (bisect oddAtEnds 1 (.on oddAtEnds left right) []).1 = some root ∧ root.isNaN = true ∧
      ¬ (left < root ∧ root < right) ∧
      ¬ ∃ l h, left ≤ l ∧ h ≤ right ∧ SameSign (oddAtEnds l) (oddAtEnds left) ∧
        SameSign (oddAtEnds h) (oddAtEnds right) ∧
        (oddAtEnds l - oddAtEnds h).abs < (oddAtEnds left - oddAtEnds right).abs := by
  intro left right
  have hleft : oddAtEnds left = -1 := by decide +kernel
  have hright : oddAtEnds right = 1 := by decide +kernel
  refine ⟨0 / 0, by decide +kernel, by decide +kernel, by decide +kernel, by decide +kernel,
    by decide +kernel, by decide +kernel, by decide +kernel, by decide +kernel, ?_⟩
  rintro ⟨l, h, -, -, hl, hh, hdrop⟩
  rw [hleft] at hl hdrop
  rw [hright] at hh hdrop
  rw [oddAtEnds_of_sameSign (.inr rfl) hl, oddAtEnds_of_sameSign (.inl rfl) hh] at hdrop
  exact absurd hdrop (by decide +kernel)

end ImplicitCurves

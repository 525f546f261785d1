import ImplicitCurves.Proofs.Scalar.Values

/-!
# The order of doubles

Comparisons of doubles that may be NaN or infinite.  What is less than something is a number, and
numbers are compared by their values.  The middle of two numbers is a number unless both are
infinite, and a difference is finite only if both doubles are.
-/

namespace ImplicitCurves.Binary64

open Float.Model Float.Model.UnpackedFloat

/-! ### Comparisons -/

theorem isNumber_of_le {x y : Float} (h : x ≤ y) : IsNumber x ∧ IsNumber y := by
  have hcompare : (UnpackedFloat.compare (parts x) (parts y)).any (·.isLE) = true :=
    of_decide_eq_true h
  constructor
  · intro hx
    rw [hx] at hcompare
    cases hcompare
  · intro hy
    rw [hy] at hcompare
    cases hx : parts x <;> rw [hx] at hcompare <;> cases hcompare

protected theorem le_of_lt {x y : Float} (h : x < y) : x ≤ y := by
  have hcompare : UnpackedFloat.compare (parts x) (parts y) = some .lt :=
    beq_iff_eq.1 (of_decide_eq_true h)
  have hle : (UnpackedFloat.compare (parts x) (parts y)).any (·.isLE) = true := by
    rw [hcompare]
    rfl
  exact decide_eq_true hle

theorem isNumber_of_lt {x y : Float} (h : x < y) : IsNumber x ∧ IsNumber y :=
  isNumber_of_le (Binary64.le_of_lt h)

theorem le_iff {x y : Float} (hx : IsNumber x) (hy : IsNumber y) : x ≤ y ↔ value x ≤ value y := by
  have hcompare : x ≤ y ↔ (UnpackedFloat.compare (parts x) (parts y)).any (·.isLE) = true :=
    decide_eq_true_iff
  rw [hcompare, compare_parts hx hy, Option.any_some, Ordering.isLE_iff_ne_gt]
  exact compare_le_iff_le

protected theorem le_refl {x : Float} (hx : IsNumber x) : x ≤ x :=
  (le_iff hx hx).2 le_rfl

protected theorem le_trans {x y z : Float} (h : x ≤ y) (h' : y ≤ z) : x ≤ z := by
  obtain ⟨hx, hy⟩ := isNumber_of_le h
  obtain ⟨-, hz⟩ := isNumber_of_le h'
  exact (le_iff hx hz).2 (((le_iff hx hy).1 h).trans ((le_iff hy hz).1 h'))

protected theorem lt_of_le_of_lt {x y z : Float} (h : x ≤ y) (h' : y < z) : x < z := by
  obtain ⟨hx, hy⟩ := isNumber_of_le h
  obtain ⟨-, hz⟩ := isNumber_of_lt h'
  exact (lt_iff hx hz).2 (((le_iff hx hy).1 h).trans_lt ((lt_iff hy hz).1 h'))

protected theorem lt_of_lt_of_le {x y z : Float} (h : x < y) (h' : y ≤ z) : x < z := by
  obtain ⟨hx, hy⟩ := isNumber_of_lt h
  obtain ⟨-, hz⟩ := isNumber_of_le h'
  exact (lt_iff hx hz).2 (((lt_iff hx hy).1 h).trans_le ((le_iff hy hz).1 h'))

theorem not_le_iff {x y : Float} (hx : IsNumber x) (hy : IsNumber y) : ¬ x ≤ y ↔ y < x := by
  rw [le_iff hx hy, lt_iff hy hx, not_le]

theorem beq_iff {x y : Float} (hx : IsNumber x) (hy : IsNumber y) :
    (x == y) = true ↔ value x = value y := by
  have hcompare : (x == y) = (UnpackedFloat.compare (parts x) (parts y) == some .eq) := rfl
  rw [hcompare, compare_parts hx hy, beq_iff_eq, Option.some.injEq, compare_eq_iff_eq]

theorem isNumber_zero : IsNumber 0 :=
  .of_isFinite (by decide)

/-- A number that is neither below zero nor equal to it is above it. -/
theorem zero_lt {x : Float} (hx : IsNumber x) (hbelow : ¬ x < 0) (hzero : ¬ (x == 0) = true) :
    0 < x := by
  rw [lt_iff hx isNumber_zero] at hbelow
  rw [beq_iff hx isNumber_zero] at hzero
  exact (lt_iff isNumber_zero hx).2 (lt_of_le_of_ne (not_lt.1 hbelow) (Ne.symm hzero))

theorem not_lt_zero {x : Float} (h : 0 < x) : ¬ x < 0 := by
  intro hbelow
  obtain ⟨hzero, hx⟩ := isNumber_of_lt h
  exact lt_asymm ((lt_iff hzero hx).1 h) ((lt_iff hx hzero).1 hbelow)

/-- What lies between two numbers is finite. -/
theorem isFinite_of_between {x y z : Float} (h : x < y) (h' : y < z) : y.isFinite = true := by
  obtain ⟨hx, hy⟩ := isNumber_of_lt h
  obtain ⟨-, hz⟩ := isNumber_of_lt h'
  have hlow := (value_bounds x).1.trans_lt ((lt_iff hx hy).1 h)
  have hhigh := ((lt_iff hy hz).1 h').trans_le (value_bounds z).2
  exact isFinite_iff.2 ⟨hy, abs_lt.2 ⟨hlow, hhigh⟩⟩

/-- The double lies in a range, to which its ends belong. -/
def Within (low high x : Float) : Prop :=
  low ≤ x ∧ x ≤ high

/-- What lies in a finite range is finite. -/
theorem isFinite_of_within {low high x : Float} (hlow : low.isFinite = true)
    (hhigh : high.isFinite = true) (h : Within low high x) : x.isFinite = true := by
  obtain ⟨hlownumber, hx⟩ := isNumber_of_le h.1
  have hleft := (abs_lt.1 (isFinite_iff.1 hlow).2).1.trans_le ((le_iff hlownumber hx).1 h.1)
  have hright := ((le_iff hx (.of_isFinite hhigh)).1 h.2).trans_lt (abs_lt.1 (isFinite_iff.1 hhigh).2).2
  exact isFinite_iff.2 ⟨hx, abs_lt.2 ⟨hleft, hright⟩⟩

/-! ### The results of operations -/

theorem roundWithAccuracy_ne (s : Sign) (m : Nat) (e : ℤ) (accuracy : Accuracy) :
    roundWithAccuracy .binary64 s m e accuracy ≠ .notANumber := by
  intro h
  simp only [roundWithAccuracy] at h
  split at h <;> cases h

/-- Only NaN has all bits of the exponent set, and some of the mantissa. -/
theorem unpack_packComponents_ne (s : Sign) {exponent : BitVec 11} (mantissa : BitVec 52)
    (h : exponent.toNat < 2047) :
    UnpackedFloat.unpack .binary64 (packComponents .binary64 s exponent mantissa) ≠ .notANumber := by
  have hnotLast : exponent ≠ -1#_ := by
    rintro rfl
    exact absurd h (Nat.lt_irrefl 2047)
  intro hno
  unfold UnpackedFloat.unpack at hno
  simp only [unpackExponent_packComponents, if_neg hnotLast] at hno
  split at hno
  · split at hno <;> cases hno
  · cases hno

theorem isNumber_ofParts {w : UnpackedFloat} (h : w ≠ .notANumber) : IsNumber (ofParts w) := by
  rw [IsNumber, parts_ofParts]
  cases w with
  | notANumber => exact absurd rfl h
  | infinity s => rw [← parts_ofParts, parts_ofParts_infinity]; simp
  | zero s => rw [← parts_ofParts, parts_ofParts_zero]; simp
  | finite s m e hm =>
    have hbits : 2 ^ Format.binary64.exponentBits = 2048 := rfl
    simp only [UnpackedFloat.pack]
    split
    · rw [← UnpackedFloat.pack, ← parts_ofParts, parts_ofParts_infinity]; simp
    · next hfits =>
      split
      · refine unpack_packComponents_ne s _ ?_
        rw [BitVec.toNat_ofNat]
        omega
      · exact unpack_packComponents_ne s _ (by decide)

/-- The sum of two numbers is a number unless both are infinite. -/
theorem isNumber_sum {x y : Float} (hx : IsNumber x) (hy : IsNumber y)
    (h : x.isFinite = true ∨ y.isFinite = true) : IsNumber (x + y) := by
  rcases h with h | h
  · exact isNumber_add h hy
  · by_cases hfinite : x.isFinite = true
    · exact isNumber_add hfinite hy
    · have hparts : x + y = ofParts (UnpackedFloat.add .binary64 (parts x) (parts y)) := rfl
      have hsum : UnpackedFloat.add .binary64 (parts x) (parts y) = parts x := by
        have hinfinite : ¬ (parts x).isFinite = true := hfinite
        cases hpx : parts x with
        | notANumber => exact absurd hpx hx
        | infinity s =>
          rcases finite_cases h with ⟨t, hpy⟩ | ⟨t, m, e, hm, hpy⟩ <;> rw [hpy] <;> rfl
        | zero s | finite s m e hm =>
          rw [hpx] at hinfinite
          exact absurd rfl hinfinite
      rw [hparts, hsum, ofParts_parts]
      exact hx

theorem isNumber_half {x : Float} (hx : IsNumber x) : IsNumber (x / 2) := by
  have hparts : x / 2 = ofParts (UnpackedFloat.div .binary64 (parts x) (parts 2)) := rfl
  obtain ⟨m, e, hm, htwo⟩ : ∃ m e hm, parts 2 = .finite .positive m e hm := ⟨_, _, _, rfl⟩
  rw [hparts, htwo]
  refine isNumber_ofParts ?_
  cases hpx : parts x with
  | notANumber => exact absurd hpx hx
  | infinity s | zero s => simp [UnpackedFloat.div]
  | finite s n d hn => exact roundWithAccuracy_ne _ _ _ _

/-- What is not finite is packed as what is not finite. -/
theorem isFinite_of_ofParts {w : UnpackedFloat} (h : (ofParts w).isFinite = true) :
    w.isFinite = true := by
  have hfinite : (parts (ofParts w)).isFinite = true := h
  cases w with
  | zero s | finite s m e hm => rfl
  | notANumber => cases hfinite
  | infinity s =>
    rw [parts_ofParts_infinity] at hfinite
    cases hfinite

theorem isFinite_of_sub_parts {v w : UnpackedFloat}
    (h : (UnpackedFloat.sub .binary64 v w).isFinite = true) :
    v.isFinite = true ∧ w.isFinite = true := by
  cases v with
  | notANumber => cases h
  | infinity s =>
    cases w with
    | infinity t => cases s <;> cases t <;> cases h
    | notANumber | zero t | finite t m e hm => cases h
  | zero s | finite s m e hm =>
    refine ⟨rfl, ?_⟩
    cases w with
    | zero t | finite t m e hm => rfl
    | notANumber | infinity t => cases h

/-- A difference is finite only if both doubles are. -/
theorem isFinite_of_sub {x y : Float} (h : (x - y).isFinite = true) :
    x.isFinite = true ∧ y.isFinite = true := by
  have hparts : x - y = ofParts (UnpackedFloat.sub .binary64 (parts x) (parts y)) := rfl
  rw [hparts] at h
  exact isFinite_of_sub_parts (isFinite_of_ofParts h)

/-- What has a magnitude less than something is finite. -/
theorem isFinite_of_abs_lt {x y : Float} (h : x.abs < y) : x.isFinite = true := by
  have habs : x.abs = ofParts (parts x).abs := rfl
  have hcompare : UnpackedFloat.compare (parts x.abs) (parts y) = some .lt :=
    beq_iff_eq.1 (of_decide_eq_true h)
  change (parts x).isFinite = true
  cases hpx : parts x with
  | zero s | finite s m e hm => rfl
  | notANumber => rw [habs, hpx] at hcompare; cases hcompare
  | infinity s =>
    have hparts : parts x.abs = .infinity .positive := by
      rw [habs, hpx]
      exact parts_ofParts_infinity .positive
    rw [hparts] at hcompare
    cases hpy : parts y with
    | infinity t => rw [hpy] at hcompare; cases t <;> cases hcompare
    | notANumber | zero t | finite t m e hm => rw [hpy] at hcompare; cases hcompare

end ImplicitCurves.Binary64

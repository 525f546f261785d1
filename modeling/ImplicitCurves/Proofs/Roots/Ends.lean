import ImplicitCurves.Proofs.Roots.Scan
import ImplicitCurves.Proofs.Scalar.Order

/-!
# The end of a scan

A scan of doubles ends when a point of the grid lies behind the range.  Options that are accepted do
not make sure that there is one: where the range is far away from zero the step is lost in rounding.
Since rounding keeps the order, the points never go back, so the last one tells: main statement
`RootSearch.exists_endsAt_iff`.
-/

namespace ImplicitCurves

open OrderedScalar Binary64

/-- Accepted options have a finite positive step, and the range is finite. -/
theorem RootOptions.finite_of_fault? {o : RootOptions Float} {low high : Float}
    (h : o.fault? low high = none) : o.granularity.isFinite = true ∧ 0 < o.granularity ∧
      low.isFinite = true ∧ high.isFinite = true := by
  unfold fault? at h
  split at h
  · cases h
  · next hstep =>
    split at h
    · cases h
    · split at h
      · cases h
      · next hrange =>
        simp only [isPositive, Bool.not_eq_true', Bool.not_eq_false, Bool.and_eq_true] at hstep hrange
        exact ⟨hstep.1, of_decide_eq_true hstep.2, hrange.1, hrange.2⟩

/-- The last count is rounded up to the number of counts. -/
theorem ofCount_last : (ofCount (countLimit - 1) : Float) = 18446744073709551616 := by
  decide +kernel

theorem isFinite_countLimit : (18446744073709551616 : Float).isFinite = true := by
  decide +kernel

/-- No count is rounded beyond the number of counts. -/
theorem value_ofCount_le {n : Nat} (hn : n < countLimit) :
    value (ofCount n) ≤ value 18446744073709551616 := by
  have hlast : countLimit - 1 < countLimit := by decide
  rw [← ofCount_last, (value_ofCount hn).2, (value_ofCount hlast).2]
  exact rounded_mono (Nat.cast_le.2 (Nat.le_pred_of_lt hn))

theorem isFinite_ofCount {n : Nat} (hn : n < countLimit) : (ofCount n : Float).isFinite = true := by
  obtain ⟨hnumber, hvalue⟩ := value_ofCount hn
  have hnonneg : 0 ≤ value (ofCount n) := hvalue ▸ rounded_nonneg (Nat.cast_nonneg n)
  have hsmall := (abs_lt.1 (Binary64.isFinite_iff.1 isFinite_countLimit).2).2
  refine Binary64.isFinite_iff.2 ⟨hnumber, ?_⟩
  rw [abs_of_nonneg hnonneg]
  exact lt_of_le_of_lt (value_ofCount_le hn) hsmall

namespace RootSearch

variable {o : RootOptions Float} {low high : Float}

/-- The points of the grid are numbers, and none of them is behind the last one. -/
theorem gridPoint_le (h : o.fault? low high = none) {n : Nat} (hn : n < countLimit) :
    IsNumber (gridPoint low o.granularity n) ∧ value (gridPoint low o.granularity n) ≤
      value (low + 18446744073709551616 * o.granularity) := by
  obtain ⟨hstep, hpositive, hlow, -⟩ := RootOptions.finite_of_fault? h
  have hnonneg : 0 ≤ value o.granularity := by
    have hzero : IsNumber 0 := .of_isFinite (by decide)
    exact ((lt_iff hzero (.of_isFinite hstep)).1 hpositive).le
  have hproduct := (value_mul (isFinite_ofCount hn) hstep).1
  have hproduct' := (value_mul isFinite_countLimit hstep).1
  exact ⟨isNumber_add hlow hproduct, value_add_mono hlow hproduct hproduct'
    (value_mul_mono (isFinite_ofCount hn) isFinite_countLimit hstep hnonneg (value_ofCount_le hn))⟩

/-- No point of the grid is in front of the range. -/
theorem le_gridPoint (h : o.fault? low high = none) {n : Nat} (hn : n < countLimit) :
    low ≤ gridPoint low o.granularity n := by
  obtain ⟨hstep, hpositive, hlow, -⟩ := RootOptions.finite_of_fault? h
  have hzero : IsNumber 0 := .of_isFinite (by decide)
  obtain ⟨hproduct, hrounded⟩ := value_mul (isFinite_ofCount hn) hstep
  have hnonneg : value 0 ≤ value (ofCount n * o.granularity) := by
    have hcount : 0 ≤ value (ofCount n) := (value_ofCount hn).2 ▸ rounded_nonneg (Nat.cast_nonneg n)
    have hstep' : 0 ≤ value o.granularity := ((lt_iff hzero (.of_isFinite hstep)).1 hpositive).le
    rw [hrounded]
    exact rounded_nonneg (mul_nonneg hcount hstep')
  have hsum : value (low + 0) = value low := by
    have hvalue : value (0 : Float) = 0 := rfl
    rw [(value_add hlow (by decide)).2, hvalue, add_zero, rounded_value]
  rw [le_iff (.of_isFinite hlow) (gridPoint_le h hn).1, ← hsum]
  exact value_add_mono hlow hzero hproduct hnonneg

/-- With options that are accepted, the scan of a range ends before the counter runs out just if the
last point of the grid is behind the range.  Then it visits the points in front of its end, whatever
the function is. -/
theorem exists_endsAt_iff (h : o.fault? low high = none) :
    (∃ n, EndsAt o low high n ∧ ∀ f, initial.scan f o low high 0 = visitFirst f o low n) ↔
      high < low + 18446744073709551616 * o.granularity := by
  obtain ⟨hstep, -, hlow, hhigh⟩ := RootOptions.finite_of_fault? h
  have hnumber : IsNumber (low + 18446744073709551616 * o.granularity) :=
    isNumber_add hlow (value_mul isFinite_countLimit hstep).1
  constructor
  · rintro ⟨n, hends, -⟩
    obtain ⟨hpoint, hle⟩ := gridPoint_le h hends.lt
    have hbehind : high < gridPoint low o.granularity n := of_decide_eq_true hends.outside
    have hless := (lt_iff (.of_isFinite hhigh) hpoint).1 hbehind
    exact (lt_iff (.of_isFinite hhigh) hnumber).2 (lt_of_lt_of_le hless hle)
  · intro hbehind
    have hlast : gridPoint low o.granularity (countLimit - 1) =
        low + 18446744073709551616 * o.granularity := by
      rw [gridPoint, ofCount_last]
    have hexists : ∃ n, less high (gridPoint low o.granularity n) = true :=
      ⟨countLimit - 1, by rw [hlast]; exact decide_eq_true hbehind⟩
    have hfirst : Nat.find hexists ≤ countLimit - 1 :=
      Nat.find_min' hexists (by rw [hlast]; exact decide_eq_true hbehind)
    have hpositive : 0 < countLimit := by decide
    have hends : EndsAt o low high (Nat.find hexists) := by
      refine ⟨Nat.lt_of_le_pred hpositive hfirst, fun i hi => ?_, Nat.find_spec hexists⟩
      exact Bool.eq_false_iff.2 (Nat.find_min hexists hi)
    exact ⟨_, hends, hends.scan_eq⟩

/-- With the default options, the scan from minus ten to ten ends, but at `1e300`, where a tenth is
lost in rounding, even the scan of a single point does not. -/
theorem exists_endsAt_iff_default :
    (RootOptions.default.fault? (-10) 10 = none ∧ ∃ n, EndsAt .default (-10) 10 n ∧
      ∀ f, initial.scan f .default (-10) 10 0 = visitFirst f .default (-10) n) ∧
    (RootOptions.default.fault? 1e300 1e300 = none ∧ ¬ ∃ n, EndsAt .default 1e300 1e300 n ∧
      ∀ f, initial.scan f .default 1e300 1e300 0 = visitFirst f .default 1e300 n) := by
  have hnear : RootOptions.default.fault? (-10) 10 = none := by decide +kernel
  have hfar : RootOptions.default.fault? 1e300 1e300 = none := by decide +kernel
  have hends : (10 : Float) < -10 + 18446744073709551616 * RootOptions.default.granularity := by
    decide +kernel
  have hstays : ¬ (1e300 : Float) < 1e300 + 18446744073709551616 * RootOptions.default.granularity := by
    decide +kernel
  exact ⟨⟨hnear, (exists_endsAt_iff hnear).2 hends⟩,
    ⟨hfar, fun hno => hstays ((exists_endsAt_iff hfar).1 hno)⟩⟩

end RootSearch

end ImplicitCurves

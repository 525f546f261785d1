import ImplicitCurves.Proofs.Scalar.Values

/-!
# Counts that are kept as doubles

A double is read as a count by dropping the places after the point: what is below zero or not a number
gives zero, and what is too large the greatest count.  Counts up to `2 ^ 53` are doubles themselves, so
they are read back as they were.
-/

namespace ImplicitCurves.Binary64

open Float.Model Float.Model.UnpackedFloat

/-! ### From doubles -/

theorem toNat_ofNatClamp (n : Nat) : (UInt64.ofNatClamp n).toNat = min n (countLimit - 1) := by
  have hsize : UInt64.size = countLimit := rfl
  have hpos : 0 < countLimit := Nat.two_pow_pos 64
  unfold UInt64.ofNatClamp
  split
  · next hlt =>
    rw [UInt64.toNat_ofNatLT]
    omega
  · rw [UInt64.toNat_ofNatLT]
    omega

theorem two_pow_le_limit {k : Nat} (hk : k ≤ 1024) : ((2 ^ k : Nat) : ℚ) ≤ limit := by
  push_cast
  rw [limit, ← zpow_natCast]
  apply two_zpow_le
  omega

/-- The mantissa of finite parts that are shifted to the point is their whole part. -/
theorem roundToInt_eq (s : Sign) (m : Nat) (e : ℤ) :
    roundToInt s m e = s.apply ⌊(m : ℚ) * 2 ^ e⌋₊ := by
  have hmantissa (m k : Nat) :
      (ExtendedMantissa.ofMantissaAndAccuracy m .exact >>> k).mantissa = m / 2 ^ k :=
    mantissa_shiftRight _ k
  simp only [roundToInt, decreaseExponent, shiftToExponent, hmantissa]
  congr 2
  rcases le_total 0 e with he | he
  · obtain ⟨k, rfl⟩ := Int.eq_ofNat_of_zero_le he
    have hleft : ((k : ℤ) - 0).toNat = k := by omega
    have hright : (0 - ((k : ℤ) - (k : ℤ))).toNat = 0 := by omega
    rw [hleft, hright, Nat.pow_zero, Nat.div_one, Nat.shiftLeft_eq, zpow_natCast]
    exact_mod_cast (Nat.floor_natCast (R := ℚ) (m * 2 ^ k)).symm
  · obtain ⟨k, rfl⟩ : ∃ k : Nat, e = -k := ⟨e.natAbs, by omega⟩
    have hleft : (-(k : ℤ) - 0).toNat = 0 := by omega
    have hright : (0 - (-(k : ℤ) - ((0 : Nat) : ℤ))).toNat = k := by omega
    have hpower : (2 : ℚ) ^ k = ((2 ^ k : Nat) : ℚ) := by push_cast; rfl
    rw [hleft, hright, Nat.shiftLeft_zero, zpow_neg, zpow_natCast, ← div_eq_mul_inv, hpower,
      Nat.floor_div_eq_div]

/-- Reading a count drops the places after the point. -/
theorem toCount_eq (x : Float) :
    OrderedScalar.toCount x = min ⌊value x⌋₊ (countLimit - 1) := by
  have hcount : OrderedScalar.toCount x =
      (UInt64.ofNatClamp (toInt 0 (UInt64.size - 1) (parts x)).toNat).toNat := rfl
  rw [hcount, toNat_ofNatClamp, value]
  cases parts x with
  | notANumber => simp [toInt, valueOfParts]
  | zero s => simp [toInt, valueOfParts]
  | infinity s =>
    cases s with
    | negative =>
      have hfloor : ⌊-limit⌋₊ = 0 := Nat.floor_of_nonpos (neg_nonpos.2 limit_pos.le)
      simp [toInt, valueOfParts, signed, hfloor]
    | positive =>
      have hfloor : countLimit - 1 ≤ ⌊limit⌋₊ := by
        exact (Nat.sub_le _ _).trans (Nat.le_floor (two_pow_le_limit (k := 64) (by omega)))
      have hsize : ((UInt64.size : ℤ) - 1).toNat = countLimit - 1 := rfl
      simp only [toInt, valueOfParts, signed, hsize, Nat.min_eq_right hfloor, Nat.min_self]
  | finite s m e hm =>
    simp only [toInt, valueOfParts, roundToInt_eq]
    cases s with
    | negative =>
      have hneg : -((m : ℚ) * 2 ^ e) ≤ 0 :=
        neg_nonpos.2 (mul_nonneg (Nat.cast_nonneg m) (two_zpow_pos e).le)
      simp only [Sign.apply, signed, Int.toNat_neg_natCast, Nat.floor_of_nonpos hneg]
    | positive => simp only [Sign.apply, signed, Int.toNat_natCast]

/-! ### From counts -/

/-- A number with only zeros behind the last place is not changed by rounding. -/
theorem nearest_of_whole {q : ℚ} {n : Nat} (h : q / 2 ^ lastPlace q = n) : nearest q = q := by
  rw [nearest, places, h, halfEven_natCast, ← h, div_mul_cancel₀ _ (two_zpow_pos _).ne']

theorem nearest_natCast {n : Nat} (hn : n ≤ 2 ^ 53) : nearest n = n := by
  rcases Nat.eq_zero_or_pos n with rfl | hpos
  · rw [Nat.cast_zero, nearest_zero]
  rcases hn.lt_or_eq with hlt | rfl
  · -- the last place is at or behind the point
    have hlog : Int.log 2 (n : ℚ) < 53 := by
      refine (Int.lt_zpow_iff_log_lt one_lt_two (Nat.cast_pos.2 hpos)).1 ?_
      exact_mod_cast hlt
    obtain ⟨k, hk⟩ : ∃ k : Nat, lastPlace n = -k :=
      ⟨(-lastPlace n).toNat, by unfold lastPlace; omega⟩
    apply nearest_of_whole (n := n * 2 ^ k)
    rw [hk, zpow_neg, div_inv_eq_mul, zpow_natCast]
    push_cast
    rfl
  · have hcanonical : Canonical (2 ^ 52) 1 := ⟨by norm_num, by norm_num, .inl (le_refl _)⟩
    have hvalue : ((2 ^ 53 : Nat) : ℚ) = ((2 ^ 52 : Nat) : ℚ) * 2 ^ (1 : ℤ) := by norm_num
    rw [hvalue]
    exact nearest_of_canonical (by norm_num) hcanonical

/-- A count of at most 2⁵³ is read back from its double. -/
theorem toCount_ofCount {n : Nat} (hn : n ≤ 2 ^ 53) :
    OrderedScalar.toCount (OrderedScalar.ofCount n : Float) = n := by
  have hcount : n < countLimit := Nat.lt_of_le_of_lt hn (by decide)
  have hlimit : (n : ℚ) ≤ limit := (Nat.cast_le.2 hn).trans (two_pow_le_limit (by omega))
  rw [toCount_eq, (value_ofCount hcount).2, rounded, if_pos (Nat.cast_nonneg n), nearest_natCast hn,
    min_eq_left hlimit, Nat.floor_natCast]
  omega

end ImplicitCurves.Binary64

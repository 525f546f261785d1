import ImplicitCurves.Proofs.Scalar.Order

/-!
# Quotients of doubles

The quotient of two finite doubles is the exact one rounded.  A division makes enough digits for that,
and tells the rest by an accuracy.  So the middle of two doubles lies where it should as long as their
sum is not too large: main statements `value_div`, `le_middle` and `middle_le`.
-/

namespace ImplicitCurves.Binary64

open Float.Model Float.Model.UnpackedFloat

/-! ### The digits of a quotient -/

/-- The accuracy of a division tells where the exact quotient is with respect to the whole part. -/
theorem standsFor_quotient (n : Nat) {d : Nat} (hd : 0 < d) :
    StandsFor (ExtendedMantissa.ofMantissaAndAccuracy (n / d) (accuracyOfFraction (n % d) d))
      ((n : ℚ) / d) := by
  have hd' : (0 : ℚ) < d := Nat.cast_pos.2 hd
  have hsplit : (n : ℚ) / d = (n / d : Nat) + ((n % d : Nat) : ℚ) / d := by
    have hparts : (n : ℚ) = d * (n / d : Nat) + (n % d : Nat) := by
      exact_mod_cast (Nat.div_add_mod n d).symm
    conv_lhs => rw [hparts, add_div, mul_div_cancel_left₀ _ hd'.ne']
  have hmod : ((n % d : Nat) : ℚ) < d := Nat.cast_lt.2 (Nat.mod_lt n hd)
  rw [hsplit, accuracyOfFraction]
  split
  · next hzero =>
    rw [hzero, Nat.cast_zero, zero_div, add_zero]
    rfl
  · next hrest =>
    have hpos : (0 : ℚ) < ((n % d : Nat) : ℚ) / d :=
      div_pos (Nat.cast_pos.2 (Nat.pos_of_ne_zero hrest)) hd'
    have hone : ((n % d : Nat) : ℚ) / d < 1 := (div_lt_one hd').2 hmod
    rcases lt_trichotomy (2 * (n % d)) d with h | h | h
    · have hhalf : ((n % d : Nat) : ℚ) / d < 1 / 2 := by
        have hcast : (2 : ℚ) * (n % d : Nat) < d := by exact_mod_cast h
        rw [div_lt_div_iff₀ hd' two_pos]
        linarith
      rw [compare_lt_iff_lt.2 h]
      exact ⟨lt_add_of_pos_right _ hpos, (add_lt_add_iff_left _).2 hhalf⟩
    · have hhalf : ((n % d : Nat) : ℚ) / d = 1 / 2 := by
        have hcast : (2 : ℚ) * (n % d : Nat) = d := by exact_mod_cast h
        rw [div_eq_div_iff hd'.ne' two_ne_zero]
        linarith
      rw [compare_eq_iff_eq.2 h, hhalf]
      rfl
    · have hhalf : 1 / 2 < ((n % d : Nat) : ℚ) / d := by
        have hcast : (d : ℚ) < 2 * (n % d : Nat) := by exact_mod_cast h
        rw [div_lt_div_iff₀ two_pos hd']
        linarith
      rw [compare_gt_iff_gt.2 h]
      exact ⟨(add_lt_add_iff_left _).2 hhalf, (add_lt_add_iff_left _).2 hone⟩

/-- The whole part of a quotient reaches up to its last place. -/
theorem exponent_div_le {m n : Nat} {d e t : ℤ} (hm : 0 < m) (hn : 0 < n)
    (ht : min (d - e)
      (Format.binary64.targetExponent (totalExponent m d - totalExponent n e)) = t) :
    t ≤ Format.binary64.targetExponent (totalExponent ((m <<< (d - e - t).toNat) / n) t) := by
  rw [targetExponent_eq] at ht ⊢
  rcases le_or_gt t (-1074) with hleast | hlarge
  · exact le_max_of_le_right hleast
  · refine le_max_of_le_left ?_
    have hdigits : n.log2 + 53 ≤ m.log2 + (d - e - t).toNat := by
      rw [totalExponent, totalExponent] at ht
      omega
    have hquotient : 2 ^ 52 ≤ (m <<< (d - e - t).toNat) / n := by
      rw [Nat.le_div_iff_mul_le hn, Nat.shiftLeft_eq]
      calc 2 ^ 52 * n ≤ 2 ^ 52 * 2 ^ (n.log2 + 1) := Nat.mul_le_mul_left _ Nat.lt_log2_self.le
        _ = 2 ^ (n.log2 + 53) := by rw [← Nat.pow_add, Nat.add_comm]
        _ ≤ 2 ^ (m.log2 + (d - e - t).toNat) := Nat.pow_le_pow_right (by decide) hdigits
        _ = 2 ^ m.log2 * 2 ^ (d - e - t).toNat := Nat.pow_add ..
        _ ≤ m * 2 ^ (d - e - t).toNat :=
          Nat.mul_le_mul_right _ (Nat.log2_self_le (Nat.ne_of_gt hm))
    have hlog : 52 ≤ ((m <<< (d - e - t).toNat) / n).log2 :=
      (Nat.le_log2 (by omega)).2 hquotient
    rw [totalExponent]
    omega

theorem signed_div (s t : Sign) (q r : ℚ) : signed (s / t) (q / r) = signed s q / signed t r := by
  cases s <;> cases t
  · exact (neg_div_neg_eq q r).symm
  · exact (neg_div r q).symm
  · exact (div_neg q).symm
  · rfl

/-- The quotient of finite doubles is the exact quotient rounded, unless it is by zero. -/
theorem value_div {x y : Float} (hx : x.isFinite = true) (hy : y.isFinite = true)
    (hzero : value y ≠ 0) :
    IsNumber (x / y) ∧ value (x / y) = rounded (value x / value y) := by
  have hparts : x / y = ofParts (UnpackedFloat.div .binary64 (parts x) (parts y)) := rfl
  rw [hparts]
  rcases finite_cases hy with ⟨t, hy⟩ | ⟨t, n, e, hn, hy⟩
  · exact absurd (by rw [value, hy, valueOfParts]) hzero
  · rcases finite_cases hx with ⟨s, hx⟩ | ⟨s, m, d, hm, hx⟩
    · have hvalue : value x / value y = 0 := by rw [value, hx, valueOfParts, zero_div]
      rw [hvalue, hx, hy]
      exact value_ofParts_zero _
    · obtain ⟨u, hu⟩ : ∃ u, min (d - e)
        (Format.binary64.targetExponent (totalExponent m d - totalExponent n e)) = u := ⟨_, rfl⟩
      obtain ⟨k, hk⟩ : ∃ k, (d - e - u).toNat = k := ⟨_, rfl⟩
      have hle : u ≤ d - e := hu ▸ min_le_left _ _
      have hn' : (0 : ℚ) < n := Nat.cast_pos.2 hn
      have hquotient : value x / value y =
          signed (s / t) (((m <<< k : Nat) : ℚ) / n * 2 ^ u) := by
        have hexponent : d = k + u + e := by omega
        rw [value, value, hx, hy, valueOfParts, valueOfParts, ← signed_div, Nat.shiftLeft_eq]
        congr 1
        conv_lhs => rw [hexponent, zpow_add₀ two_ne_zero, zpow_add₀ two_ne_zero, zpow_natCast]
        have hpower := (two_zpow_pos e).ne'
        push_cast
        field_simp
      have hpos : (0 : ℚ) < ((m <<< k : Nat) : ℚ) / n := by
        rw [Nat.shiftLeft_eq]
        exact div_pos (Nat.cast_pos.2 (Nat.mul_pos hm (Nat.two_pow_pos k))) hn'
      rw [hquotient, hx, hy]
      simp only [UnpackedFloat.div, divCore, hu, hk]
      exact value_ofParts_round (mul_nonneg hpos.le (two_zpow_pos u).le)
        (roundWithAccuracy_of_standsFor _ hpos (standsFor_quotient _ hn)
          (hk ▸ exponent_div_le hm hn hu))

/-! ### Halves -/

theorem parts_two : parts 2 = .finite .positive (2 ^ 52) (-51) (by decide) :=
  rfl

theorem value_two : value 2 = 2 := by
  rw [value, parts_two, valueOfParts, signed]
  norm_num

theorem value_half {x : Float} (hx : x.isFinite = true) :
    IsNumber (x / 2) ∧ value (x / 2) = rounded (value x / 2) := by
  have htwo : value 2 ≠ 0 := by
    rw [value_two]
    exact two_ne_zero
  have hquotient := value_div hx (y := 2) (by decide) htwo
  rwa [value_two] at hquotient

/-- Half of an infinite double is this double. -/
theorem half_of_not_isFinite {x : Float} (hx : IsNumber x) (hinfinite : x.isFinite = false) :
    x / 2 = x := by
  have hparts : x / 2 = ofParts (UnpackedFloat.div .binary64 (parts x) (parts 2)) := rfl
  have hinfinite : (parts x).isFinite = false := hinfinite
  have hhalf : UnpackedFloat.div .binary64 (parts x) (parts 2) = parts x := by
    rw [parts_two]
    cases hpx : parts x with
    | notANumber => exact absurd hpx hx
    | infinity s => cases s <;> rfl
    | zero s | finite s m e hm =>
      rw [hpx] at hinfinite
      cases hinfinite
  rw [hparts, hhalf, ofParts_parts]

theorem nearest_double {m : Nat} {e : ℤ} (hm : 0 < m) (h : Canonical m e) :
    nearest (2 * (m * 2 ^ e)) = 2 * (m * 2 ^ e) := by
  obtain ⟨hlt, hleast, hnormal⟩ := h
  by_cases hsubnormal : m < 2 ^ 52
  · have htwice : (2 : ℚ) * (m * 2 ^ e) = (2 * m : Nat) * 2 ^ e := by
      rw [Nat.cast_mul, Nat.cast_two, mul_assoc]
    rw [htwice]
    exact nearest_of_canonical (by omega) ⟨by omega, hleast, .inr (hnormal.resolve_left (by omega))⟩
  · have hnext : (2 : ℚ) * (m * 2 ^ e) = m * 2 ^ (e + 1) := by
      rw [zpow_add_one₀ two_ne_zero]
      ring
    rw [hnext]
    exact nearest_of_canonical hm ⟨hlt, by omega, .inl (not_lt.1 hsubnormal)⟩

/-- Doubling a double is exact unless the result is too large. -/
theorem rounded_double {x : Float} (hx : |2 * value x| < limit) :
    rounded (2 * value x) = 2 * value x := by
  have hdouble : ∀ (s : Sign) (q : ℚ), 2 * signed s q = signed s (2 * q) := by
    rintro (_ | _) q
    · exact mul_neg 2 q
    · rfl
  unfold value at hx ⊢
  cases hpx : parts x with
  | notANumber | zero s => rw [valueOfParts, mul_zero, rounded_zero]
  | infinity s =>
    rw [hpx, valueOfParts, hdouble, abs_signed, abs_of_pos (mul_pos two_pos limit_pos)] at hx
    linarith [limit_pos]
  | finite s m e hm =>
    have hpos := mul_pos two_pos (finite_bounds hpx).1
    rw [hpx, valueOfParts, hdouble, abs_signed, abs_of_pos hpos] at hx
    rw [valueOfParts, hdouble, rounded_signed s hpos.le, nearest_double hm (canonical_parts hpx),
      min_eq_left hx.le]

/-! ### The middle -/

theorem rounded_neg (q : ℚ) : rounded (-q) = -rounded q := by
  rcases lt_trichotomy q 0 with h | rfl | h
  · rw [rounded_of_neg h, neg_neg]
  · rw [neg_zero, rounded_zero, neg_zero]
  · rw [rounded_of_neg (neg_lt_zero.2 h), neg_neg]

theorem value_neg (x : Float) : value (-x) = -value x := by
  rw [value, value, parts_neg]
  cases parts x with
  | notANumber | zero s => exact neg_zero.symm
  | infinity s | finite s m e hm =>
    cases s with
    | negative => exact (neg_neg _).symm
    | positive => rfl

/-- A bound of both summands is one of half of their rounded sum, as long as this is not too large. -/
theorem value_le_half {x : Float} {q : ℚ} (h : 2 * value x ≤ q) (hq : rounded q < limit) :
    value x ≤ rounded (rounded q / 2) := by
  have hhalf : 2 * value x ≤ rounded q := by
    rcases le_or_gt limit (2 * value x) with hlarge | hsmall
    · have hlimit : rounded limit ≤ rounded q := rounded_mono (hlarge.trans h)
      rw [rounded, if_pos limit_pos.le, nearest_limit, min_self] at hlimit
      exact absurd hq (not_lt.2 hlimit)
    · rcases le_or_gt (2 * value x) (-limit) with hlow | hlow
      · exact hlow.trans (neg_limit_le_rounded q)
      · rw [← rounded_double (abs_lt.2 ⟨hlow, hsmall⟩)]
        exact rounded_mono h
  rw [← rounded_value x]
  exact rounded_mono (by linarith)

theorem half_le_value {x : Float} {q : ℚ} (h : q ≤ 2 * value x) (hq : -limit < rounded q) :
    rounded (rounded q / 2) ≤ value x := by
  have hopposite : value (-x) ≤ rounded (rounded (-q) / 2) := by
    refine value_le_half ?_ ?_
    · rw [value_neg]
      linarith
    · rw [rounded_neg]
      linarith
  rw [value_neg, rounded_neg, neg_div, rounded_neg] at hopposite
  exact neg_le_neg_iff.1 hopposite

section Middle

variable {x y z : Float} (hx : x.isFinite = true) (hy : y.isFinite = true)
  (hsum : (x + y).isFinite = true)

include hx hy hsum

/-- The middle of two doubles whose sum is finite is not below both of them. -/
theorem le_middle (h : z ≤ x) (h' : z ≤ y) : z ≤ (x + y) / 2 := by
  obtain ⟨hz, hxnumber⟩ := isNumber_of_le h
  obtain ⟨-, hynumber⟩ := isNumber_of_le h'
  obtain ⟨hnumber, hhalf⟩ := value_half hsum
  have hvalue := (value_add hx hy).2
  have hsmall := (abs_lt.1 (isFinite_iff.1 hsum).2).2
  have hlow := (le_iff hz hxnumber).1 h
  have hlow' := (le_iff hz hynumber).1 h'
  rw [hvalue] at hsmall
  rw [le_iff hz hnumber, hhalf, hvalue]
  exact value_le_half (by linarith) hsmall

/-- The middle of two doubles whose sum is finite is not above both of them. -/
theorem middle_le (h : x ≤ z) (h' : y ≤ z) : (x + y) / 2 ≤ z := by
  obtain ⟨hxnumber, hz⟩ := isNumber_of_le h
  obtain ⟨hynumber, -⟩ := isNumber_of_le h'
  obtain ⟨hnumber, hhalf⟩ := value_half hsum
  have hvalue := (value_add hx hy).2
  have hlarge := (abs_lt.1 (isFinite_iff.1 hsum).2).1
  have hhigh := (le_iff hxnumber hz).1 h
  have hhigh' := (le_iff hynumber hz).1 h'
  rw [hvalue] at hlarge
  rw [le_iff hnumber hz, hhalf, hvalue]
  exact half_le_value (by linarith) hlarge

end Middle

end ImplicitCurves.Binary64

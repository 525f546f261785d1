import ImplicitCurves.Proofs.Scalar.Binary64
import Mathlib.Algebra.Order.Floor.Semifield
import Mathlib.Data.Int.Log
import Mathlib.Data.Rat.Floor
import Mathlib.Tactic.Linarith
import Mathlib.Tactic.NormNum

/-!
# Rounding to doubles

The double that an exact result is rounded to, as a function of rational numbers: the exponent of the
last place is that of the first digit less 52, but not less than the least one; the number of last
places is rounded to the nearest natural number, to the even one of two; and what is too large is
infinite, which counts as the next power of two here.  This function is monotone, and leaves the
values of doubles as they are.
-/

namespace ImplicitCurves.Binary64

open Float.Model Float.Model.UnpackedFloat

/-! ### To natural numbers -/

/-- The nearest natural number, the even one if there are two. -/
def halfEven (q : ℚ) : Nat :=
  if q - ⌊q⌋₊ < 1 / 2 then ⌊q⌋₊
  else if q - ⌊q⌋₊ = 1 / 2 then ⌊q⌋₊ + ⌊q⌋₊ % 2
  else ⌊q⌋₊ + 1

theorem floor_le_halfEven (q : ℚ) : ⌊q⌋₊ ≤ halfEven q := by
  unfold halfEven
  split
  · exact Nat.le_refl _
  · split <;> omega

theorem halfEven_le (q : ℚ) : halfEven q ≤ ⌊q⌋₊ + 1 := by
  unfold halfEven
  split
  · omega
  · split <;> omega

theorem halfEven_natCast (n : Nat) : halfEven n = n := by
  rw [halfEven, Nat.floor_natCast, sub_self, if_pos (by norm_num)]

theorem halfEven_mono {q r : ℚ} (h : q ≤ r) : halfEven q ≤ halfEven r := by
  rcases Nat.eq_or_lt_of_le (Nat.floor_mono h) with heq | hlt
  · have hrest : q - ⌊r⌋₊ ≤ r - ⌊r⌋₊ := by linarith
    unfold halfEven
    rw [heq]
    split
    · split
      · exact Nat.le_refl _
      · split <;> omega
    · next hhalf =>
      have hmore : ¬ r - ⌊r⌋₊ < 1 / 2 := by linarith
      rw [if_neg hmore]
      split
      · split <;> omega
      · next hne =>
        have hmost : 1 / 2 < q - ⌊r⌋₊ := lt_of_le_of_ne (not_lt.1 hhalf) (Ne.symm hne)
        have hmost' : ¬ r - ⌊r⌋₊ = 1 / 2 := by linarith
        rw [if_neg hmost']
  · exact (halfEven_le q).trans (Nat.le_trans hlt (floor_le_halfEven r))

/-! ### To 53 digits -/

/-- The exponent of the last place of the double that a positive number is rounded to. -/
def lastPlace (q : ℚ) : ℤ :=
  max (Int.log 2 q - 52) (-1074)

/-- The number of last places that a positive number is rounded to. -/
def places (q : ℚ) : Nat :=
  halfEven (q / 2 ^ lastPlace q)

/-- What a positive number is rounded to, if it is not too large. -/
def nearest (q : ℚ) : ℚ :=
  places q * 2 ^ lastPlace q

theorem two_zpow_pos (e : ℤ) : (0 : ℚ) < 2 ^ e :=
  zpow_pos two_pos e

theorem two_zpow_le {d e : ℤ} (h : d ≤ e) : (2 : ℚ) ^ d ≤ 2 ^ e :=
  zpow_le_zpow_right₀ one_le_two h

theorem nearest_nonneg (q : ℚ) : 0 ≤ nearest q :=
  mul_nonneg (Nat.cast_nonneg _) (two_zpow_pos _).le

theorem places_le (q : ℚ) : places q ≤ 2 ^ 53 := by
  have hlog : q < 2 ^ (Int.log 2 q + 1) := Int.lt_zpow_succ_log_self one_lt_two q
  have hexponent : Int.log 2 q + 1 ≤ 53 + lastPlace q := by
    unfold lastPlace
    omega
  have hlt : q / 2 ^ lastPlace q < 2 ^ 53 := by
    rw [div_lt_iff₀ (two_zpow_pos _)]
    calc q < 2 ^ (Int.log 2 q + 1) := hlog
      _ ≤ 2 ^ (53 + lastPlace q) := two_zpow_le hexponent
      _ = 2 ^ 53 * 2 ^ lastPlace q := zpow_add₀ two_ne_zero _ _
  have hmono := halfEven_mono hlt.le
  have hcast : ((2 : ℚ) ^ 53) = ((2 ^ 53 : Nat) : ℚ) := by norm_num
  rw [hcast, halfEven_natCast] at hmono
  exact hmono

theorem le_places {q : ℚ} (hq : 0 < q) (hlarge : -1074 < lastPlace q) : 2 ^ 52 ≤ places q := by
  have hlog : (2 : ℚ) ^ Int.log 2 q ≤ q := Int.zpow_log_le_self one_lt_two hq
  have hexponent : Int.log 2 q = 52 + lastPlace q := by
    unfold lastPlace at hlarge ⊢
    omega
  have hle : (2 : ℚ) ^ 52 ≤ q / 2 ^ lastPlace q := by
    rw [le_div_iff₀ (two_zpow_pos _)]
    calc (2 : ℚ) ^ 52 * 2 ^ lastPlace q = 2 ^ (52 + lastPlace q) := (zpow_add₀ two_ne_zero _ _).symm
      _ = 2 ^ Int.log 2 q := by rw [hexponent]
      _ ≤ q := hlog
  have hmono := halfEven_mono hle
  have hcast : ((2 : ℚ) ^ 52) = ((2 ^ 52 : Nat) : ℚ) := by norm_num
  rw [hcast, halfEven_natCast] at hmono
  exact hmono

theorem lastPlace_mono {q r : ℚ} (hq : 0 < q) (h : q ≤ r) : lastPlace q ≤ lastPlace r := by
  have hlog : Int.log 2 q ≤ Int.log 2 r := Int.log_mono_right hq h
  unfold lastPlace
  omega

theorem nearest_mono {q r : ℚ} (hq : 0 < q) (h : q ≤ r) : nearest q ≤ nearest r := by
  rcases (lastPlace_mono hq h).eq_or_lt with heq | hlt
  · unfold nearest places
    rw [heq]
    refine mul_le_mul_of_nonneg_right (Nat.cast_le.2 (halfEven_mono ?_)) (two_zpow_pos _).le
    exact div_le_div_of_nonneg_right h (two_zpow_pos _).le
  · -- the greatest number of places below is not more than the least one above
    have hleast : -1074 < lastPlace r := lt_of_le_of_lt (le_max_right _ _) hlt
    have hbelow : (places q : ℚ) ≤ 2 ^ 53 := by exact_mod_cast places_le q
    have habove : (2 : ℚ) ^ 52 ≤ places r := by exact_mod_cast le_places (hq.trans_le h) hleast
    calc nearest q ≤ 2 ^ 53 * 2 ^ lastPlace q :=
          mul_le_mul_of_nonneg_right hbelow (two_zpow_pos _).le
      _ = 2 ^ 52 * 2 ^ (lastPlace q + 1) := by rw [zpow_add₀ two_ne_zero]; ring
      _ ≤ 2 ^ 52 * 2 ^ lastPlace r :=
          mul_le_mul_of_nonneg_left (two_zpow_le (by omega)) (by norm_num)
      _ ≤ nearest r := mul_le_mul_of_nonneg_right habove (two_zpow_pos _).le

/-- The position of the first digit of a number is that of its whole part, if this is not zero. -/
theorem log_of_bounds {m : Nat} {q : ℚ} (hm : 0 < m) (hle : (m : ℚ) ≤ q) (hlt : q < m + 1) (e : ℤ) :
    Int.log 2 (q * 2 ^ e) = m.log2 + e := by
  have hlow : ((2 ^ m.log2 : Nat) : ℚ) ≤ m := Nat.cast_le.2 (Nat.log2_self_le (Nat.ne_of_gt hm))
  have hhigh : ((m + 1 : Nat) : ℚ) ≤ ((2 ^ (m.log2 + 1) : Nat) : ℚ) := Nat.cast_le.2 Nat.lt_log2_self
  have hpos : (0 : ℚ) < q * 2 ^ e :=
    mul_pos ((Nat.cast_pos.2 hm).trans_le hle) (two_zpow_pos e)
  push_cast at hlow hhigh
  refine le_antisymm ?_ ?_
  · refine Int.lt_add_one_iff.1 ((Int.lt_zpow_iff_log_lt one_lt_two hpos).1 ?_)
    calc q * 2 ^ e < 2 ^ (m.log2 + 1) * 2 ^ e :=
          mul_lt_mul_of_pos_right (hlt.trans_le hhigh) (two_zpow_pos e)
      _ = ((2 : Nat) : ℚ) ^ ((m.log2 : ℤ) + e + 1) := by
        rw [← zpow_natCast, ← zpow_add₀ two_ne_zero]
        push_cast
        congr 1
        omega
  · refine (Int.zpow_le_iff_le_log one_lt_two hpos).1 ?_
    calc ((2 : Nat) : ℚ) ^ ((m.log2 : ℤ) + e) = 2 ^ m.log2 * 2 ^ e := by
          push_cast
          rw [zpow_add₀ two_ne_zero, zpow_natCast]
      _ ≤ q * 2 ^ e := mul_le_mul_of_nonneg_right (hlow.trans hle) (two_zpow_pos e).le

/-- The last place of a number with the given digits is the target exponent of rounding. -/
theorem lastPlace_mul_zpow {m : Nat} (hm : 0 < m) (e : ℤ) : lastPlace (m * 2 ^ e) =
    Format.binary64.targetExponent (totalExponent m e) := by
  rw [lastPlace, log_of_bounds hm le_rfl (lt_add_one _), targetExponent_eq, totalExponent]
  omega

/-- Rounding leaves canonical parts as they are. -/
theorem nearest_of_canonical {m : Nat} {e : ℤ} (hm : 0 < m) (h : Canonical m e) :
    nearest (m * 2 ^ e) = m * 2 ^ e := by
  rw [nearest, places, lastPlace_mul_zpow hm, h.targetExponent hm,
    mul_div_cancel_right₀ _ (two_zpow_pos e).ne', halfEven_natCast]

/-! ### The digits that are kept -/

/-- A mantissa with its two residual bits stands for a number: the mantissa is the whole part, and the
bits tell where the rest is with respect to a half. -/
def StandsFor (em : ExtendedMantissa) (q : ℚ) : Prop :=
  match em.roundBit, em.stickyBit with
  | false, false => q = em.mantissa
  | false, true => em.mantissa < q ∧ q < em.mantissa + 1 / 2
  | true, false => q = em.mantissa + 1 / 2
  | true, true => em.mantissa + 1 / 2 < q ∧ q < em.mantissa + 1

theorem StandsFor.bounds {em : ExtendedMantissa} {q : ℚ} (h : StandsFor em q) :
    (em.mantissa : ℚ) ≤ q ∧ q < em.mantissa + 1 := by
  obtain ⟨m, roundBit, stickyBit⟩ := em
  cases roundBit <;> cases stickyBit <;> simp only [StandsFor] at h ⊢ <;> constructor <;> linarith

theorem StandsFor.shiftRightOne {em : ExtendedMantissa} {q : ℚ} (h : StandsFor em q) :
    StandsFor em.shiftRightOne (q / 2) := by
  obtain ⟨m, roundBit, stickyBit⟩ := em
  have hdigits : (m : ℚ) = 2 * (m / 2 : Nat) + (m % 2 : Nat) := by
    exact_mod_cast (Nat.div_add_mod m 2).symm
  rcases Nat.mod_two_eq_zero_or_one m with hmod | hmod
  · have hbit : (m % 2 != 0) = false := by rw [hmod]; rfl
    rw [hmod, Nat.cast_zero, add_zero] at hdigits
    cases roundBit <;> cases stickyBit <;>
      simp only [StandsFor, ExtendedMantissa.shiftRightOne, hbit, Bool.or_self, Bool.or_true,
        Bool.or_false] at h ⊢ <;> first | linarith | (constructor <;> linarith)
  · have hbit : (m % 2 != 0) = true := by rw [hmod]; rfl
    rw [hmod, Nat.cast_one] at hdigits
    cases roundBit <;> cases stickyBit <;>
      simp only [StandsFor, ExtendedMantissa.shiftRightOne, hbit, Bool.or_self, Bool.or_true,
        Bool.or_false] at h ⊢ <;> first | linarith | (constructor <;> linarith)

theorem StandsFor.shiftRight {em : ExtendedMantissa} {q : ℚ} (h : StandsFor em q) (k : Nat) :
    StandsFor (em >>> k) (q / 2 ^ k) := by
  induction k with
  | zero =>
    rw [pow_zero, div_one]
    exact h
  | succ k ih =>
    rw [shiftRight_succ, pow_succ, ← div_div]
    exact ih.shiftRightOne

theorem StandsFor.roundedMantissa {em : ExtendedMantissa} {q : ℚ} (h : StandsFor em q) :
    em.roundedMantissa = halfEven q := by
  obtain ⟨hle, hlt⟩ := h.bounds
  obtain ⟨m, roundBit, stickyBit⟩ := em
  have hfloor : ⌊q⌋₊ = m := (Nat.floor_eq_iff ((Nat.cast_nonneg m).trans hle)).2 ⟨hle, hlt⟩
  rw [halfEven, hfloor]
  cases roundBit with
  | false =>
    have hbelow : q - m < 1 / 2 := by
      cases stickyBit <;> simp only [StandsFor] at h <;> linarith
    rw [if_pos hbelow]
    cases stickyBit <;> rfl
  | true =>
    cases stickyBit with
    | false =>
      have hhalf : q - m = 1 / 2 := by
        simp only [StandsFor] at h
        linarith
      rw [hhalf, if_neg (lt_irrefl _), if_pos rfl]
      rfl
    | true =>
      have habove : 1 / 2 < q - m := by
        simp only [StandsFor] at h
        linarith
      rw [if_neg habove.not_gt, if_neg habove.ne']
      rfl

/-- If rounding has made one digit too many, then the last one is zero and is dropped. -/
theorem canonical_shift {r k : Nat} {t : ℤ} (hpos : 0 < r) (hle : r ≤ 2 ^ 53) (hleast : -1074 ≤ t)
    (hnormal : 2 ^ 52 ≤ r ∨ t = -1074)
    (hk : (Format.binary64.targetExponent (totalExponent r t) - t).toNat = k) :
    Canonical (r / 2 ^ k) (t + k) ∧ ((r / 2 ^ k : Nat) : ℚ) * 2 ^ (t + k) = r * 2 ^ t := by
  rcases hle.lt_or_eq with hlt | rfl
  · have hcanonical : Canonical r t := ⟨hlt, hleast, hnormal⟩
    rw [hcanonical.targetExponent hpos, Int.sub_self] at hk
    subst hk
    simpa using hcanonical
  · rw [targetExponent_eq, totalExponent, Nat.log2_two_pow] at hk
    obtain rfl : k = 1 := by omega
    refine ⟨⟨by norm_num, by omega, .inl (by norm_num)⟩, ?_⟩
    rw [zpow_add₀ two_ne_zero]
    norm_num
    ring

/-- The last place is told by the whole part, unless this is zero; then it is the least one. -/
theorem lastPlace_of_bounds {m : Nat} {e : ℤ} {q : ℚ} (hq : 0 < q) (hle : (m : ℚ) ≤ q)
    (hlt : q < m + 1) (he : e ≤ Format.binary64.targetExponent (totalExponent m e)) :
    lastPlace (q * 2 ^ e) = Format.binary64.targetExponent (totalExponent m e) := by
  rcases Nat.eq_zero_or_pos m with rfl | hm
  · have hpos : (0 : ℚ) < q * 2 ^ e := mul_pos hq (two_zpow_pos e)
    have hlow : q * 2 ^ e < 2 ^ e := by
      rw [Nat.cast_zero, Rat.zero_add] at hlt
      exact mul_lt_of_lt_one_left (two_zpow_pos e) hlt
    have hlog : Int.log 2 (q * 2 ^ e) < e := (Int.lt_zpow_iff_log_lt one_lt_two hpos).1 hlow
    have hzero : Nat.log2 0 = 0 := rfl
    rw [targetExponent_eq, totalExponent, hzero] at he ⊢
    unfold lastPlace
    omega
  · rw [lastPlace, log_of_bounds hm hle hlt, targetExponent_eq, totalExponent]
    omega

theorem mantissa_ofMantissaAndAccuracy (m : Nat) (accuracy : Accuracy) :
    (ExtendedMantissa.ofMantissaAndAccuracy m accuracy).mantissa = m := by
  cases accuracy with
  | exact => rfl
  | inexact place => cases place <;> rfl

/-- Rounding a mantissa with its accuracy, where its last digit is at or behind the last place, gives
the nearest canonical parts of what both stand for. -/
theorem roundWithAccuracy_of_standsFor (s : Sign) {m : Nat} {e : ℤ} {accuracy : Accuracy} {q : ℚ}
    (hq : 0 < q) (h : StandsFor (ExtendedMantissa.ofMantissaAndAccuracy m accuracy) q)
    (he : e ≤ Format.binary64.targetExponent (totalExponent m e)) :
    (roundWithAccuracy .binary64 s m e accuracy = .zero s ∧ nearest (q * 2 ^ e) = 0) ∨
      ∃ m' e' hm', roundWithAccuracy .binary64 s m e accuracy = .finite s m' e' hm' ∧
        Canonical m' e' ∧ (m' : ℚ) * 2 ^ e' = nearest (q * 2 ^ e) := by
  obtain ⟨t, ht⟩ : ∃ t, Format.binary64.targetExponent (totalExponent m e) = t := ⟨_, rfl⟩
  obtain ⟨r, hr⟩ : ∃ r, places (q * 2 ^ e) = r := ⟨_, rfl⟩
  have hlast : lastPlace (q * 2 ^ e) = t := by
    obtain ⟨hle, hlt⟩ := h.bounds
    rw [mantissa_ofMantissaAndAccuracy] at hle hlt
    exact (lastPlace_of_bounds hq hle hlt he).trans ht
  have hleast : -1074 ≤ t := hlast ▸ le_max_right _ _
  have hnearest : nearest (q * 2 ^ e) = r * 2 ^ t := by rw [nearest, hr, hlast]
  rw [ht] at he
  have hrounded : (ExtendedMantissa.ofMantissaAndAccuracy m accuracy >>>
      (t - e).toNat).roundedMantissa = r := by
    have hquotient : q * 2 ^ e / 2 ^ t = q / 2 ^ (t - e).toNat := by
      have hsplit : t = (t - e).toNat + e := by omega
      rw [← zpow_natCast]
      conv_lhs => rw [hsplit, zpow_add₀ two_ne_zero]
      exact mul_div_mul_right _ _ (two_zpow_pos e).ne'
    rw [(h.shiftRight _).roundedMantissa, ← hr, places, hlast, hquotient]
  have hfirst : e + ((t - e).toNat : ℤ) = t := by omega
  have hpositive : (0 : ℚ) < q * 2 ^ e := mul_pos hq (two_zpow_pos e)
  have hnormal : 2 ^ 52 ≤ r ∨ t = -1074 := by
    rcases hleast.lt_or_eq with hlt | heq
    · exact .inl (hr ▸ le_places hpositive (hlast.symm ▸ hlt))
    · exact .inr heq.symm
  obtain ⟨k, hk⟩ : ∃ k, (Format.binary64.targetExponent (totalExponent r t) - t).toNat = k :=
    ⟨_, rfl⟩
  have hmantissa : (ExtendedMantissa.ofMantissaAndAccuracy r .exact >>> k).mantissa = r / 2 ^ k :=
    mantissa_shiftRight _ k
  simp only [roundWithAccuracy, shiftToTargetExponent, shiftToExponent, ht, hrounded, hfirst, hk,
    hmantissa]
  rcases Nat.eq_zero_or_pos r with hzero | hpos
  · refine .inl ⟨dif_pos ?_, ?_⟩
    · rw [hzero, Nat.zero_div]
    · rw [hnearest, hzero, Nat.cast_zero, zero_mul]
  · obtain ⟨hcanonical, hvalue⟩ := canonical_shift hpos (hr ▸ places_le _) hleast hnormal hk
    have hne : r / 2 ^ k ≠ 0 := by
      intro hno
      rw [hno, Nat.cast_zero, zero_mul] at hvalue
      exact (mul_pos (Nat.cast_pos.2 hpos) (two_zpow_pos t)).ne hvalue
    exact .inr ⟨r / 2 ^ k, t + k, Nat.pos_of_ne_zero hne, dif_neg hne, hcanonical,
      hvalue.trans hnearest.symm⟩

/-- Rounding a mantissa whose last digits are at or behind the last place gives the nearest canonical
parts. -/
theorem roundWithAccuracy_cases (s : Sign) {m : Nat} {e : ℤ} (hm : 0 < m)
    (he : e ≤ Format.binary64.targetExponent (totalExponent m e)) :
    (roundWithAccuracy .binary64 s m e .exact = .zero s ∧ nearest (m * 2 ^ e) = 0) ∨
      ∃ m' e' hm', roundWithAccuracy .binary64 s m e .exact = .finite s m' e' hm' ∧
        Canonical m' e' ∧ (m' : ℚ) * 2 ^ e' = nearest (m * 2 ^ e) :=
  roundWithAccuracy_of_standsFor s (Nat.cast_pos.2 hm) rfl he

/-- Rounding gives the nearest canonical parts. -/
theorem round_cases (s : Sign) {m : Nat} (e : ℤ) (hm : 0 < m) :
    (UnpackedFloat.round .binary64 s m e = .zero s ∧ nearest (m * 2 ^ e) = 0) ∨
      ∃ m' e' hm', UnpackedFloat.round .binary64 s m e = .finite s m' e' hm' ∧
        Canonical m' e' ∧ (m' : ℚ) * 2 ^ e' = nearest (m * 2 ^ e) := by
  obtain ⟨t, ht⟩ : ∃ t, Format.binary64.targetExponent (totalExponent m e) = t := ⟨_, rfl⟩
  obtain ⟨k, hk⟩ : ∃ k, (e - t).toNat = k := ⟨_, rfl⟩
  have hshifted : m <<< k = 2 ^ k * m := by rw [Nat.shiftLeft_eq, Nat.mul_comm]
  have htotal : totalExponent (2 ^ k * m) (e - k) = totalExponent m e := by
    rw [totalExponent, totalExponent, log2_two_pow_mul m k hm]
    omega
  have hvalue : ((2 ^ k * m : Nat) : ℚ) * 2 ^ (e - (k : ℤ)) = m * 2 ^ e := by
    have hsplit : e = k + (e - k) := by omega
    conv_rhs => rw [hsplit, zpow_add₀ two_ne_zero, zpow_natCast]
    push_cast
    ring
  have hcases := roundWithAccuracy_cases s (Nat.mul_pos (Nat.two_pow_pos k) hm)
    (show e - (k : ℤ) ≤ _ by rw [htotal, ht]; omega)
  rw [hvalue] at hcases
  simp only [UnpackedFloat.round, decreaseExponent, ht, hk, hshifted]
  exact hcases

end ImplicitCurves.Binary64

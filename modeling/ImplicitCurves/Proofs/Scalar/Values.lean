import ImplicitCurves.Proofs.Scalar.Rounding
import ImplicitCurves.Scalar

/-!
# The values of doubles

Doubles as rational numbers, where an infinity stands for the power of two that is too large.  The
order of doubles is that of their values, and the sum and the product of finite doubles are the exact
ones rounded, so the operations are monotone.
-/

namespace ImplicitCurves.Binary64

open Float.Model Float.Model.UnpackedFloat

/-- The least power of two that is too large for a double. -/
def limit : ℚ :=
  2 ^ (1024 : ℤ)

def signed : Sign → ℚ → ℚ
  | .positive, q => q
  | .negative, q => -q

/-- The value of the parts of a double. -/
def valueOfParts : UnpackedFloat → ℚ
  | .notANumber => 0
  | .infinity s => signed s limit
  | .zero _ => 0
  | .finite s m e _ => signed s (m * 2 ^ e)

/-- The value of a double. -/
def value (x : Float) : ℚ :=
  valueOfParts (parts x)

/-- What an exact result is rounded to. -/
def rounded (q : ℚ) : ℚ :=
  if 0 ≤ q then min (nearest q) limit else -min (nearest (-q)) limit

/-! ### Rounding of values -/

theorem limit_pos : 0 < limit :=
  two_zpow_pos 1024

theorem limit_eq : limit = 2 ^ 52 * 2 ^ (972 : ℤ) := by
  rw [limit, ← zpow_natCast, ← zpow_add₀ two_ne_zero]
  rfl

theorem nearest_zero : nearest 0 = 0 := by
  rw [nearest, places, zero_div]
  have hzero : halfEven 0 = 0 := halfEven_natCast 0
  rw [hzero, Nat.cast_zero, zero_mul]

theorem rounded_signed (s : Sign) {q : ℚ} (hq : 0 ≤ q) :
    rounded (signed s q) = signed s (min (nearest q) limit) := by
  cases s with
  | positive => exact if_pos hq
  | negative =>
    simp only [rounded, signed, neg_nonneg, neg_neg]
    split
    · next hle =>
      obtain rfl : q = 0 := le_antisymm hle hq
      rw [neg_zero, nearest_zero, min_eq_left limit_pos.le, neg_zero]
    · rfl

theorem rounded_nonneg {q : ℚ} (hq : 0 ≤ q) : 0 ≤ rounded q := by
  rw [rounded, if_pos hq]
  exact le_min (nearest_nonneg q) limit_pos.le

theorem rounded_of_neg {q : ℚ} (hq : q < 0) : rounded q = -rounded (-q) := by
  rw [rounded, if_neg (not_le.2 hq), rounded, if_pos (neg_nonneg.2 hq.le)]

theorem rounded_mono_of_nonneg {q r : ℚ} (hq : 0 ≤ q) (h : q ≤ r) : rounded q ≤ rounded r := by
  rw [rounded, if_pos hq, rounded, if_pos (hq.trans h)]
  rcases hq.eq_or_lt with rfl | hpos
  · rw [nearest_zero, min_eq_left limit_pos.le]
    exact le_min (nearest_nonneg r) limit_pos.le
  · exact min_le_min_right _ (nearest_mono hpos h)

/-- Rounding keeps the order. -/
theorem rounded_mono {q r : ℚ} (h : q ≤ r) : rounded q ≤ rounded r := by
  rcases le_or_gt 0 q with hq | hq
  · exact rounded_mono_of_nonneg hq h
  · rw [rounded_of_neg hq]
    rcases le_or_gt 0 r with hr | hr
    · have hleft := rounded_nonneg (neg_nonneg.2 hq.le)
      have hright := rounded_nonneg hr
      linarith
    · rw [rounded_of_neg hr]
      exact neg_le_neg (rounded_mono_of_nonneg (neg_nonneg.2 hr.le) (neg_le_neg h))

theorem rounded_le_limit (q : ℚ) : rounded q ≤ limit := by
  unfold rounded
  split
  · exact min_le_right _ _
  · have hnonneg := le_min (nearest_nonneg (-q)) limit_pos.le
    linarith [limit_pos]

theorem neg_limit_le_rounded (q : ℚ) : -limit ≤ rounded q := by
  rcases le_or_gt 0 q with hq | hq
  · linarith [rounded_nonneg hq, limit_pos]
  · rw [rounded_of_neg hq]
    exact neg_le_neg (rounded_le_limit _)

/-! ### Packing -/

theorem exponent_le {x : Float} {s : Sign} {m : Nat} {e : ℤ} {hm : 0 < m}
    (h : parts x = .finite s m e hm) : e ≤ 971 := by
  have hfield := (@unpackExponent .binary64 x.toModel.toBits.toBitVec).isLt
  have hfield : (@unpackExponent .binary64 x.toModel.toBits.toBitVec).toNat < 2 ^ 11 := hfield
  have hbias : (Format.binary64.exponentBias : Int) = 1023 := rfl
  have hplaces : (Format.binary64.mantissaBitsWithoutImplicit : Int) = 52 := rfl
  unfold parts Float.Model.unpack UnpackedFloat.unpack at h
  simp only at h
  split at h
  · split at h <;> cases h
  · next hnotLast =>
    have hne : (@unpackExponent .binary64 x.toModel.toBits.toBitVec).toNat ≠ 2047 := by
      intro hlast
      exact hnotLast (BitVec.eq_of_toNat_eq hlast)
    split at h
    · next hzero =>
      split at h
      · cases h
      · cases h
        have hexponent : (@unpackExponent .binary64 x.toModel.toBits.toBitVec).toNat = 0 := by
          rw [hzero]
          rfl
        omega
    · cases h
      omega

/-- The parts of what is packed. -/
theorem parts_ofParts (w : UnpackedFloat) :
    parts (ofParts w) = UnpackedFloat.unpack .binary64 (UnpackedFloat.pack .binary64 w) :=
  rfl

theorem parts_ofParts_infinity (s : Sign) : parts (ofParts (.infinity s)) = .infinity s := by
  cases s <;> rfl

theorem parts_ofParts_zero (s : Sign) : parts (ofParts (.zero s)) = .zero s := by
  cases s <;> rfl

/-- What is too large is packed as infinite. -/
theorem parts_ofParts_large (s : Sign) {m : Nat} {e : ℤ} (hm : 0 < m) (he : 971 < e) :
    parts (ofParts (.finite s m e hm)) = .infinity s := by
  have hbias : (Format.binary64.exponentBias : Int) = 1023 := rfl
  have hplaces : (Format.binary64.mantissaBitsWithoutImplicit : Int) = 52 := rfl
  have hpacked : UnpackedFloat.pack .binary64 (.finite s m e hm) =
      UnpackedFloat.pack .binary64 (.infinity s) := by
    refine if_pos ?_
    have hbits : 2 ^ Format.binary64.exponentBits = 2048 := rfl
    omega
  rw [parts_ofParts, hpacked]
  exact parts_ofParts_infinity s

/-- The leading bit of the mantissa is left out if there is an exponent. -/
theorem unpack_normal (s : Sign) {exponent : BitVec 11} {mantissa : BitVec 52} {m : Nat} {e : ℤ}
    (hm : 0 < m) (hfirst : 0 < exponent.toNat) (hlast : exponent.toNat < 2047)
    (hmantissa : 2 ^ 52 + mantissa.toNat = m) (he : (exponent.toNat : ℤ) - 1075 = e) :
    UnpackedFloat.unpack .binary64 (packComponents .binary64 s exponent mantissa) =
      .finite s m e hm := by
  have hbias : (Format.binary64.exponentBias : Int) +
      Format.binary64.mantissaBitsWithoutImplicit = 1075 := rfl
  have hnotFirst : exponent ≠ 0#_ := by
    rintro rfl
    exact absurd hfirst (Nat.lt_irrefl 0)
  have hnotLast : exponent ≠ -1#_ := by
    rintro rfl
    exact absurd hlast (Nat.lt_irrefl 2047)
  have hleading : (1#1 ++ mantissa).toNat = m := by
    rw [BitVec.toNat_append, ← Nat.shiftLeft_add_eq_or_of_lt mantissa.isLt]
    exact hmantissa
  unfold UnpackedFloat.unpack
  simp only [unpackExponent_packComponents, unpackMantissa_packComponents,
    unpackSign_packComponents, if_neg hnotLast, if_neg hnotFirst, hbias, he]
  congr

/-- The whole mantissa is there if there is no exponent. -/
theorem unpack_subnormal (s : Sign) {mantissa : BitVec 52} {m : Nat} (hm : 0 < m)
    (hmantissa : mantissa.toNat = m) :
    UnpackedFloat.unpack .binary64 (packComponents .binary64 s 0#11 mantissa) =
      .finite s m (-1074) hm := by
  have hlast : 0#11 ≠ -1#11 := by decide
  have hne : mantissa ≠ 0#_ := by
    rintro rfl
    exact absurd hmantissa (Nat.ne_of_lt hm)
  unfold UnpackedFloat.unpack
  simp only [unpackExponent_packComponents, unpackMantissa_packComponents,
    unpackSign_packComponents, if_neg hlast, dif_neg hne, if_true, hmantissa]
  congr

/-- What is canonical and not too large is packed as it is. -/
theorem parts_ofParts_finite (s : Sign) {m : Nat} {e : ℤ} (hm : 0 < m) (h : Canonical m e)
    (he : e ≤ 971) : parts (ofParts (.finite s m e hm)) = .finite s m e hm := by
  have hbias : (Format.binary64.exponentBias : Int) = 1023 := rfl
  have hplaces : (Format.binary64.mantissaBitsWithoutImplicit : Int) = 52 := rfl
  have hbits : 2 ^ Format.binary64.exponentBits = 2048 := rfl
  have hdigits : Format.binary64.mantissaBits = 53 := rfl
  have hlog : m.log2 < 53 := (Nat.log2_lt (Nat.ne_of_gt hm)).2 h.lt
  have hleast := h.least
  have hfits : ¬ 2 ^ Format.binary64.exponentBits ≤ (e + Format.binary64.exponentBias +
      Format.binary64.mantissaBitsWithoutImplicit).toNat + 1 := by omega
  rw [parts_ofParts]
  simp only [UnpackedFloat.pack, if_neg hfits]
  split
  · next hnormal =>
    have hlarge : 2 ^ 52 ≤ m := (Nat.le_log2 (Nat.ne_of_gt hm)).1 (by omega)
    have hexponent : (BitVec.ofNat 11 (e + Format.binary64.exponentBias +
        Format.binary64.mantissaBitsWithoutImplicit).toNat).toNat = (e + 1075).toNat := by
      rw [BitVec.toNat_ofNat]
      omega
    have hmantissa : 2 ^ 52 + (BitVec.ofNat 52 m).toNat = m := by
      have hlt := h.lt
      rw [BitVec.toNat_ofNat]
      omega
    exact @unpack_normal s (BitVec.ofNat 11 (e + Format.binary64.exponentBias +
      Format.binary64.mantissaBitsWithoutImplicit).toNat) (BitVec.ofNat 52 m) m e hm (by omega)
      (by omega) hmantissa (by omega)
  · next hsubnormal =>
    have hsmall : m < 2 ^ 52 := (Nat.log2_lt (Nat.ne_of_gt hm)).1 (by omega)
    obtain rfl : e = -1074 := h.normal.resolve_left (by omega)
    have hmantissa : (BitVec.ofNat 52 m).toNat = m := by
      rw [BitVec.toNat_ofNat]
      exact Nat.mod_eq_of_lt hsmall
    exact unpack_subnormal s hm hmantissa

/-! ### The order -/

/-- The double is not NaN. -/
def IsNumber (x : Float) : Prop :=
  parts x ≠ .notANumber

theorem abs_signed (s : Sign) (q : ℚ) : |signed s q| = |q| := by
  cases s with
  | positive => rfl
  | negative => exact abs_neg q

/-- Canonical parts stand for numbers in the order of exponent and mantissa. -/
theorem Canonical.lt_of_exponent_lt {m n : Nat} {d e : ℤ} (hm : Canonical m d) (hn : Canonical n e)
    (h : d < e) : (m : ℚ) * 2 ^ d < n * 2 ^ e := by
  have hnormal : 2 ^ 52 ≤ n := hn.normal.resolve_right (by have := hm.least; omega)
  have hbelow : (m : ℚ) < 2 ^ 53 := by exact_mod_cast hm.lt
  have habove : (2 : ℚ) ^ 52 ≤ n := by exact_mod_cast hnormal
  calc (m : ℚ) * 2 ^ d < 2 ^ 53 * 2 ^ d := mul_lt_mul_of_pos_right hbelow (two_zpow_pos d)
    _ = 2 ^ 52 * 2 ^ (d + 1) := by rw [zpow_add₀ two_ne_zero]; ring
    _ ≤ 2 ^ 52 * 2 ^ e := mul_le_mul_of_nonneg_left (two_zpow_le (by omega)) (by norm_num)
    _ ≤ n * 2 ^ e := mul_le_mul_of_nonneg_right habove (two_zpow_pos e).le

theorem compare_eq_of_canonical {m n : Nat} {d e : ℤ} (hm : Canonical m d) (hn : Canonical n e) :
    (compare d e).then (compare m n) = compare ((m : ℚ) * 2 ^ d) (n * 2 ^ e) := by
  rcases lt_trichotomy d e with h | rfl | h
  · rw [compare_lt_iff_lt.2 h, compare_lt_iff_lt.2 (hm.lt_of_exponent_lt hn h)]
    rfl
  · rw [compare_eq_iff_eq.2 rfl]
    rcases lt_trichotomy m n with h | rfl | h
    · rw [compare_lt_iff_lt.2 h, compare_lt_iff_lt.2
        (mul_lt_mul_of_pos_right (Nat.cast_lt.2 h) (two_zpow_pos d))]
      rfl
    · rw [compare_eq_iff_eq.2 rfl, compare_eq_iff_eq.2 rfl]
      rfl
    · rw [compare_gt_iff_gt.2 h, compare_gt_iff_gt.2
        (mul_lt_mul_of_pos_right (Nat.cast_lt.2 h) (two_zpow_pos d))]
      rfl
  · rw [compare_gt_iff_gt.2 h, compare_gt_iff_gt.2 (hn.lt_of_exponent_lt hm h)]
    rfl

/-- Finite parts stand for numbers that are not zero and not too large. -/
theorem finite_bounds {x : Float} {s : Sign} {m : Nat} {e : ℤ} {hm : 0 < m}
    (h : parts x = .finite s m e hm) : (0 : ℚ) < m * 2 ^ e ∧ (m : ℚ) * 2 ^ e < limit := by
  refine ⟨mul_pos (Nat.cast_pos.2 hm) (two_zpow_pos e), ?_⟩
  have hbelow : (m : ℚ) < 2 ^ 53 := by exact_mod_cast (canonical_parts h).lt
  calc (m : ℚ) * 2 ^ e < 2 ^ 53 * 2 ^ e := mul_lt_mul_of_pos_right hbelow (two_zpow_pos e)
    _ ≤ 2 ^ 53 * 2 ^ (971 : ℤ) :=
      mul_le_mul_of_nonneg_left (two_zpow_le (exponent_le h)) (by norm_num)
    _ = 2 ^ 52 * 2 ^ (972 : ℤ) := by
      have hnext : (2 : ℚ) ^ (972 : ℤ) = 2 ^ (971 : ℤ) * 2 := zpow_add_one₀ two_ne_zero 971
      rw [hnext]
      ring
    _ = limit := limit_eq.symm

theorem swap_compare (q r : ℚ) : (compare q r).swap = compare (-q) (-r) := by
  rcases lt_trichotomy q r with h | rfl | h
  · rw [compare_lt_iff_lt.2 h, compare_gt_iff_gt.2 (neg_lt_neg h)]
    rfl
  · rw [compare_eq_iff_eq.2 rfl, compare_eq_iff_eq.2 rfl]
    rfl
  · rw [compare_gt_iff_gt.2 h, compare_lt_iff_lt.2 (neg_lt_neg h)]
    rfl

/-- Doubles are compared by their values. -/
theorem compare_parts {x y : Float} (hx : IsNumber x) (hy : IsNumber y) :
    UnpackedFloat.compare (parts x) (parts y) = some (compare (value x) (value y)) := by
  have hlt : ∀ {q r : ℚ}, q < r → some .lt = some (compare q r) := fun h =>
    congrArg some (compare_lt_iff_lt.2 h).symm
  have hgt : ∀ {q r : ℚ}, r < q → some .gt = some (compare q r) := fun h =>
    congrArg some (compare_gt_iff_gt.2 h).symm
  have heq : ∀ {q : ℚ}, some .eq = some (compare q q) := congrArg some (compare_eq_iff_eq.2 rfl).symm
  unfold IsNumber at hx hy
  unfold value
  have hlimit := limit_pos
  cases hpx : parts x with
  | notANumber => exact absurd hpx hx
  | infinity s =>
    cases hpy : parts y with
    | notANumber => exact absurd hpy hy
    | infinity t =>
      cases s <;> cases t <;> simp only [valueOfParts, signed]
      · exact heq
      · exact hlt (by linarith)
      · exact hgt (by linarith)
      · exact heq
    | zero t =>
      cases s <;> simp only [valueOfParts, signed]
      · exact hlt (by linarith)
      · exact hgt (by linarith)
    | finite t n d hn =>
      obtain ⟨hpos, hsmall⟩ := finite_bounds hpy
      cases s <;> cases t <;> simp only [valueOfParts, signed] <;>
        first | exact hlt (by linarith) | exact hgt (by linarith)
  | zero s =>
    cases hpy : parts y with
    | notANumber => exact absurd hpy hy
    | infinity t =>
      cases t <;> simp only [valueOfParts, signed]
      · exact hgt (by linarith)
      · exact hlt (by linarith)
    | zero t => exact heq
    | finite t n d hn =>
      obtain ⟨hpos, hsmall⟩ := finite_bounds hpy
      cases t <;> simp only [valueOfParts, signed]
      · exact hgt (by linarith)
      · exact hlt (by linarith)
  | finite s m e hm =>
    obtain ⟨hpos, hsmall⟩ := finite_bounds hpx
    cases hpy : parts y with
    | notANumber => exact absurd hpy hy
    | infinity t =>
      cases s <;> cases t <;> simp only [valueOfParts, signed] <;>
        first | exact hlt (by linarith) | exact hgt (by linarith)
    | zero t =>
      cases s <;> simp only [valueOfParts, signed]
      · exact hlt (by linarith)
      · exact hgt (by linarith)
    | finite t n d hn =>
      obtain ⟨hpos', hsmall'⟩ := finite_bounds hpy
      have hcompare := compare_eq_of_canonical (canonical_parts hpx) (canonical_parts hpy)
      cases s <;> cases t <;> simp only [valueOfParts, signed]
      · -- between negative numbers the order is the other way round
        simp only [UnpackedFloat.compare, hcompare, swap_compare]
      · exact hlt (by linarith)
      · exact hgt (by linarith)
      · simp only [UnpackedFloat.compare, hcompare]

theorem lt_iff {x y : Float} (hx : IsNumber x) (hy : IsNumber y) : x < y ↔ value x < value y := by
  have hcompare : x < y ↔ (UnpackedFloat.compare (parts x) (parts y) == some .lt) = true :=
    decide_eq_true_iff
  rw [hcompare, compare_parts hx hy, beq_iff_eq, Option.some.injEq, compare_lt_iff_lt]

/-! ### Operations -/

theorem IsNumber.of_isFinite {x : Float} (h : x.isFinite = true) : IsNumber x := by
  intro hno
  have hfinite : (parts x).isFinite = true := h
  rw [hno] at hfinite
  cases hfinite

/-- Packing rounded parts gives a number, whose value is the rounded one. -/
theorem value_ofParts_round {w : UnpackedFloat} {s : Sign} {q : ℚ} (hq : 0 ≤ q)
    (h : (w = .zero s ∧ nearest q = 0) ∨
      ∃ m e hm, w = .finite s m e hm ∧ Canonical m e ∧ (m : ℚ) * 2 ^ e = nearest q) :
    IsNumber (ofParts w) ∧ value (ofParts w) = rounded (signed s q) := by
  rw [rounded_signed s hq]
  rcases h with ⟨rfl, hzero⟩ | ⟨m, e, hm, rfl, hcanonical, hvalue⟩
  · rw [IsNumber, value, parts_ofParts_zero, hzero, min_eq_left limit_pos.le]
    refine ⟨by simp, ?_⟩
    cases s <;> simp [valueOfParts, signed]
  · rcases le_or_gt e 971 with he | he
    · have hparts := parts_ofParts_finite s hm hcanonical he
      have hsmall := (finite_bounds hparts).2
      rw [IsNumber, value, hparts, ← hvalue, min_eq_left hsmall.le]
      exact ⟨by simp, rfl⟩
    · have hparts := parts_ofParts_large s hm he
      have hlarge : limit ≤ (m : ℚ) * 2 ^ e := by
        have hnormal : 2 ^ 52 ≤ m := hcanonical.normal.resolve_right (by omega)
        have habove : (2 : ℚ) ^ 52 ≤ m := by exact_mod_cast hnormal
        calc limit = 2 ^ 52 * 2 ^ (972 : ℤ) := limit_eq
          _ ≤ 2 ^ 52 * 2 ^ e := mul_le_mul_of_nonneg_left (two_zpow_le (by omega)) (by norm_num)
          _ ≤ m * 2 ^ e := mul_le_mul_of_nonneg_right habove (two_zpow_pos e).le
      rw [IsNumber, value, hparts, ← hvalue, min_eq_right hlarge]
      exact ⟨by simp, rfl⟩

theorem rounded_zero : rounded 0 = 0 := by
  rw [rounded, if_pos le_rfl, nearest_zero, min_eq_left limit_pos.le]

theorem nearest_limit : nearest limit = limit := by
  have hcanonical : Canonical (2 ^ 52) 972 := ⟨by norm_num, by norm_num, .inl (Nat.le_refl _)⟩
  have hlimit : limit = ((2 ^ 52 : Nat) : ℚ) * 2 ^ (972 : ℤ) := by
    rw [limit_eq, Nat.cast_pow, Nat.cast_ofNat]
  rw [hlimit]
  exact nearest_of_canonical (by norm_num) hcanonical

/-- Rounding leaves the values of doubles as they are. -/
theorem rounded_value (x : Float) : rounded (value x) = value x := by
  unfold value
  cases hx : parts x with
  | notANumber => exact rounded_zero
  | infinity s => rw [valueOfParts, rounded_signed s limit_pos.le, nearest_limit, min_self]
  | zero s => exact rounded_zero
  | finite s m e hm =>
    obtain ⟨hpos, hsmall⟩ := finite_bounds hx
    rw [valueOfParts, rounded_signed s hpos.le, nearest_of_canonical hm (canonical_parts hx),
      min_eq_left hsmall.le]

theorem value_ofParts_zero (s : Sign) :
    IsNumber (ofParts (.zero s)) ∧ value (ofParts (.zero s)) = rounded 0 := by
  rw [IsNumber, value, parts_ofParts_zero, rounded_zero]
  exact ⟨by simp, rfl⟩

/-- A signed mantissa is rounded as the number that it stands for. -/
theorem value_normalize (m e : ℤ) :
    IsNumber (ofParts (UnpackedFloat.normalize .binary64 m e .positive)) ∧
      value (ofParts (UnpackedFloat.normalize .binary64 m e .positive)) = rounded (m * 2 ^ e) := by
  have hround : ∀ s {n : Nat}, 0 < n → signed s (n * 2 ^ e) = m * 2 ^ e →
      IsNumber (ofParts (UnpackedFloat.round .binary64 s n e)) ∧
        value (ofParts (UnpackedFloat.round .binary64 s n e)) = rounded (m * 2 ^ e) := by
    intro s n hn hvalue
    rw [← hvalue]
    exact value_ofParts_round (mul_nonneg (Nat.cast_nonneg n) (two_zpow_pos e).le)
      (round_cases s e hn)
  unfold UnpackedFloat.normalize
  rcases lt_trichotomy m 0 with hneg | rfl | hpos
  · rw [compare_lt_iff_lt.2 hneg]
    refine hround .negative (by omega) ?_
    have hcast : (((-m).toNat : ℤ) : ℚ) = ((-m : ℤ) : ℚ) := by
      rw [Int.toNat_of_nonneg (by omega)]
    push_cast at hcast
    rw [signed, hcast]
    ring
  · rw [compare_eq_iff_eq.2 rfl, Int.cast_zero, zero_mul]
    exact value_ofParts_zero .positive
  · rw [compare_gt_iff_gt.2 hpos]
    refine hround .positive (by omega) ?_
    have hcast : ((m.toNat : ℤ) : ℚ) = (m : ℚ) := by
      rw [Int.toNat_of_nonneg hpos.le]
    push_cast at hcast
    rw [signed, hcast]

theorem finite_cases {x : Float} (h : x.isFinite = true) :
    (∃ s, parts x = .zero s) ∨ ∃ s m e hm, parts x = .finite s m e hm := by
  have hfinite : (parts x).isFinite = true := h
  cases hx : parts x with
  | zero s => exact .inl ⟨s, rfl⟩
  | finite s m e hm => exact .inr ⟨s, m, e, hm, rfl⟩
  | notANumber | infinity s =>
    rw [hx] at hfinite
    cases hfinite

/-- The digits of a product of canonical parts reach up to its last place. -/
theorem exponent_mul_le {m n : Nat} {d e : ℤ} (hm : 0 < m) (hn : 0 < n) (hmd : Canonical m d)
    (hne : Canonical n e) :
    d + e ≤ Format.binary64.targetExponent (totalExponent (m * n) (d + e)) := by
  have hlog : 2 ^ 52 ≤ m ∨ 2 ^ 52 ≤ n → 52 ≤ (m * n).log2 := by
    intro h
    refine (Nat.le_log2 (Nat.mul_ne_zero (Nat.ne_of_gt hm) (Nat.ne_of_gt hn))).2 ?_
    rcases h with h | h
    · exact h.trans (Nat.le_mul_of_pos_right m hn)
    · exact h.trans (Nat.le_mul_of_pos_left n hm)
  rw [targetExponent_eq, totalExponent]
  rcases hmd.normal with h | h
  · have := hlog (.inl h)
    omega
  · rcases hne.normal with h' | h'
    · have := hlog (.inr h')
      omega
    · omega

theorem signed_mul (s t : Sign) (q r : ℚ) : signed (s * t) (q * r) = signed s q * signed t r := by
  cases s <;> cases t
  · exact (neg_mul_neg q r).symm
  · exact neg_mul_eq_neg_mul q r
  · exact neg_mul_eq_mul_neg q r
  · rfl

/-- The product of finite doubles is the exact product rounded. -/
theorem value_mul {x y : Float} (hx : x.isFinite = true) (hy : y.isFinite = true) :
    IsNumber (x * y) ∧ value (x * y) = rounded (value x * value y) := by
  have hparts : x * y = ofParts (UnpackedFloat.mul .binary64 (parts x) (parts y)) := rfl
  rw [hparts]
  rcases finite_cases hx with ⟨s, hx⟩ | ⟨s, m, d, hm, hx⟩
  · have hzero : value x * value y = 0 := by rw [value, hx, valueOfParts, zero_mul]
    rw [hzero, hx]
    rcases finite_cases hy with ⟨t, hy⟩ | ⟨t, n, e, hn, hy⟩
    · rw [hy]
      exact value_ofParts_zero _
    · rw [hy]
      exact value_ofParts_zero _
  · rcases finite_cases hy with ⟨t, hy⟩ | ⟨t, n, e, hn, hy⟩
    · have hzero : value x * value y = 0 := by rw [value, value, hy, valueOfParts, mul_zero]
      rw [hzero, hx, hy]
      exact value_ofParts_zero _
    · have hvalue : value x * value y = signed (s * t) ((m * n : Nat) * 2 ^ (d + e)) := by
        rw [value, value, hx, hy, valueOfParts, valueOfParts, ← signed_mul, zpow_add₀ two_ne_zero]
        push_cast
        ring_nf
      rw [hvalue, hx, hy]
      exact value_ofParts_round (mul_nonneg (Nat.cast_nonneg _) (two_zpow_pos _).le)
        (roundWithAccuracy_cases _ (Nat.mul_pos hm hn)
          (exponent_mul_le hm hn (canonical_parts hx) (canonical_parts hy)))

theorem signed_apply (s : Sign) (n : Nat) : ((s.apply n : ℤ) : ℚ) = signed s n := by
  cases s with
  | positive => rfl
  | negative =>
    change ((-(n : ℤ) : ℤ) : ℚ) = -n
    push_cast
    rfl

/-- A mantissa that is written with a smaller exponent stands for the same number. -/
theorem value_decreaseExponent (s : Sign) (m : Nat) {e t : ℤ} (h : t ≤ e) :
    ((s.apply (decreaseExponent m e t).1 : ℤ) : ℚ) * 2 ^ t = signed s (m * 2 ^ e) := by
  obtain ⟨k, rfl⟩ : ∃ k : Nat, e = t + k := ⟨(e - t).toNat, by omega⟩
  have hshifted : (decreaseExponent m (t + k) t).1 = m * 2 ^ k := by
    have hamount : (t + k - t).toNat = k := by omega
    rw [decreaseExponent, hamount, Nat.shiftLeft_eq]
  rw [hshifted, signed_apply, zpow_add₀ two_ne_zero, zpow_natCast]
  cases s <;> simp only [signed] <;> push_cast <;> ring

/-- The sum of finite doubles is the exact sum rounded. -/
theorem value_add {x y : Float} (hx : x.isFinite = true) (hy : y.isFinite = true) :
    IsNumber (x + y) ∧ value (x + y) = rounded (value x + value y) := by
  have hparts : x + y = ofParts (UnpackedFloat.add .binary64 (parts x) (parts y)) := rfl
  have hnumber := IsNumber.of_isFinite hx
  have hnumber' := IsNumber.of_isFinite hy
  rcases finite_cases hx with ⟨s, hx⟩ | ⟨s, m, d, hm, hx⟩
  · rcases finite_cases hy with ⟨t, hy⟩ | ⟨t, n, e, hn, hy⟩
    · have hzero : value x + value y = 0 := by
        rw [value, value, hx, hy, valueOfParts, valueOfParts, add_zero]
      rw [hparts, hx, hy, hzero]
      cases s <;> cases t <;> exact value_ofParts_zero _
    · have hadd : UnpackedFloat.add .binary64 (.zero s) (.finite t n e hn) = .finite t n e hn := rfl
      have hsum : x + y = y := by
        rw [hparts, hx, hy, hadd, ← hy, ofParts_parts]
      have hzero : value x = 0 := by rw [value, hx, valueOfParts]
      rw [hsum, hzero, Rat.zero_add, rounded_value]
      exact ⟨hnumber', rfl⟩
  · rcases finite_cases hy with ⟨t, hy⟩ | ⟨t, n, e, hn, hy⟩
    · have hadd : UnpackedFloat.add .binary64 (.finite s m d hm) (.zero t) = .finite s m d hm := rfl
      have hsum : x + y = x := by
        rw [hparts, hx, hy, hadd, ← hx, ofParts_parts]
      have hzero : value y = 0 := by rw [value, hy, valueOfParts]
      rw [hsum, hzero, add_zero, rounded_value]
      exact ⟨hnumber, rfl⟩
    · have hvalue : value x + value y = ((s.apply (decreaseExponent m d (min d e)).1 +
          t.apply (decreaseExponent n e (min d e)).1 : ℤ) : ℚ) * 2 ^ min d e := by
        rw [Int.cast_add, add_mul, value_decreaseExponent s m (min_le_left d e),
          value_decreaseExponent t n (min_le_right d e), value, value, hx, hy]
        rfl
      rw [hvalue, hparts, hx, hy]
      exact value_normalize _ _

theorem value_bounds (x : Float) : -limit ≤ value x ∧ value x ≤ limit := by
  rw [← rounded_value x]
  exact ⟨neg_limit_le_rounded _, rounded_le_limit _⟩

/-- The finite doubles are the numbers that are not too large. -/
theorem isFinite_iff {x : Float} : x.isFinite = true ↔ IsNumber x ∧ |value x| < limit := by
  have hfinite : x.isFinite = true ↔ (parts x).isFinite = true := Iff.rfl
  rw [hfinite, IsNumber, value]
  cases hx : parts x with
  | notANumber => simp [UnpackedFloat.isFinite]
  | infinity s => simp [UnpackedFloat.isFinite, valueOfParts, abs_signed, abs_of_pos limit_pos]
  | zero s => simp [UnpackedFloat.isFinite, valueOfParts, limit_pos]
  | finite s m e hm =>
    obtain ⟨hpos, hsmall⟩ := finite_bounds hx
    simp [UnpackedFloat.isFinite, valueOfParts, abs_signed, abs_of_pos hpos, hsmall]

/-- The sum of a finite and an infinite double is the infinite one. -/
theorem add_of_not_isFinite {x y : Float} (hx : x.isFinite = true) (hy : IsNumber y)
    (hinfinite : y.isFinite = false) : x + y = y := by
  have hparts : x + y = ofParts (UnpackedFloat.add .binary64 (parts x) (parts y)) := rfl
  have hinfinite : (parts y).isFinite = false := hinfinite
  have hsum : UnpackedFloat.add .binary64 (parts x) (parts y) = parts y := by
    cases hpy : parts y with
    | notANumber => exact absurd hpy hy
    | infinity s =>
      rcases finite_cases hx with ⟨t, hpx⟩ | ⟨t, m, e, hm, hpx⟩ <;> rw [hpx] <;> rfl
    | zero s | finite s m e hm =>
      rw [hpy] at hinfinite
      cases hinfinite
  rw [hparts, hsum, ofParts_parts]

/-- An infinite double has the greatest or the least value. -/
theorem value_of_not_isFinite {x : Float} (hx : IsNumber x) (hinfinite : x.isFinite = false) :
    value x = limit ∨ value x = -limit := by
  have hlarge : ¬ |value x| < limit := by
    intro hsmall
    rw [isFinite_iff.2 ⟨hx, hsmall⟩] at hinfinite
    cases hinfinite
  obtain ⟨hlow, hhigh⟩ := value_bounds x
  rw [abs_lt, not_and_or, not_lt, not_lt] at hlarge
  rcases hlarge with h | h
  · exact .inr (le_antisymm h hlow)
  · exact .inl (le_antisymm hhigh h)

theorem isNumber_add {x y : Float} (hx : x.isFinite = true) (hy : IsNumber y) : IsNumber (x + y) := by
  cases hfinite : y.isFinite with
  | true => exact (value_add hx hfinite).1
  | false =>
    rw [add_of_not_isFinite hx hy hfinite]
    exact hy

/-- Adding to a finite double keeps the order. -/
theorem value_add_mono {x y z : Float} (hx : x.isFinite = true) (hy : IsNumber y) (hz : IsNumber z)
    (h : value y ≤ value z) : value (x + y) ≤ value (x + z) := by
  have hlow := (value_bounds (x + z)).1
  have hhigh := (value_bounds (x + y)).2
  cases hfinite : y.isFinite with
  | true =>
    cases hfinite' : z.isFinite with
    | true =>
      rw [(value_add hx hfinite).2, (value_add hx hfinite').2]
      exact rounded_mono (by linarith)
    | false =>
      rw [add_of_not_isFinite hx hz hfinite']
      rcases value_of_not_isFinite hz hfinite' with hvalue | hvalue
      · exact hvalue ▸ hhigh
      · have hsmall := (abs_lt.1 (isFinite_iff.1 hfinite).2).1
        linarith
  | false =>
    rw [add_of_not_isFinite hx hy hfinite]
    rcases value_of_not_isFinite hy hfinite with hvalue | hvalue
    · have hlarge : z.isFinite = false := by
        refine Bool.eq_false_iff.2 fun hno => ?_
        have hsmall := (abs_lt.1 (isFinite_iff.1 hno).2).2
        linarith
      rw [add_of_not_isFinite hx hz hlarge]
      exact h
    · exact hvalue ▸ hlow

/-- Multiplying by a finite double that is not negative keeps the order. -/
theorem value_mul_mono {x y z : Float} (hx : x.isFinite = true) (hy : y.isFinite = true)
    (hz : z.isFinite = true) (hnonneg : 0 ≤ value z) (h : value x ≤ value y) :
    value (x * z) ≤ value (y * z) := by
  rw [(value_mul hx hz).2, (value_mul hy hz).2]
  exact rounded_mono (mul_le_mul_of_nonneg_right h hnonneg)

/-- Counts are converted by rounding. -/
theorem value_ofCount {n : Nat} (hn : n < countLimit) :
    IsNumber (OrderedScalar.ofCount n) ∧ value (OrderedScalar.ofCount n) = rounded n := by
  have hcount : (OrderedScalar.ofCount n : Float) =
      ofParts (UnpackedFloat.normalize .binary64 ((UInt64.ofNat n).toNat : ℤ) 0 .positive) := rfl
  have hsize : (UInt64.ofNat n).toNat = n := UInt64.toNat_ofNat_of_lt' hn
  rw [hcount, hsize]
  simpa using value_normalize n 0

end ImplicitCurves.Binary64

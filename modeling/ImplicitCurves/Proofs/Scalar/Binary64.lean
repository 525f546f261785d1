import ImplicitCurves.Proofs.Notation.Negation

/-!
# Laws of doubles

The laws of arithmetic that hold of all doubles bit for bit, NaN, the infinities and both zeros
included: signs can be moved out of products, a difference is a sum with the opposite, one is neutral
for products, and negative zero, but not zero, is neutral for sums.  An operation takes doubles to
their parts, works on these, rounds and packs the result; most laws hold of the parts before any
rounding.
-/

namespace ImplicitCurves.Binary64

open Float.Model Float.Model.UnpackedFloat
open Decimal (Bits)

/-- The parts of a double. -/
abbrev parts (x : Float) : UnpackedFloat :=
  x.toModel.unpack

/-- The double with the given parts, which are packed as they are. -/
abbrev ofParts (w : UnpackedFloat) : Float :=
  .ofModel (.pack w)

/-! ### Packing -/

theorem unpackSign_packComponents (s : Sign) (exponent : BitVec 11) (mantissa : BitVec 52) :
    Sign.ofBitVec (@unpackSign .binary64 (packComponents .binary64 s exponent mantissa)) = s := by
  have hexponent := exponent.isLt
  have hmantissa := mantissa.isLt
  have hsign : @unpackSign .binary64 (packComponents .binary64 s exponent mantissa) = s.toBitVec := by
    refine BitVec.eq_of_toNat_eq ?_
    rw [Decimal.toNat_unpackSign, Decimal.toNat_packComponents]
    omega
  rw [hsign]
  cases s <;> rfl

/-- A double is packed from its fields. -/
theorem packComponents_unpack (b : Bits) :
    packComponents .binary64 (Sign.ofBitVec (unpackSign b)) (unpackExponent b) (unpackMantissa b) =
      b := by
  have hlt : b.toNat < 2 ^ 64 := b.isLt
  have hsign : (Sign.ofBitVec (unpackSign b)).toBitVec.toNat = b.toNat / 2 ^ 63 := by
    have hopposite := Decimal.toNat_neg_ofBitVec (@unpackSign .binary64 b)
    have hbit := (@unpackSign .binary64 b).isLt
    rw [← Decimal.toNat_unpackSign]
    cases hs : Sign.ofBitVec (@unpackSign .binary64 b) with
    | negative =>
      rw [hs] at hopposite
      have hzero : (-Sign.negative).toBitVec.toNat = 0 := rfl
      have hone : Sign.negative.toBitVec.toNat = 1 := rfl
      omega
    | positive =>
      rw [hs] at hopposite
      have hone : (-Sign.positive).toBitVec.toNat = 1 := rfl
      have hzero : Sign.positive.toBitVec.toNat = 0 := rfl
      omega
  refine BitVec.eq_of_toNat_eq ?_
  rw [Decimal.toNat_packComponents, hsign, Decimal.toNat_unpackExponent,
    Decimal.toNat_unpackMantissa]
  omega

theorem neg_neg_sign (s : Sign) : - -s = s := by
  cases s <;> rfl

theorem neg_neg_parts (w : UnpackedFloat) : w.neg.neg = w := by
  cases w with
  | notANumber => rfl
  | infinity s | zero s | finite s => cases s <;> rfl

theorem isNaN_neg_parts (w : UnpackedFloat) : w.neg.isNaN = w.isNaN := by
  cases w <;> rfl

/-- The sign field decides about the sign only. -/
theorem unpack_packComponents_neg (s : Sign) (exponent : BitVec 11) (mantissa : BitVec 52) :
    UnpackedFloat.unpack .binary64 (packComponents .binary64 (-s) exponent mantissa) =
      (UnpackedFloat.unpack .binary64 (packComponents .binary64 s exponent mantissa)).neg := by
  unfold UnpackedFloat.unpack
  simp only [unpackExponent_packComponents, unpackMantissa_packComponents,
    unpackSign_packComponents]
  split
  · split <;> rfl
  · split
    · split <;> rfl
    · rfl

/-- Packing opposite parts flips the sign of what is packed, whether or not it is rounded. -/
theorem unpack_pack_neg (w : UnpackedFloat) :
    UnpackedFloat.unpack .binary64 (UnpackedFloat.pack .binary64 w.neg) =
      (UnpackedFloat.unpack .binary64 (UnpackedFloat.pack .binary64 w)).neg := by
  cases w with
  | notANumber => rfl
  | infinity s => exact unpack_packComponents_neg s _ _
  | zero s => exact unpack_packComponents_neg s _ _
  | finite s m e hm =>
    simp only [UnpackedFloat.neg, UnpackedFloat.pack]
    split
    · exact unpack_packComponents_neg s _ _
    · split <;> exact unpack_packComponents_neg s _ _

/-- Packing the parts of a number gives the number back, since negating twice does. -/
theorem pack_unpack_of_number {b : Bits}
    (hnumber : (UnpackedFloat.unpack .binary64 b).isNaN = false) :
    UnpackedFloat.pack .binary64 (UnpackedFloat.unpack .binary64 b) = b := by
  have hopposite : UnpackedFloat.unpack .binary64 (packComponents .binary64
      (-Sign.ofBitVec (unpackSign b)) (unpackExponent b) (unpackMantissa b)) =
        (UnpackedFloat.unpack .binary64 b).neg := by
    rw [unpack_packComponents_neg, packComponents_unpack]
  have htwice := Decimal.pack_neg_unpack (packComponents .binary64
    (-Sign.ofBitVec (unpackSign b)) (unpackExponent b) (unpackMantissa b))
    (by rw [hopposite, isNaN_neg_parts, hnumber])
  rw [hopposite, neg_neg_parts, unpackSign_packComponents, unpackExponent_packComponents,
    unpackMantissa_packComponents, neg_neg_sign, packComponents_unpack] at htwice
  exact htwice

/-- Packing the parts of a double gives the double back. -/
theorem pack_unpack {b : Bits} (hvalid : Format.binary64.Valid b) :
    UnpackedFloat.pack .binary64 (UnpackedFloat.unpack .binary64 b) = b := by
  cases hnan : (UnpackedFloat.unpack .binary64 b).isNaN with
  | true =>
    have hparts : UnpackedFloat.unpack .binary64 b = .notANumber := by
      cases h : UnpackedFloat.unpack .binary64 b with
      | notANumber => rfl
      | infinity _ | zero _ | finite _ _ _ _ => rw [h] at hnan; cases hnan
    have hbits := Decimal.test_unpack (p := UnpackedFloat.isNaN) (fun _ => rfl) (fun _ _ _ _ => rfl)
      (fun _ => rfl) b
    rw [hnan] at hbits
    obtain ⟨hexponent, hquiet⟩ := Bool.and_eq_true_iff.1 hbits.symm
    have hmantissa : @unpackMantissa .binary64 b ≠ 0#_ := by
      intro heq
      rw [if_pos heq] at hquiet
      cases hquiet
    rw [hparts]
    exact (hvalid.eq_packedNaN (beq_iff_eq.1 hexponent) hmantissa).symm
  | false => exact pack_unpack_of_number hnan

theorem ofParts_parts (x : Float) : ofParts (parts x) = x := by
  obtain ⟨⟨bits, hvalid⟩⟩ := x
  have hbits : UInt64.ofBitVec (UnpackedFloat.pack .binary64
      (UnpackedFloat.unpack .binary64 bits.toBitVec)) = bits := by
    rw [pack_unpack hvalid]
  simp only [ofParts, Float.Model.pack, parts, Float.Model.unpack, hbits]

theorem eq_of_parts_eq {x y : Float} (h : parts x = parts y) : x = y := by
  rw [← ofParts_parts x, h, ofParts_parts]

theorem ofParts_neg (w : UnpackedFloat) : ofParts w.neg = -ofParts w := by
  have hneg : -ofParts w = ofParts (parts (ofParts w)).neg := rfl
  have hparts : (parts (ofParts w)).neg = parts (ofParts w.neg) := (unpack_pack_neg w).symm
  rw [hneg, hparts, ofParts_parts]

theorem parts_neg (x : Float) : parts (-x) = (parts x).neg := by
  have hneg : -x = ofParts (parts x).neg := rfl
  have hunpack : parts (ofParts (parts x).neg) = (parts (ofParts (parts x))).neg :=
    unpack_pack_neg (parts x)
  rw [hneg, hunpack, ofParts_parts]

/-! ### Signs -/

/-- Rounding does not look at the sign. -/
theorem roundWithAccuracy_neg (s : Sign) (m : Nat) (e : Int) (accuracy : Accuracy) :
    roundWithAccuracy .binary64 (-s) m e accuracy =
      (roundWithAccuracy .binary64 s m e accuracy).neg := by
  simp only [roundWithAccuracy]
  split <;> rfl

theorem neg_mul_sign (s t : Sign) : -s * t = -(s * t) := by
  cases s <;> cases t <;> rfl

/-- A sign can be moved out of a product. -/
theorem neg_mul (x y : Float) : -x * y = -(x * y) := by
  have hmul : ∀ a b : UnpackedFloat,
      UnpackedFloat.mul .binary64 a.neg b = (UnpackedFloat.mul .binary64 a b).neg := by
    intro a b
    cases a <;> cases b <;>
      simp only [UnpackedFloat.mul, UnpackedFloat.neg, neg_mul_sign, roundWithAccuracy_neg]
  have hparts : -x * y = ofParts (UnpackedFloat.mul .binary64 (parts (-x)) (parts y)) := rfl
  rw [hparts, parts_neg, hmul, ofParts_neg]
  rfl

theorem neg_apply_sign (s : Sign) (n : Int) : (-s).apply n = -s.apply n := by
  cases s with
  | negative => exact (Int.neg_neg n).symm
  | positive => rfl

/-- A difference is a sum with the opposite. -/
theorem sub_eq_add_neg (x y : Float) : x - y = x + -y := by
  have hsub : ∀ a b : UnpackedFloat,
      UnpackedFloat.sub .binary64 a b = UnpackedFloat.add .binary64 a b.neg := by
    intro a b
    cases a <;> cases b <;>
      simp only [UnpackedFloat.sub, UnpackedFloat.add, UnpackedFloat.neg, neg_apply_sign,
        Int.sub_eq_add_neg]
  have hparts : x + -y = ofParts (UnpackedFloat.add .binary64 (parts x) (parts (-y))) := rfl
  rw [hparts, parts_neg, ← hsub]
  rfl

/-! ### Zeros -/

theorem parts_negativeZero : parts (-0.0) = .zero .negative :=
  rfl

/-- Negative zero is neutral for sums. -/
theorem negativeZero_add (x : Float) : -0.0 + x = x := by
  have hadd : ∀ a : UnpackedFloat, UnpackedFloat.add .binary64 (.zero .negative) a = a := by
    intro a
    cases a with
    | zero s => cases s <;> rfl
    | _ => rfl
  have hparts : -0.0 + x = ofParts (UnpackedFloat.add .binary64 (parts (-0.0)) (parts x)) := rfl
  rw [hparts, parts_negativeZero, hadd, ofParts_parts]

/-- Zero is neutral for sums, except that it turns negative zero into zero. -/
theorem zero_add {x : Float} (h : x ≠ -0.0) : 0 + x = x := by
  have hadd : ∀ a : UnpackedFloat, a ≠ .zero .negative →
      UnpackedFloat.add .binary64 (.zero .positive) a = a := by
    intro a ha
    cases a with
    | zero s =>
      cases s with
      | negative => exact absurd rfl ha
      | positive => rfl
    | _ => rfl
  have hx : parts x ≠ .zero .negative := by
    intro heq
    exact h (eq_of_parts_eq (heq.trans parts_negativeZero.symm))
  have hparts : 0 + x = ofParts (UnpackedFloat.add .binary64 (.zero .positive) (parts x)) := rfl
  rw [hparts, hadd _ hx, ofParts_parts]

theorem zero_add_negativeZero : (0 : Float) + -0.0 = 0 :=
  rfl

/-! ### Rounding -/

/-- The parts of doubles other than zeros have at most 53 binary digits, and exactly as many unless
the exponent is the least one. -/
structure Canonical (m : Nat) (e : Int) : Prop where
  lt : m < 2 ^ 53
  least : -1074 ≤ e
  normal : 2 ^ 52 ≤ m ∨ e = -1074

theorem canonical_parts {x : Float} {s : Sign} {m : Nat} {e : Int} {hm : 0 < m}
    (h : parts x = .finite s m e hm) : Canonical m e := by
  have hfraction := (@unpackMantissa .binary64 x.toModel.toBits.toBitVec).isLt
  have hfraction : (@unpackMantissa .binary64 x.toModel.toBits.toBitVec).toNat < 2 ^ 52 := hfraction
  have hbias : (Format.binary64.exponentBias : Int) = 1023 := rfl
  have hplaces : (Format.binary64.mantissaBitsWithoutImplicit : Int) = 52 := rfl
  have hwhole : (1#1 ++ @unpackMantissa .binary64 x.toModel.toBits.toBitVec).toNat =
      2 ^ 52 + (@unpackMantissa .binary64 x.toModel.toBits.toBitVec).toNat := by
    rw [BitVec.toNat_append, ← Nat.shiftLeft_add_eq_or_of_lt hfraction]
    rfl
  unfold parts Float.Model.unpack UnpackedFloat.unpack at h
  simp only at h
  split at h
  · split at h <;> cases h
  · split at h
    · next hzero =>
      split at h
      · cases h
      · cases h
        have hexponent : (@unpackExponent .binary64 x.toModel.toBits.toBitVec).toNat = 0 := by
          rw [hzero]
          rfl
        constructor <;> omega
    · next hzero =>
      cases h
      have hexponent : (@unpackExponent .binary64 x.toModel.toBits.toBitVec).toNat ≠ 0 := by
        intro hno
        exact hzero (BitVec.eq_of_toNat_eq hno)
      constructor <;> omega

theorem targetExponent_eq (t : Int) :
    Format.binary64.targetExponent t = max (t - 53) (-1074) :=
  rfl

/-- What is canonical already has its target exponent. -/
theorem Canonical.targetExponent {m : Nat} {e : Int} (h : Canonical m e) (hm : 0 < m) :
    Format.binary64.targetExponent (totalExponent m e) = e := by
  have hlog : m.log2 < 53 := (Nat.log2_lt (Nat.ne_of_gt hm)).2 h.lt
  have hlarge : 2 ^ 52 ≤ m → 52 ≤ m.log2 := (Nat.le_log2 (Nat.ne_of_gt hm)).2
  have hleast := h.least
  rw [targetExponent_eq, totalExponent]
  rcases h.normal with hnormal | hleast'
  · have := hlarge hnormal
    omega
  · omega

theorem shiftRight_succ (em : ExtendedMantissa) (k : Nat) :
    em >>> (k + 1) = (em >>> k).shiftRightOne :=
  rfl

theorem mantissa_shiftRight (em : ExtendedMantissa) (k : Nat) :
    (em >>> k).mantissa = em.mantissa / 2 ^ k := by
  induction k with
  | zero => exact (Nat.div_one _).symm
  | succ k ih =>
    rw [shiftRight_succ, ExtendedMantissa.shiftRightOne, ih, Nat.div_div_eq_div_mul, Nat.pow_succ]

/-- No digit is lost when zeros are shifted out. -/
theorem shiftRight_exact (m k : Nat) :
    ExtendedMantissa.ofMantissaAndAccuracy (2 ^ k * m) .exact >>> k =
      ExtendedMantissa.ofMantissaAndAccuracy m .exact := by
  induction k generalizing m with
  | zero => rw [Nat.pow_zero, Nat.one_mul]; rfl
  | succ k ih =>
    have heven : 2 * m / 2 = m := by omega
    rw [shiftRight_succ, Nat.pow_succ, Nat.mul_assoc, ih]
    simp [ExtendedMantissa.ofMantissaAndAccuracy, ExtendedMantissa.shiftRightOne, heven]

theorem log2_two_pow_mul (m k : Nat) (hm : 0 < m) : (2 ^ k * m).log2 = k + m.log2 := by
  have hpos : 0 < 2 ^ k * m := Nat.mul_pos (Nat.two_pow_pos k) hm
  refine (Nat.log2_eq_iff (Nat.ne_of_gt hpos)).2 ⟨?_, ?_⟩
  · rw [Nat.pow_add]
    exact Nat.mul_le_mul_left _ (Nat.log2_self_le (Nat.ne_of_gt hm))
  · rw [Nat.add_assoc, Nat.pow_add]
    exact Nat.mul_lt_mul_of_pos_left Nat.lt_log2_self (Nat.two_pow_pos k)

/-- Rounding gives a canonical mantissa back when it only has zeros to drop. -/
theorem roundWithAccuracy_scaled (s : Sign) {m : Nat} {e : Int} (hm : 0 < m) (h : Canonical m e)
    (k : Nat) : roundWithAccuracy .binary64 s (2 ^ k * m) (e - k) .exact = .finite s m e hm := by
  have htarget := h.targetExponent hm
  have htotal : totalExponent (2 ^ k * m) (e - k) = totalExponent m e := by
    rw [totalExponent, totalExponent, log2_two_pow_mul m k hm]
    omega
  have hfirst : shiftToTargetExponent .binary64 (2 ^ k * m) (e - k) .exact =
      (ExtendedMantissa.ofMantissaAndAccuracy m .exact, e) := by
    have hamount : (e - (e - k)).toNat = k := by omega
    have hexponent : e - k + k = e := by omega
    simp only [shiftToTargetExponent, shiftToExponent, htotal, htarget, hamount, shiftRight_exact,
      hexponent]
  have hsecond : shiftToTargetExponent .binary64 m e .exact =
      (ExtendedMantissa.ofMantissaAndAccuracy m .exact, e) := by
    have hamount : (e - e).toNat = 0 := by omega
    have hexponent : e + (0 : Nat) = e := by omega
    simp only [shiftToTargetExponent, shiftToExponent, htarget, hamount, hexponent]
    rfl
  have hround : (ExtendedMantissa.ofMantissaAndAccuracy m .exact).roundedMantissa = m := rfl
  have hmantissa : (ExtendedMantissa.ofMantissaAndAccuracy m .exact).mantissa = m := rfl
  simp only [roundWithAccuracy, hfirst, hround, hsecond, hmantissa]
  rw [dif_neg (Nat.ne_of_gt hm)]

theorem parts_one : parts 1 = .finite .positive (2 ^ 52) (-52) (by decide) :=
  rfl

/-- One is neutral for products. -/
theorem one_mul (x : Float) : 1 * x = x := by
  have hmul : UnpackedFloat.mul .binary64 (.finite .positive (2 ^ 52) (-52) (by decide)) (parts x) =
      parts x := by
    cases hx : parts x with
    | notANumber => rfl
    | infinity s | zero s => cases s <;> rfl
    | finite s m e hm =>
      have hsign : Sign.positive * s = s := by cases s <;> rfl
      have hscaled := roundWithAccuracy_scaled s hm (canonical_parts hx) 52
      have hexponent : -52 + e = e - (52 : Nat) := by omega
      simp only [UnpackedFloat.mul, hsign, hexponent, hscaled]
  have hparts : 1 * x = ofParts (UnpackedFloat.mul .binary64 (parts 1) (parts x)) := rfl
  rw [hparts, parts_one, hmul, ofParts_parts]

/-! ### Sums that vanish -/

/-- Above the least exponent only digits after the first 53 are dropped. -/
theorem shiftAmount_eq (m : Nat) {e : Int} (he : -1074 ≤ e) :
    (Format.binary64.targetExponent (totalExponent m e) - e).toNat = m.log2 - 52 := by
  rw [targetExponent_eq, totalExponent]
  omega

theorem kept_bounds {m : Nat} (hm : 0 < m) :
    0 < m / 2 ^ (m.log2 - 52) ∧ m / 2 ^ (m.log2 - 52) < 2 ^ 53 := by
  have hfirst : 2 ^ (m.log2 - 52) ≤ m :=
    Nat.le_trans (Nat.pow_le_pow_right (by decide) (Nat.sub_le _ _))
      (Nat.log2_self_le (Nat.ne_of_gt hm))
  refine ⟨Nat.div_pos hfirst (Nat.two_pow_pos _), ?_⟩
  rw [Nat.div_lt_iff_lt_mul (Nat.two_pow_pos _), ← Nat.pow_add]
  exact Nat.lt_of_lt_of_le Nat.lt_log2_self (Nat.pow_le_pow_right (by decide) (by omega))

theorem mantissa_le_roundedMantissa (em : ExtendedMantissa) : em.mantissa ≤ em.roundedMantissa := by
  obtain ⟨m, roundBit, stickyBit⟩ := em
  cases roundBit <;> cases stickyBit <;>
    simp [ExtendedMantissa.roundedMantissa, ExtendedMantissa.accuracy, Accuracy.roundToNearestEven]

/-- Above the least exponent nothing is rounded to zero. -/
theorem finite_roundWithAccuracy (s : Sign) {m : Nat} {e : Int} (hm : 0 < m) (he : -1074 ≤ e) :
    ∃ m' e' hm', roundWithAccuracy .binary64 s m e .exact = .finite s m' e' hm' ∧
      m' < 2 ^ 53 ∧ -1074 ≤ e' := by
  obtain ⟨rounded, hrounded⟩ : ∃ rounded, (ExtendedMantissa.ofMantissaAndAccuracy m .exact >>>
      (m.log2 - 52)).roundedMantissa = rounded := ⟨_, rfl⟩
  have hpos : 0 < rounded := by
    rw [← hrounded]
    refine Nat.lt_of_lt_of_le ?_ (mantissa_le_roundedMantissa _)
    rw [mantissa_shiftRight]
    exact (kept_bounds hm).1
  have he' : -1074 ≤ e + (m.log2 - 52 : Nat) := by omega
  have hkept := kept_bounds hpos
  have hmantissa : (ExtendedMantissa.ofMantissaAndAccuracy rounded .exact >>>
      (rounded.log2 - 52)).mantissa = rounded / 2 ^ (rounded.log2 - 52) :=
    mantissa_shiftRight _ _
  simp only [roundWithAccuracy, shiftToTargetExponent, shiftToExponent, shiftAmount_eq m he,
    hrounded, shiftAmount_eq rounded he', hmantissa]
  rw [dif_neg (Nat.ne_of_gt hkept.1)]
  exact ⟨_, _, hkept.1, rfl, hkept.2, by omega⟩

theorem finite_round (s : Sign) {m : Nat} {e : Int} (hm : 0 < m) (he : -1074 ≤ e) :
    ∃ m' e' hm', UnpackedFloat.round .binary64 s m e = .finite s m' e' hm' ∧ m' < 2 ^ 53 ∧ -1074 ≤ e' := by
  unfold UnpackedFloat.round decreaseExponent
  refine finite_roundWithAccuracy s ?_ ?_
  · rw [Nat.shiftLeft_eq]
    exact Nat.mul_pos hm (Nat.two_pow_pos _)
  · rw [targetExponent_eq]
    omega

/-- What is not rounded to zero is not packed as zero. -/
theorem pack_finite_ne_zero (s s' : Sign) {m : Nat} {e : Int} (hm : 0 < m) (hlt : m < 2 ^ 53)
    (he : -1074 ≤ e) :
    UnpackedFloat.pack .binary64 (.finite s m e hm) ≠ packedZero .binary64 s' := by
  intro heq
  have hexponent := congrArg (fun b => (@unpackExponent .binary64 b).toNat) heq
  have hmantissa := congrArg (fun b => (@unpackMantissa .binary64 b).toNat) heq
  have hbias : (Format.binary64.exponentBias : Int) = 1023 := rfl
  have hplaces : (Format.binary64.mantissaBitsWithoutImplicit : Int) = 52 := rfl
  simp only [UnpackedFloat.pack, packedZero] at hexponent hmantissa
  split at hexponent
  · simp only [packedInfinity, unpackExponent_packComponents] at hexponent
    exact absurd hexponent (by decide)
  · next hfits =>
    split at hexponent
    · -- The exponent field is not zero.
      simp only [unpackExponent_packComponents, BitVec.toNat_ofNat] at hexponent
      change _ = 0 at hexponent
      omega
    · next hlog =>
      rw [if_neg hfits, if_neg hlog] at hmantissa
      simp only [unpackMantissa_packComponents, BitVec.toNat_ofNat] at hmantissa
      change _ = 0 at hmantissa
      have hbits : Format.binary64.mantissaBits = 53 := rfl
      have hlog' : m.log2 < 53 := (Nat.log2_lt (Nat.ne_of_gt hm)).2 hlt
      have hlt' : m < 2 ^ 52 := (Nat.log2_lt (Nat.ne_of_gt hm)).1 (by omega)
      rw [Nat.mod_eq_of_lt hlt'] at hmantissa
      omega

/-- Rounded parts of a number other than zero are not those of negative zero. -/
theorem ofParts_round_ne (s : Sign) {m : Nat} {e : Int} (hm : 0 < m) (he : -1074 ≤ e) :
    ofParts (UnpackedFloat.round .binary64 s m e) ≠ -0.0 := by
  obtain ⟨m', e', hm', hround, hlt, he'⟩ := finite_round s hm he
  intro heq
  rw [hround] at heq
  exact pack_finite_ne_zero s .negative hm' hlt he'
    (congrArg (fun x : Float => x.toModel.toBits.toBitVec) heq)

theorem ofParts_normalize_ne (m : Int) {e : Int} (he : -1074 ≤ e) :
    ofParts (UnpackedFloat.normalize .binary64 m e .positive) ≠ -0.0 := by
  unfold UnpackedFloat.normalize
  split
  · next hlt =>
    have := Int.compare_eq_lt.1 hlt
    exact ofParts_round_ne _ (by omega) he
  · decide
  · next hgt =>
    have := Int.compare_eq_gt.1 hgt
    exact ofParts_round_ne _ (by omega) he

theorem ofParts_infinity_ne (s : Sign) : ofParts (.infinity s) ≠ -0.0 := by
  cases s <;> decide

theorem ofParts_notANumber_ne : ofParts .notANumber ≠ -0.0 := by
  decide

theorem ofParts_finite_ne {x : Float} {s : Sign} {m : Nat} {e : Int} {hm : 0 < m}
    (hx : parts x = .finite s m e hm) : ofParts (.finite s m e hm) ≠ -0.0 := by
  rw [← hx, ofParts_parts]
  rintro rfl
  rw [parts_negativeZero] at hx
  cases hx

/-- A sum is negative zero only if both of its parts are. -/
theorem eq_negativeZero_of_add {x y : Float} (h : x + y = -0.0) : x = -0.0 ∧ y = -0.0 := by
  have hsum : ofParts (UnpackedFloat.add .binary64 (parts x) (parts y)) = -0.0 := h
  suffices hparts : parts x = .zero .negative ∧ parts y = .zero .negative from
    ⟨eq_of_parts_eq hparts.1, eq_of_parts_eq hparts.2⟩
  cases hx : parts x with
  | notANumber =>
    rw [hx] at hsum
    exact absurd hsum ofParts_notANumber_ne
  | infinity s =>
    rw [hx] at hsum
    cases hy : parts y with
    | notANumber =>
      rw [hy] at hsum
      exact absurd hsum ofParts_notANumber_ne
    | infinity s' =>
      rw [hy, UnpackedFloat.add] at hsum
      split at hsum
      · exact absurd hsum (ofParts_infinity_ne s)
      · exact absurd hsum ofParts_notANumber_ne
    | zero s' | finite s' m' e' hm' =>
      rw [hy] at hsum
      exact absurd hsum (ofParts_infinity_ne s)
  | zero s =>
    rw [hx] at hsum
    cases hy : parts y with
    | notANumber =>
      rw [hy] at hsum
      exact absurd hsum ofParts_notANumber_ne
    | infinity s' =>
      rw [hy] at hsum
      exact absurd hsum (ofParts_infinity_ne s')
    | zero s' =>
      rw [hy] at hsum
      cases s <;> cases s' <;> first | exact ⟨rfl, rfl⟩ | exact absurd hsum (by decide)
    | finite s' m' e' hm' =>
      rw [hy] at hsum
      exact absurd hsum (ofParts_finite_ne hy)
  | finite s m e hm =>
    rw [hx] at hsum
    cases hy : parts y with
    | notANumber =>
      rw [hy] at hsum
      exact absurd hsum ofParts_notANumber_ne
    | infinity s' =>
      rw [hy] at hsum
      exact absurd hsum (ofParts_infinity_ne s')
    | zero s' =>
      rw [hy] at hsum
      exact absurd hsum (ofParts_finite_ne hx)
    | finite s' m' e' hm' =>
      have hleast := (canonical_parts hx).least
      have hleast' := (canonical_parts hy).least
      rw [hy, UnpackedFloat.add] at hsum
      exact absurd hsum (ofParts_normalize_ne _ (by omega))

/-- Adding zero to a sum is adding it to the first part of the sum. -/
theorem zero_add_add (x y : Float) : 0 + x + y = 0 + (x + y) := by
  by_cases hx : x = -0.0
  · rw [hx, zero_add_negativeZero, negativeZero_add]
  · have hsum : x + y ≠ -0.0 := fun hno => hx (eq_negativeZero_of_add hno).1
    rw [zero_add hx, zero_add hsum]

end ImplicitCurves.Binary64

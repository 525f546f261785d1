import ImplicitCurves.Decimal.Shortest
import Mathlib

/-!
# Negative numbers

The opposite of a number is written as the number with a sign in front: main statement
`Decimal.text_neg`.  Negating a double changes nothing but its sign bit, and the digits that are
written depend on the other bits only.
-/

namespace ImplicitCurves.Decimal

open Float.Model Float.Model.UnpackedFloat

/-- The bits of a double. -/
abbrev Bits :=
  BitVec Format.binary64.numBits

/-- Negating a subnormal number changes its sign bit only. -/
theorem pack_neg_unpack_subnormal {b : Bits} (hmin : @unpackExponent .binary64 b = 0#_)
    (hzero : @unpackMantissa .binary64 b ≠ 0#_) :
    UnpackedFloat.pack .binary64 (UnpackedFloat.unpack .binary64 b).neg =
      packComponents .binary64 (-Sign.ofBitVec (unpackSign b)) (unpackExponent b)
        (unpackMantissa b) := by
  have hmantissa : (@unpackMantissa .binary64 b).toNat < 2 ^ 52 := (@unpackMantissa .binary64 b).isLt
  have hlog : (@unpackMantissa .binary64 b).toNat.log2 < 52 := by
    refine (Nat.log2_lt ?_).2 hmantissa
    intro hno
    exact hzero (BitVec.eq_of_toNat_eq (by simpa using hno))
  have hmax : @unpackExponent .binary64 b ≠ -1#_ := by
    rw [hmin]
    decide
  unfold UnpackedFloat.unpack
  dsimp only
  rw [if_neg hmax, if_pos hmin, dif_neg hzero]
  simp only [UnpackedFloat.neg, UnpackedFloat.pack, hmin]
  rw [if_neg, if_neg]
  · simp
  · simp [Format.mantissaBits]
    omega
  · simp [Format.exponentBias]

/-- Negating a normal number changes its sign bit only. -/
theorem pack_neg_unpack_normal {b : Bits} (hmin : @unpackExponent .binary64 b ≠ 0#_)
    (hmax : @unpackExponent .binary64 b ≠ -1#_) :
    UnpackedFloat.pack .binary64 (UnpackedFloat.unpack .binary64 b).neg =
      packComponents .binary64 (-Sign.ofBitVec (unpackSign b)) (unpackExponent b)
        (unpackMantissa b) := by
  have hexponent : (@unpackExponent .binary64 b).toNat < 2 ^ 11 := (@unpackExponent .binary64 b).isLt
  have hmantissa : (@unpackMantissa .binary64 b).toNat < 2 ^ 52 := (@unpackMantissa .binary64 b).isLt
  have hbiased : ((@unpackExponent .binary64 b).toNat - (Format.binary64.exponentBias + (52 : Nat)) +
      Format.binary64.exponentBias + (52 : Nat) : Int).toNat = (@unpackExponent .binary64 b).toNat := by
    omega
  have hbelow : (@unpackExponent .binary64 b).toNat + 1 < 2 ^ 11 := by
    have hne : (@unpackExponent .binary64 b).toNat ≠ 2 ^ 11 - 1 := by
      intro hno
      exact hmax (BitVec.eq_of_toNat_eq hno)
    omega
  have hwhole : (1#1 ++ @unpackMantissa .binary64 b).toNat =
      2 ^ 52 + (@unpackMantissa .binary64 b).toNat := by
    rw [BitVec.toNat_append, ← Nat.shiftLeft_add_eq_or_of_lt hmantissa]
    rfl
  have hlog : (2 ^ 52 + (@unpackMantissa .binary64 b).toNat).log2 = 52 := by
    refine (Nat.log2_eq_iff (by omega)).2 ⟨by omega, by omega⟩
  have hbits : 52 + 1 = Format.binary64.mantissaBits := rfl
  unfold UnpackedFloat.unpack
  dsimp only
  rw [if_neg hmax, if_neg hmin]
  simp only [UnpackedFloat.neg, UnpackedFloat.pack, hbiased, hwhole, hlog]
  rw [if_neg (by omega), if_pos hbits, BitVec.ofNat_toNat]
  congr 1
  refine BitVec.eq_of_toNat_eq ?_
  rw [BitVec.toNat_ofNat]
  omega

/-- Negating a double that is a number changes its sign bit only. -/
theorem pack_neg_unpack (b : Bits) (h : (UnpackedFloat.unpack .binary64 b).isNaN = false) :
    UnpackedFloat.pack .binary64 (UnpackedFloat.unpack .binary64 b).neg =
      packComponents .binary64 (-Sign.ofBitVec (unpackSign b)) (unpackExponent b)
        (unpackMantissa b) := by
  by_cases hmax : @unpackExponent .binary64 b = -1#_
  · unfold UnpackedFloat.unpack at h ⊢
    dsimp only at h ⊢
    rw [if_pos hmax] at h ⊢
    by_cases hzero : @unpackMantissa .binary64 b = 0#_
    · rw [if_pos hzero, hmax, hzero]
      rfl
    · rw [if_neg hzero] at h
      exact absurd h.symm Bool.false_ne_true
  by_cases hmin : @unpackExponent .binary64 b = 0#_
  · by_cases hzero : @unpackMantissa .binary64 b = 0#_
    · unfold UnpackedFloat.unpack
      dsimp only
      rw [if_neg hmax, if_pos hmin, dif_pos hzero, hmin, hzero]
      rfl
    · exact pack_neg_unpack_subnormal hmin hzero
  · exact pack_neg_unpack_normal hmin hmax

/-- The fields of a double as a natural number. -/
theorem toNat_packComponents (sign : Sign) (exponent : BitVec 11) (mantissa : BitVec 52) :
    (packComponents .binary64 sign exponent mantissa).toNat =
      sign.toBitVec.toNat * 2 ^ 63 + exponent.toNat * 2 ^ 52 + mantissa.toNat := by
  have hexponent := exponent.isLt
  have hmantissa := mantissa.isLt
  unfold packComponents
  rw [BitVec.toNat_append, BitVec.toNat_append, ← Nat.shiftLeft_add_eq_or_of_lt hmantissa,
    ← Nat.shiftLeft_add_eq_or_of_lt hexponent, Nat.shiftLeft_eq, Nat.shiftLeft_eq]
  omega

theorem toNat_unpackExponent (b : Bits) : (unpackExponent b).toNat = b.toNat / 2 ^ 52 % 2 ^ 11 := by
  simp [unpackExponent, BitVec.extractLsb_toNat, Nat.shiftRight_eq_div_pow]

theorem toNat_unpackMantissa (b : Bits) : (unpackMantissa b).toNat = b.toNat % 2 ^ 52 := by
  simp [unpackMantissa, BitVec.extractLsb_toNat]

theorem toNat_unpackSign (b : Bits) : (unpackSign b).toNat = b.toNat / 2 ^ 63 := by
  have hlt : b.toNat < 2 ^ 64 := b.isLt
  simp [unpackSign, BitVec.extractLsb_toNat, Nat.shiftRight_eq_div_pow]
  omega

/-- The sign bit of the opposite sign. -/
theorem toNat_neg_ofBitVec (s : BitVec 1) : (-Sign.ofBitVec s).toBitVec.toNat = 1 - s.toNat := by
  have hs : s = 0#1 ∨ s = 1#1 := by
    have hlt := s.isLt
    rcases Nat.lt_or_ge 0 s.toNat with hpos | hzero
    · exact .inr (BitVec.eq_of_toNat_eq (by simp; omega))
    · exact .inl (BitVec.eq_of_toNat_eq (by simp; omega))
  rcases hs with rfl | rfl <;> rfl

/-- Negating a double changes its sign bit. -/
theorem toNat_toBits_neg {x : Float} (h : x.isNaN = false) :
    (-x).toBits.toNat = (1 - x.toBits.toNat / 2 ^ 63) * 2 ^ 63 + x.toBits.toNat % 2 ^ 63 := by
  have hpack := pack_neg_unpack x.toModel.toBits.toBitVec h
  have hbits : (-x).toBits.toNat = (UnpackedFloat.pack .binary64
      (UnpackedFloat.unpack .binary64 x.toModel.toBits.toBitVec).neg).toNat := rfl
  have hx : x.toBits.toNat = x.toModel.toBits.toBitVec.toNat := rfl
  rw [hbits, hpack, toNat_packComponents, toNat_neg_ofBitVec, toNat_unpackSign, toNat_unpackExponent,
    toNat_unpackMantissa, hx]
  omega

/-- A test that only tells NaN and the infinities from all other doubles depends on the exponent and
on the fraction. -/
theorem test_unpack {p : UnpackedFloat → Bool} (hzero : ∀ s, p (.zero s) = false)
    (hfinite : ∀ s m e h, p (.finite s m e h) = false)
    (hinfinity : ∀ s, p (.infinity s) = p (.infinity .positive)) (b : Bits) :
    p (UnpackedFloat.unpack .binary64 b) = (unpackExponent b == -1#_ &&
      if unpackMantissa b = 0#_ then p (.infinity .positive) else p .notANumber) := by
  unfold UnpackedFloat.unpack
  dsimp only
  by_cases hmax : @unpackExponent .binary64 b = -1#_
  · rw [if_pos hmax, beq_iff_eq.2 hmax, Bool.true_and]
    split
    · exact hinfinity _
    · rfl
  · have hno : (@unpackExponent .binary64 b == -1#_) = false := by simpa using hmax
    rw [if_neg hmax, hno, Bool.false_and]
    split
    · split
      · exact hzero _
      · exact hfinite _ _ _ _
    · exact hfinite _ _ _ _

/-- Such a test does not depend on the sign. -/
theorem test_neg {p : UnpackedFloat → Bool} (hzero : ∀ s, p (.zero s) = false)
    (hfinite : ∀ s m e h, p (.finite s m e h) = false)
    (hinfinity : ∀ s, p (.infinity s) = p (.infinity .positive)) {x : Float} (h : x.isNaN = false) :
    p (-x).toModel.unpack = p x.toModel.unpack := by
  have hpack := pack_neg_unpack x.toModel.toBits.toBitVec h
  have hneg : (-x).toModel.unpack = UnpackedFloat.unpack .binary64 (UnpackedFloat.pack .binary64
      (UnpackedFloat.unpack .binary64 x.toModel.toBits.toBitVec).neg) := rfl
  rw [hneg, hpack, test_unpack hzero hfinite hinfinity, unpackExponent_packComponents,
    unpackMantissa_packComponents]
  exact (test_unpack hzero hfinite hinfinity _).symm

theorem isNaN_neg {x : Float} (h : x.isNaN = false) : (-x).isNaN = false := by
  have hsame : (-x).isNaN = x.isNaN :=
    @test_neg UnpackedFloat.isNaN (fun _ => rfl) (fun _ _ _ _ => rfl) (fun _ => rfl) x h
  exact hsame.trans h

theorem isInf_neg {x : Float} (h : x.isNaN = false) : (-x).isInf = x.isInf :=
  @test_neg UnpackedFloat.isInf (fun _ => rfl) (fun _ _ _ _ => rfl) (fun _ => rfl) x h

/-- The magnitude does not depend on the sign. -/
theorem magnitudeText_neg {x : Float} (h : x.isNaN = false) : magnitudeText (-x) = magnitudeText x := by
  have hbits := toNat_toBits_neg h
  have hfield : (-x).toBits.toNat / Nat.pow 2 52 % Nat.pow 2 11 =
      x.toBits.toNat / Nat.pow 2 52 % Nat.pow 2 11 := by
    rw [hbits]
    simp only [Nat.pow_eq]
    omega
  have hfraction : (-x).toBits.toNat % Nat.pow 2 52 = x.toBits.toNat % Nat.pow 2 52 := by
    rw [hbits]
    simp only [Nat.pow_eq]
    omega
  have hbinary : Binary.ofFloat (-x) = Binary.ofFloat x := by
    simp only [Binary.ofFloat, hfield, hfraction]
  rw [magnitudeText, magnitudeText, isNaN_neg h, isInf_neg h, hbinary, h]

/-- A number that is written without a sign is written with one once it is negated. -/
theorem text_neg {x : Float} (hnumber : x.isNaN = false) (hsign : isNegative x = false) :
    text (-x) = '-' :: text x := by
  have hnegative : isNegative (-x) = true := by
    have hlt : x.toBits.toNat < 2 ^ 64 := x.toBits.toNat_lt
    simp only [isNegative, decide_eq_false_iff_not, Nat.pow_eq] at hsign
    simp only [isNegative, toNat_toBits_neg hnumber, decide_eq_true_eq, Nat.pow_eq]
    omega
  rw [text, text, hnegative, isNaN_neg hnumber, hsign, magnitudeText_neg hnumber]
  rfl

end ImplicitCurves.Decimal

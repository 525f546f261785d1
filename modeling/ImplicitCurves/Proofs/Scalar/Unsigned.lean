import ImplicitCurves.Decimal.Numeral
import ImplicitCurves.Proofs.Scalar.Binary64

/-!
# Numbers without a sign

Products and quotients of doubles without a sign have none, and so has no number that is read from a
numeral: main statement `Decimal.isNegative_ofDigits`.
-/

namespace ImplicitCurves

namespace Binary64

open Float.Model Float.Model.UnpackedFloat
open Decimal (Bits isNegative)

/-- The parts have no minus sign. -/
def Unsigned : UnpackedFloat → Prop
  | .notANumber => True
  | .infinity s | .zero s | .finite s _ _ _ => s = .positive

theorem isNegative_packComponents (exponent : BitVec 11) (mantissa : BitVec 52) :
    (packComponents .binary64 .positive exponent mantissa).toNat / 2 ^ 63 ≠ 1 := by
  have hexponent := exponent.isLt
  have hmantissa := mantissa.isLt
  have hpositive : Sign.positive.toBitVec.toNat = 0 := rfl
  rw [Decimal.toNat_packComponents, hpositive]
  omega

/-- What is packed without a sign has none. -/
theorem isNegative_ofParts {w : UnpackedFloat} (h : Unsigned w) : isNegative (ofParts w) = false := by
  have hbits : (ofParts w).toBits.toNat = (UnpackedFloat.pack .binary64 w).toNat := rfl
  refine decide_eq_false ?_
  rw [hbits]
  cases w with
  | notANumber => exact isNegative_packComponents _ _
  | infinity s => cases h; exact isNegative_packComponents _ _
  | zero s => cases h; exact isNegative_packComponents _ _
  | finite s m e hm =>
    cases h
    simp only [UnpackedFloat.pack]
    split
    · exact isNegative_packComponents _ _
    · split <;> exact isNegative_packComponents _ _

theorem unsigned_parts {x : Float} (h : isNegative x = false) : Unsigned (parts x) := by
  have hbits : x.toBits.toNat = x.toModel.toBits.toBitVec.toNat := rfl
  have hsign : Sign.ofBitVec (@unpackSign .binary64 x.toModel.toBits.toBitVec) = .positive := by
    have hzero : @unpackSign .binary64 x.toModel.toBits.toBitVec = 0#1 := by
      refine BitVec.eq_of_toNat_eq ?_
      have hlt : x.toModel.toBits.toBitVec.toNat < 2 ^ 64 := x.toModel.toBits.toBitVec.isLt
      have hne := of_decide_eq_false h
      rw [hbits] at hne
      rw [Decimal.toNat_unpackSign]
      change _ = 0
      change ¬ _ / 2 ^ 63 = 1 at hne
      omega
    rw [hzero]
    rfl
  have hunpack : parts x = UnpackedFloat.unpack .binary64 x.toModel.toBits.toBitVec := rfl
  rw [hunpack]
  simp only [UnpackedFloat.unpack, hsign]
  split
  · split
    · rfl
    · trivial
  · split
    · split <;> rfl
    · rfl

theorem unsigned_roundWithAccuracy (m : Nat) (e : Int) (accuracy : Accuracy) :
    Unsigned (roundWithAccuracy .binary64 .positive m e accuracy) := by
  simp only [roundWithAccuracy]
  split <;> rfl

theorem unsigned_mul {v w : UnpackedFloat} (hv : Unsigned v) (hw : Unsigned w) :
    Unsigned (UnpackedFloat.mul .binary64 v w) := by
  cases v <;> cases w <;> cases hv <;> cases hw <;>
    first | trivial | exact unsigned_roundWithAccuracy _ _ _

theorem unsigned_div {v w : UnpackedFloat} (hv : Unsigned v) (hw : Unsigned w) :
    Unsigned (UnpackedFloat.div .binary64 v w) := by
  cases v <;> cases w <;> cases hv <;> cases hw <;>
    first | trivial | exact unsigned_roundWithAccuracy _ _ _

/-- A product of doubles without a sign has none. -/
theorem isNegative_mul {x y : Float} (hx : isNegative x = false) (hy : isNegative y = false) :
    isNegative (x * y) = false :=
  isNegative_ofParts (unsigned_mul (unsigned_parts hx) (unsigned_parts hy))

/-- A quotient of doubles without a sign has none. -/
theorem isNegative_div {x y : Float} (hx : isNegative x = false) (hy : isNegative y = false) :
    isNegative (x / y) = false :=
  isNegative_ofParts (unsigned_div (unsigned_parts hx) (unsigned_parts hy))

theorem isNegative_toFloat (n : UInt64) : isNegative n.toFloat = false := by
  refine isNegative_ofParts (w := UnpackedFloat.ofUInt64 .binary64 n) ?_
  have hparts : UnpackedFloat.ofUInt64 .binary64 n =
      UnpackedFloat.normalize .binary64 (n.toNat : Int) 0 .positive := rfl
  rw [hparts, UnpackedFloat.normalize]
  split
  · next hneg => exact absurd (Int.compare_eq_lt.1 hneg) (by omega)
  · rfl
  · simp only [UnpackedFloat.round]
    exact unsigned_roundWithAccuracy _ _ _

theorem isNegative_powerOfTen (e : Nat) (h : e < Float.exactlyRepresentablePowersOfTen.size) :
    isNegative Float.exactlyRepresentablePowersOfTen[e] = false := by
  have hall : ∀ x ∈ Float.exactlyRepresentablePowersOfTen.toList, isNegative x = false := by
    decide +kernel
  exact hall _ (by simp)

theorem unsigned_ofScientific (m : Nat) (e : Int) :
    Unsigned (UnpackedFloat.ofScientific .binary64 m e) := by
  unfold UnpackedFloat.ofScientific
  split
  · rfl
  split
  · rfl
  split
  · rfl
  split
  · exact unsigned_mul rfl rfl
  · exact unsigned_div rfl rfl

theorem isNegative_ofScientific (m : Nat) (s : Bool) (e : Nat) :
    isNegative (Float.ofScientific m s e) = false := by
  unfold Float.ofScientific
  split
  · next h =>
    dsimp only
    split
    · exact isNegative_div (isNegative_toFloat _) (isNegative_powerOfTen _ _)
    · exact isNegative_mul (isNegative_toFloat _) (isNegative_powerOfTen _ _)
  · exact isNegative_ofParts (unsigned_ofScientific _ _)

end Binary64

namespace Decimal

theorem isNegative_nearest (mantissa : Nat) (exponent : Int) :
    isNegative (nearest mantissa exponent) = false := by
  unfold nearest
  split
  · decide +kernel
  split
  · decide +kernel
  split
  · decide +kernel
  · exact Binary64.isNegative_ofScientific _ _ _

/-- A number that is read from a numeral has no sign. -/
theorem isNegative_ofDigits (whole fraction : List Char) : isNegative (ofDigits whole fraction) = false :=
  isNegative_nearest _ _

end Decimal

end ImplicitCurves

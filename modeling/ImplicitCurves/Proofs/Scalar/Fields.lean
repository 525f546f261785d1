import ImplicitCurves.Proofs.Program.SignedSums
import ImplicitCurves.Proofs.Scalar.Exact
import Mathlib.Data.Rat.Cast.Defs

/-!
# Values of a field

The values of a field and one that is undefined, computed with exactly: what is computed from the
undefined value is undefined.  `ExactField` leaves quotients, powers and the elementary functions
open, so what is proved from it holds whatever they are.
-/

namespace ImplicitCurves

/-- A value of a field, or the undefined one. -/
inductive FieldValue (K : Type) where
  | defined (x : K)
  | undefined
deriving DecidableEq

namespace FieldValue

variable {K : Type}

/-- An operation of a field, with the undefined value as its result if either operand is
undefined. -/
def combine (op : K → K → K) : FieldValue K → FieldValue K → FieldValue K
  | defined x, defined y => defined (op x y)
  | _, _ => undefined

instance [Field K] : InvolutiveNeg (FieldValue K) where
  neg
    | defined x => defined (-x)
    | undefined => undefined
  neg_neg
    | defined x => congrArg defined (neg_neg x)
    | undefined => rfl

/-- The scalars of a field, with the given powers and elementary functions.  A numeral stands for
itself, and a quotient by zero is undefined, as are the numerals that stand for no number. -/
@[reducible] def exactly [Field K] [DecidableEq K] (power : FieldValue K → FieldValue K → FieldValue K)
    (apply : UnaryFunction → FieldValue K → FieldValue K) : Scalar (FieldValue K) where
  add := combine (· + ·)
  sub := combine (· - ·)
  mul := combine (· * ·)
  div x y := if y = defined 0 then undefined else combine (· / ·) x y
  ofFloat x :=
    match Exact.ofParts x.toModel.unpack with
    | .finite q => defined q
    | _ => undefined
  power
  apply

end FieldValue

open FieldValue

/-- Sums, differences and products are those of a field, and so are the numerals that are written for
signs and for what sums and products start from. -/
class ExactField (K : Type) [Field K] [Scalar (FieldValue K)] : Prop where
  add_eq (x y : FieldValue K) : x + y = combine (· + ·) x y
  sub_eq (x y : FieldValue K) : x - y = combine (· - ·) x y
  mul_eq (x y : FieldValue K) : x * y = combine (· * ·) x y
  zero_eq : (Scalar.zero : FieldValue K) = defined 0
  emptySum_eq : (Scalar.emptySum : FieldValue K) = defined 0
  one_eq : (Scalar.one : FieldValue K) = defined 1
  negativeOne_eq : (Scalar.negativeOne : FieldValue K) = defined (-1)

namespace ExactField

variable {K : Type} [Field K] [Scalar (FieldValue K)] [ExactField K]

instance : SignedScalar (FieldValue K) where
  one_mul x := by
    rw [one_eq, mul_eq]
    cases x with
    | defined x => exact congrArg defined (one_mul x)
    | undefined => rfl
  emptySum_add x := by
    rw [emptySum_eq, add_eq]
    cases x with
    | defined x => exact congrArg defined (zero_add x)
    | undefined => rfl
  neg_mul x y := by
    rw [mul_eq, mul_eq]
    cases x <;> cases y <;> first | rfl | exact congrArg defined (neg_mul _ _)
  negativeOne_eq := by
    rw [negativeOne_eq, one_eq]
    rfl
  sub_eq_add_neg x y := by
    rw [sub_eq, add_eq]
    cases x <;> cases y <;> first | rfl | exact congrArg defined (sub_eq_add_neg _ _)

theorem sub_defined_zero (x : FieldValue K) : x - defined 0 = x := by
  rw [sub_eq]
  cases x with
  | defined x => exact congrArg defined (sub_zero x)
  | undefined => rfl

/-- To subtract a sum is to add the opposite of its last term to the difference. -/
theorem sub_add (x y z : FieldValue K) : x - (y + z) = x - y + -z := by
  simp only [sub_eq, add_eq]
  cases x <;> cases y <;> cases z <;> first | rfl | exact congrArg defined (by ring)

end ExactField

/-- Every field has exact scalars, whatever powers and elementary functions are. -/
theorem FieldValue.exactField_exactly {K : Type} [Field K] [DecidableEq K]
    (power : FieldValue K → FieldValue K → FieldValue K)
    (apply : UnaryFunction → FieldValue K → FieldValue K) :
    @ExactField K _ (exactly power apply) := by
  have hzero : Exact.ofParts (0 : Float).toModel.unpack = .finite 0 := by decide +kernel
  have hempty : Exact.ofParts (-0.0 : Float).toModel.unpack = .finite 0 := by decide +kernel
  have hone : Exact.ofParts (1 : Float).toModel.unpack = .finite 1 := by decide +kernel
  have hnegative : Exact.ofParts (-1 : Float).toModel.unpack = .finite (-1) := by decide +kernel
  let _ := exactly power apply
  refine ⟨fun _ _ => rfl, fun _ _ => rfl, fun _ _ => rfl, ?_, ?_, ?_, ?_⟩
  · simp only [Scalar.zero, Scalar.ofFloat, hzero, Rat.cast_zero]
  · simp only [Scalar.emptySum, Scalar.ofFloat, hempty, Rat.cast_zero]
  · simp only [Scalar.one, Scalar.ofFloat, hone, Rat.cast_one]
  · simp only [Scalar.negativeOne, Scalar.ofFloat, hnegative, Rat.cast_neg, Rat.cast_one]

end ImplicitCurves

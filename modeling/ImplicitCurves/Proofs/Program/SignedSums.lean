import ImplicitCurves.Proofs.Tree.Interpretation

/-!
# Sums of items with signs

A tree multiplies the sign of an item into the product of its factors, a program multiplies the
factors alone and then adds the product or subtracts it.  This is the same where signs can be moved
out of products and to subtract is to add the opposite.  The totals of trees and programs differ only
in where they start then, and they agree if the numeral zero is what a sum starts from
(`meaningTotal_eq_valueTotal`).
-/

namespace ImplicitCurves

/-- Scalars with opposites that can be moved out of products, and that are added to subtract.  What a
sum and a product start from does not change what comes next. -/
class SignedScalar (α : Type) [Scalar α] [Neg α] : Prop where
  one_mul (x : α) : Scalar.one * x = x
  emptySum_add (x : α) : Scalar.emptySum + x = x
  neg_mul (x y : α) : -x * y = -(x * y)
  negativeOne_eq : (Scalar.negativeOne : α) = -Scalar.one
  sub_eq_add_neg (x y : α) : x - y = x + -y

variable {α : Type} [Scalar α]

theorem foldl_timesFactor (fs : List α) (product : α) :
    fs.foldl (fun product factor => some (timesFactor product factor)) (some product) =
      some (fs.foldl (· * ·) product) := by
  induction fs generalizing product with
  | nil => rfl
  | cons f fs ih => exact ih (product * f)

variable [Neg α] [SignedScalar α]

/-- A product that starts from its first factor is one that starts from one. -/
theorem productOf_eq_foldl (fs : List α) : productOf fs = fs.foldl (· * ·) Scalar.one := by
  cases fs with
  | nil => rfl
  | cons f fs =>
    have hstart : productOf (f :: fs) = (fs.foldl (fun product factor =>
      some (timesFactor product factor)) (some f)).getD Scalar.one := rfl
    rw [hstart, foldl_timesFactor, List.foldl_cons, SignedScalar.one_mul, Option.getD_some]

/-- A sign goes through a product to its end. -/
theorem foldl_mul_neg (fs : List α) (product : α) :
    fs.foldl (· * ·) (-product) = -fs.foldl (· * ·) product := by
  induction fs generalizing product with
  | nil => rfl
  | cons f fs ih => rw [List.foldl_cons, List.foldl_cons, SignedScalar.neg_mul, ih]

/-- A sign that is multiplied into a product is the sign of the product. -/
theorem foldl_mul_sign (positive : Bool) (fs : List α) :
    fs.foldl (· * ·) (if positive then Scalar.one else Scalar.negativeOne) =
      if positive then productOf fs else -productOf fs := by
  rw [productOf_eq_foldl]
  cases positive with
  | true => rfl
  | false => exact (congrArg (fs.foldl (· * ·)) SignedScalar.negativeOne_eq).trans (foldl_mul_neg fs _)

/-- Adding an item whose sign is a factor is adding or subtracting its product. -/
theorem plusItem_some (sum : α) (item : Bool × List α) :
    plusItem (some sum) item.1 (productOf item.2) = plusSigned sum item := by
  rw [plusSigned, foldl_mul_sign]
  cases item.1 with
  | true => rfl
  | false => exact SignedScalar.sub_eq_add_neg sum (productOf item.2)

theorem foldl_plusItem (items : List (Bool × List α)) (sum : α) :
    items.foldl (fun sum item => some (plusItem sum item.1 (productOf item.2))) (some sum) =
      some (items.foldl plusSigned sum) := by
  induction items generalizing sum with
  | nil => rfl
  | cons item items ih => rw [List.foldl_cons, List.foldl_cons, plusItem_some, ih]

/-- The total of programs, after its first item, adds up as that of trees. -/
theorem meaningTotal_cons (item : Bool × List α) (items : List (Bool × List α)) :
    meaningTotal (item :: items) =
      items.foldl plusSigned (plusItem none item.1 (productOf item.2)) := by
  have hstart : meaningTotal (item :: items) = (items.foldl (fun sum item =>
      some (plusItem sum item.1 (productOf item.2)))
        (some (plusItem none item.1 (productOf item.2)))).getD Scalar.zero := rfl
  rw [hstart, foldl_plusItem, Option.getD_some]

/-- The total of trees starts with its first item. -/
theorem valueTotal_cons (item : Bool × List α) (items : List (Bool × List α)) :
    valueTotal (item :: items) =
      items.foldl plusSigned (if item.1 then productOf item.2 else -productOf item.2) := by
  have hfirst : plusSigned Scalar.emptySum item =
      if item.1 then productOf item.2 else -productOf item.2 := by
    rw [plusSigned, SignedScalar.emptySum_add, foldl_mul_sign]
  rw [valueTotal, List.foldl_cons, hfirst]

/-- If a sum starts from the numeral zero, then trees and programs have the same total. -/
theorem meaningTotal_eq_valueTotal (hzero : (Scalar.zero : α) = Scalar.emptySum) :
    (meaningTotal : List (Bool × List α) → α) = valueTotal := by
  funext items
  cases items with
  | nil => exact hzero
  | cons item items =>
    rw [meaningTotal_cons, valueTotal_cons]
    cases item.1 with
    | true => rfl
    | false =>
      have hfirst : plusItem none false (productOf item.2) = -productOf item.2 := by
        rw [plusItem, hzero, SignedScalar.sub_eq_add_neg, SignedScalar.emptySum_add]
      rw [hfirst]
      rfl

end ImplicitCurves

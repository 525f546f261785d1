import ImplicitCurves.Scalar
import Mathlib.Data.Rat.Floor

/-!
# Exact scalars

Rational numbers with both infinities and an undefined value, computed with as doubles are, but
without rounding and with a single zero.  Powers and the elementary functions are not rational, so
they are undefined.  What is proved of all scalars can be read over these.
-/

namespace ImplicitCurves

/-- A rational number, or what doubles have beside their numbers. -/
inductive Exact where
  | finite (q : ℚ)
  | infinite (negative : Bool)
  | undefined
deriving DecidableEq

namespace Exact

/-- The exact value of the parts of a double. -/
def ofParts : Float.Model.UnpackedFloat → Exact
  | .notANumber => undefined
  | .infinity s => infinite (s == .negative)
  | .zero _ => finite 0
  | .finite .positive m e _ => finite (m * 2 ^ e)
  | .finite .negative m e _ => finite (-(m * 2 ^ e))

def neg : Exact → Exact
  | finite q => finite (-q)
  | infinite s => infinite !s
  | undefined => undefined

def add : Exact → Exact → Exact
  | finite q, finite r => finite (q + r)
  | infinite s, infinite t => if s = t then infinite s else undefined
  | infinite s, finite _ => infinite s
  | finite _, infinite s => infinite s
  | undefined, _ => undefined
  | _, undefined => undefined

def mul : Exact → Exact → Exact
  | finite q, finite r => finite (q * r)
  | infinite s, infinite t => infinite (s != t)
  | infinite s, finite q => if q = 0 then undefined else infinite (s != decide (q < 0))
  | finite q, infinite s => if q = 0 then undefined else infinite (s != decide (q < 0))
  | undefined, _ => undefined
  | _, undefined => undefined

def div : Exact → Exact → Exact
  | finite q, finite r =>
    if r = 0 then if q = 0 then undefined else infinite (decide (q < 0)) else finite (q / r)
  | infinite s, finite q => infinite (s != decide (q < 0))
  | finite _, infinite _ => finite 0
  | infinite _, infinite _ => undefined
  | undefined, _ => undefined
  | _, undefined => undefined

instance : Scalar Exact where
  add := add
  sub x y := x.add y.neg
  mul := mul
  div := div
  ofFloat x := ofParts x.toModel.unpack
  power _ _ := undefined
  apply _ _ := undefined

def less : Exact → Exact → Bool
  | finite q, finite r => decide (q < r)
  | infinite s, infinite t => s && !t
  | infinite s, finite _ => s
  | finite _, infinite s => !s
  | undefined, _ => false
  | _, undefined => false

def same : Exact → Exact → Bool
  | undefined, _ => false
  | x, y => x == y

instance : OrderedScalar Exact where
  less := less
  atMost x y := x.less y || x.same y
  same := same
  isFinite
    | finite _ => true
    | _ => false
  magnitude
    | finite q => finite |q|
    | infinite _ => infinite false
    | undefined => undefined
  ofCount n := finite n
  toCount
    | finite q => ⌊q⌋₊
    | infinite negative => if negative then 0 else countLimit - 1
    | undefined => 0
  gridSize
    -- one more than there are, so that a scan ends behind the range and not by this bound
    | finite low, finite high, finite step => ⌊(high - low) / step⌋₊ + 2
    | _, _, _ => 0

open Scalar OrderedScalar

variable (q r : ℚ)

@[simp] theorem finite_add : finite q + finite r = finite (q + r) := rfl

@[simp] theorem finite_sub : finite q - finite r = finite (q - r) :=
  congrArg finite (sub_eq_add_neg q r).symm

@[simp] theorem finite_mul : finite q * finite r = finite (q * r) := rfl

theorem finite_div (h : r ≠ 0) : finite q / finite r = finite (q / r) := if_neg h

theorem ofFloat_two : (ofFloat 2 : Exact) = finite 2 := by
  decide +kernel

@[simp] theorem zero_eq : (zero : Exact) = finite 0 := by
  decide +kernel

@[simp] theorem less_finite : OrderedScalar.less (finite q) (finite r) = decide (q < r) := rfl

@[simp] theorem atMost_finite : atMost (finite q) (finite r) = decide (q ≤ r) := by
  have h : atMost (finite q) (finite r) = (decide (q < r) || (finite q == finite r)) := rfl
  rw [h, Bool.eq_iff_iff]
  simp [le_iff_lt_or_eq]

@[simp] theorem isFinite_finite : isFinite (finite q) = true := rfl

@[simp] theorem ofCount_eq (n : Nat) : (ofCount n : Exact) = finite n := rfl

@[simp] theorem magnitude_finite : magnitude (finite q) = finite |q| := rfl

@[simp] theorem isPositive_finite : isPositive (finite q) = decide (0 < q) := by
  simp [isPositive]

@[simp] theorem isBelowZero_finite : isBelowZero (finite q) = decide (q < 0) := by
  simp [isBelowZero]

@[simp] theorem isZero_iff {x : Exact} : isZero x = true ↔ x = finite 0 := by
  have hsame : isZero x = x.same (finite 0) := congrArg x.same zero_eq
  rw [hsame]
  cases x <;> simp [same]

theorem isFinite_iff {x : Exact} : isFinite x = true ↔ ∃ q, x = finite q := by
  cases x <;> simp [isFinite]

end Exact

end ImplicitCurves

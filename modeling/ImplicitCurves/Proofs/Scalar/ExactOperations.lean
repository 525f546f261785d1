import ImplicitCurves.Proofs.Roots.OnGrid

/-!
# Exact scalars with other operations

Powers and the elementary functions of exact scalars can be chosen freely.  Numbers are computed with
and compared in the same way then, and a search finds the same roots of a function.
-/

namespace ImplicitCurves

/-- Exact scalars with the given powers and elementary functions. -/
@[reducible] def Exact.withOperations (power : Exact → Exact → Exact)
    (apply : UnaryFunction → Exact → Exact) : OrderedScalar Exact :=
  { (inferInstance : OrderedScalar Exact) with power, apply }

/-- The scalars are computed with exactly, apart from powers and elementary functions. -/
class ExactScalar (I : OrderedScalar Exact) : Prop where
  eq_withOperations : ∃ power apply, I = Exact.withOperations power apply

instance (power : Exact → Exact → Exact) (apply : UnaryFunction → Exact → Exact) :
    ExactScalar (Exact.withOperations power apply) where
  eq_withOperations := ⟨power, apply, rfl⟩

instance : ExactScalar Exact.instOrderedScalar where
  eq_withOperations := ⟨Scalar.power, Scalar.apply, rfl⟩

namespace ExactScalar

open Exact (finite)

section Search

variable (power : Exact → Exact → Exact) (apply : UnaryFunction → Exact → Exact) (f : Exact → Exact)

theorem narrow_withOperations (gap : Exact) (rising : Bool) (tries : Nat) (b : Bracket Exact)
    (probes : List Exact) :
    @narrow _ (Exact.withOperations power apply) f gap rising tries b probes =
      narrow f gap rising tries b probes := by
  induction tries generalizing b probes with
  | zero => rfl
  | succ tries ih =>
    unfold narrow
    dsimp only
    rw [ih]
    rfl

theorem bisect_withOperations (gap : Exact) (b : Bracket Exact) (probes : List Exact) :
    @bisect _ (Exact.withOperations power apply) f gap b probes = bisect f gap b probes := by
  unfold bisect
  rw [narrow_withOperations]
  rfl

theorem visit_withOperations (gap : Exact) (s : RootSearch Exact) (x : Exact) :
    @RootSearch.visit _ (Exact.withOperations power apply) f gap s x = s.visit f gap x := by
  unfold RootSearch.visit
  dsimp only
  simp only [bisect_withOperations]
  rfl

theorem scan_withOperations (o : RootOptions Exact) (low high : Exact) (index : Nat)
    (s : RootSearch Exact) :
    @RootSearch.scan _ (Exact.withOperations power apply) f o low high index s =
      s.scan f o low high index := by
  induction h : OrderedScalar.gridSize low high o.granularity - index generalizing index s with
  | zero =>
    have hend : ¬ index < OrderedScalar.gridSize low high o.granularity := by omega
    unfold RootSearch.scan
    exact (if_neg hend).trans (if_neg hend).symm
  | succ k ih =>
    have hlt : index < OrderedScalar.gridSize low high o.granularity := by omega
    unfold RootSearch.scan
    refine (if_pos hlt).trans (Eq.trans ?_ (if_pos hlt).symm)
    dsimp only
    rw [visit_withOperations, ih (index + 1) _ (by omega)]
    rfl

theorem findRoots_withOperations (low high : Exact) (o : RootOptions Exact) :
    @findRoots _ (Exact.withOperations power apply) f low high o = findRoots f low high o := by
  unfold findRoots searchRoots
  simp only [scan_withOperations]
  rfl

end Search

variable [I : OrderedScalar Exact] [h : ExactScalar I] (q r : ℚ)

theorem less_finite : OrderedScalar.less (finite q) (finite r) = decide (q < r) := by
  obtain ⟨power, apply, rfl⟩ := h.eq_withOperations
  exact Exact.less_finite q r

theorem atMost_finite : OrderedScalar.atMost (finite q) (finite r) = decide (q ≤ r) := by
  obtain ⟨power, apply, rfl⟩ := h.eq_withOperations
  exact Exact.atMost_finite q r

theorem isFinite_iff {x : Exact} : OrderedScalar.isFinite x = true ↔ ∃ q, x = finite q := by
  obtain ⟨power, apply, rfl⟩ := h.eq_withOperations
  exact Exact.isFinite_iff

theorem zero_eq : @Scalar.zero _ I.toScalar = finite 0 := by
  obtain ⟨power, apply, rfl⟩ := h.eq_withOperations
  exact Exact.zero_eq

theorem isPositive_iff {x : Exact} : OrderedScalar.isPositive x = true ↔ ∃ q, x = finite q ∧ 0 < q := by
  rw [OrderedScalar.isPositive, Bool.and_eq_true, isFinite_iff]
  constructor
  · rintro ⟨⟨q, rfl⟩, hless⟩
    rw [zero_eq, less_finite] at hless
    exact ⟨q, rfl, of_decide_eq_true hless⟩
  · rintro ⟨q, rfl, hpos⟩
    rw [zero_eq, less_finite]
    exact ⟨⟨q, rfl⟩, decide_eq_true hpos⟩

theorem toCount_ofCount (n : Nat) : OrderedScalar.toCount (OrderedScalar.ofCount n : Exact) = n := by
  obtain ⟨power, apply, rfl⟩ := h.eq_withOperations
  exact Nat.floor_natCast n

theorem add_finite : @HAdd.hAdd _ _ _ (@instHAdd _ I.toAdd) (finite q) (finite r) = finite (q + r) := by
  obtain ⟨power, apply, rfl⟩ := h.eq_withOperations
  rfl

theorem sub_finite : @HSub.hSub _ _ _ (@instHSub _ I.toSub) (finite q) (finite r) = finite (q - r) := by
  obtain ⟨power, apply, rfl⟩ := h.eq_withOperations
  exact Exact.finite_sub q r

theorem gridPoint_finite (i : Nat) :
    gridPoint (finite q) (finite r) i = finite (gridAt q r i) := by
  obtain ⟨power, apply, rfl⟩ := h.eq_withOperations
  exact gridPoint_eq q r i

theorem gridSize_finite (low high step : ℚ) : OrderedScalar.gridSize (finite low) (finite high)
    (finite step) = ⌊(high - low) / step⌋₊ + 2 := by
  obtain ⟨power, apply, rfl⟩ := h.eq_withOperations
  rfl

/-- A search finds its roots in the range. -/
theorem findRoots_within (f : Exact → Exact) {low high step gap : ℚ} (hrange : low ≤ high)
    (hstep : 0 < step) (hgap : 0 < gap) :
    ∃ roots : List ℚ, findRoots f (finite low) (finite high) ⟨finite step, finite gap⟩ =
      .ok (roots.map finite) ∧ ∀ r ∈ roots, low ≤ r ∧ r ≤ high := by
  obtain ⟨roots, hroots, hgrid⟩ := findRoots_onGrid f hrange hstep hgap
  refine ⟨roots, ?_, hgrid.inRange⟩
  obtain ⟨power, apply, rfl⟩ := h.eq_withOperations
  rw [← hroots]
  exact findRoots_withOperations power apply f _ _ _

end ExactScalar

end ImplicitCurves

import ImplicitCurves.Roots.Search

/-!
# Scans of a grid

A scan visits the points of a grid one after the other until it meets one behind the end of the
range.  The probes that a search has made so far have no influence on what it finds.
-/

namespace ImplicitCurves

open OrderedScalar

variable {α : Type} [OrderedScalar α]

/-- The scan of a range meets the first point behind its end at the given index, before the counter
runs out. -/
structure RootSearch.EndsAt (o : RootOptions α) (low high : α) (n : Nat) : Prop where
  lt : n < gridSize low high o.granularity
  inside : ∀ i < n, less high (gridPoint low o.granularity i) = false
  outside : less high (gridPoint low o.granularity n) = true

/-- The search after the visits of the first points of a grid. -/
def RootSearch.visitFirst (f : α → α) (o : RootOptions α) (low : α) (n : Nat) : RootSearch α :=
  (List.range n).foldl (fun s i => s.visit f o.maxGap (gridPoint low o.granularity i)) .initial

theorem RootSearch.visitFirst_succ (f : α → α) (o : RootOptions α) (low : α) (n : Nat) :
    visitFirst f o low (n + 1) =
      (visitFirst f o low n).visit f o.maxGap (gridPoint low o.granularity n) := by
  simp only [visitFirst, List.range_succ, List.foldl_append, List.foldl_cons, List.foldl_nil]

/-- A scan that ends visits the points in front of its end, whatever the function is. -/
theorem RootSearch.EndsAt.scan_eq {o : RootOptions α} {low high : α} {n : Nat}
    (h : EndsAt o low high n) (f : α → α) :
    initial.scan f o low high 0 = visitFirst f o low n := by
  -- by induction on the number of points that are left
  have hrest : ∀ k i, i + k = n →
      (visitFirst f o low i).scan f o low high i = visitFirst f o low n := by
    intro k
    induction k with
    | zero =>
      intro i hi
      obtain rfl : i = n := hi
      rw [scan, if_pos h.lt]
      exact if_pos h.outside
    | succ k ih =>
      intro i hi
      have hlt : i < gridSize low high o.granularity := Nat.lt_trans (by omega) h.lt
      have hinside : ¬ less high (gridPoint low o.granularity i) = true := by
        rw [h.inside i (by omega)]
        exact Bool.false_ne_true
      rw [scan, if_pos hlt]
      refine (if_neg hinside).trans ?_
      rw [← visitFirst_succ]
      exact ih (i + 1) (by omega)
  exact hrest n 0 (Nat.zero_add n)

section Visit

variable {f : α → α} {gap x : α} {s : RootSearch α}

theorem RootSearch.visit_of_not_isFinite (h : isFinite (f x) = false) :
    s.visit f gap x = ⟨s.roots, x :: s.probes, none⟩ := by
  simp only [visit, h, Bool.not_false, if_true]

theorem RootSearch.visit_of_isZero (h : isFinite (f x) = true) (hzero : isZero (f x) = true) :
    s.visit f gap x = ⟨x :: s.roots, x :: s.probes, some (x, f x)⟩ := by
  simp only [visit, h, hzero, Bool.not_true, Bool.false_eq_true, if_true, if_false]

/-- The last probe on the grid with its value, if that is not zero and has another sign than the given
one. -/
def RootSearch.opposite? (s : RootSearch α) (y : α) : Option (α × α) :=
  s.previous.filter fun previous =>
    !isZero previous.2 && isBelowZero previous.2 != isBelowZero y

/-- Where the function is not zero, the search looks for a root between the last probe and the point,
if the signs are opposite. -/
theorem RootSearch.visit_of_not_isZero (gap : α) (s : RootSearch α) (h : isFinite (f x) = true)
    (hzero : isZero (f x) = false) :
    (s.visit f gap x).previous = some (x, f x) ∧
      (s.visit f gap x).roots = ((s.opposite? (f x)).bind fun previous =>
        (bisect f gap ⟨previous.1, x, previous.2, f x⟩ (x :: s.probes)).1).toList ++ s.roots := by
  simp only [visit, h, hzero, Bool.not_true, Bool.false_eq_true, if_false, opposite?]
  cases s.previous with
  | none => exact ⟨rfl, rfl⟩
  | some previous =>
    obtain ⟨x', y'⟩ := previous
    simp only [Option.filter_some]
    split
    · exact ⟨rfl, rfl⟩
    · exact ⟨rfl, rfl⟩

end Visit

theorem narrow_probes (f : α → α) (gap : α) (rising : Bool) (tries : Nat) (b : Bracket α)
    (probes probes' : List α) :
    (narrow f gap rising tries b probes).zero? = (narrow f gap rising tries b probes').zero? ∧
      (narrow f gap rising tries b probes).bracket =
        (narrow f gap rising tries b probes').bracket := by
  induction tries generalizing b probes probes' with
  | zero => exact ⟨rfl, rfl⟩
  | succ tries ih =>
    simp only [narrow]
    split
    · exact ⟨rfl, rfl⟩
    · split
      · exact ⟨rfl, rfl⟩
      · split
        · exact ⟨rfl, rfl⟩
        · exact ih _ _ _

/-- What bisection finds does not depend on the probes made before. -/
theorem bisect_probes (f : α → α) (gap : α) (b : Bracket α) (probes probes' : List α) :
    (bisect f gap b probes).1 = (bisect f gap b probes').1 := by
  obtain ⟨hzero, hbracket⟩ :=
    narrow_probes f gap (less Scalar.zero b.rightValue) maxHalvings b probes probes'
  simp only [bisect, hzero, hbracket]
  split <;> rfl

end ImplicitCurves

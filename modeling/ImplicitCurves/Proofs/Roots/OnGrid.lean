import ImplicitCurves.Proofs.Roots.Scan
import ImplicitCurves.Proofs.Scalar.Exact

/-!
# The roots on a grid

What the search finds, read over exact scalars: the zeros among the points of the grid, and at most
one root strictly inside each cell of the grid, where the function changes its sign.  Main statement:
`findRoots_onGrid`.
-/

namespace ImplicitCurves

open OrderedScalar

namespace Exact

/-- Two finite values of opposite signs, neither of which is zero. -/
def OppositeSigns (x y : Exact) : Prop :=
  ∃ q r, x = finite q ∧ y = finite r ∧ (q < 0 ∧ 0 < r ∨ r < 0 ∧ 0 < q)

theorem opposite_finite {q r : ℚ} (hq : q ≠ 0) (hr : r ≠ 0) :
    OppositeSigns (finite q) (finite r) ↔ decide (q < 0) ≠ decide (r < 0) := by
  have hsigns : OppositeSigns (finite q) (finite r) ↔ (q < 0 ∧ 0 < r ∨ r < 0 ∧ 0 < q) := by
    simp [OppositeSigns]
  rw [hsigns]
  rcases lt_or_gt_of_ne hq with hq | hq <;> rcases lt_or_gt_of_ne hr with hr | hr <;>
    simp [hq, hr, hq.not_gt, hr.not_gt]

/-- The number of a finite value. -/
def toRat? : Exact → Option ℚ
  | finite q => some q
  | _ => none

end Exact

open Exact (finite OppositeSigns)

/-! ### Bisection -/

section Bisection

variable (f : Exact → Exact) (gap : Exact)

/-- Narrowing stays within the range, and leaves one that is not empty; where it finds a zero, this
lies strictly inside. -/
theorem narrow_within (rising : Bool) (tries : Nat) (probes : List Exact) {b : Bracket Exact}
    {l r : ℚ} (hleft : b.left = finite l) (hright : b.right = finite r) (hlr : l < r) :
    (∃ l' r', l ≤ l' ∧ l' < r' ∧ r' ≤ r ∧
      (narrow f gap rising tries b probes).bracket.left = finite l' ∧
        (narrow f gap rising tries b probes).bracket.right = finite r') ∧
      ∀ x, (narrow f gap rising tries b probes).zero? = some x → ∃ m, x = finite m ∧ l < m ∧ m < r := by
  induction tries generalizing b l r probes with
  | zero => exact ⟨⟨l, r, le_rfl, hlr, le_rfl, hleft, hright⟩, fun x hx => by cases hx⟩
  | succ tries ih =>
    have hstay : (∃ l' r', l ≤ l' ∧ l' < r' ∧ r' ≤ r ∧ b.left = finite l' ∧ b.right = finite r') :=
      ⟨l, r, le_rfl, hlr, le_rfl, hleft, hright⟩
    have hmiddle : b.middle = finite ((l + r) / 2) := by
      rw [Bracket.middle, hleft, hright, Exact.finite_add, Exact.ofFloat_two,
        Exact.finite_div _ _ two_ne_zero]
    have hlm : l < (l + r) / 2 := by linarith
    have hmr : (l + r) / 2 < r := by linarith
    simp only [narrow]
    split
    · exact ⟨hstay, fun x hx => by cases hx⟩
    · split
      · exact ⟨hstay, fun x hx => by cases hx⟩
      · split
        · refine ⟨hstay, fun x hx => ?_⟩
          cases hx
          exact ⟨_, hmiddle, hlm, hmr⟩
        · rw [Bracket.half]
          split
          · obtain ⟨⟨l', r', hl, hlr', hr, hends⟩, hzero⟩ :=
              ih (b := { b with left := b.middle, leftValue := f b.middle }) (b.middle :: probes)
                hmiddle hright hmr
            refine ⟨⟨l', r', by linarith, hlr', hr, hends⟩, fun x hx => ?_⟩
            obtain ⟨m, hm, hlow, hhigh⟩ := hzero x hx
            exact ⟨m, hm, by linarith, hhigh⟩
          · obtain ⟨⟨l', r', hl, hlr', hr, hends⟩, hzero⟩ :=
              ih (b := { b with right := b.middle, rightValue := f b.middle }) (b.middle :: probes)
                hleft hmiddle hlm
            refine ⟨⟨l', r', hl, hlr', by linarith, hends⟩, fun x hx => ?_⟩
            obtain ⟨m, hm, hlow, hhigh⟩ := hzero x hx
            exact ⟨m, hm, hlow, by linarith⟩

/-- A root that bisection finds lies strictly inside of the bracket. -/
theorem bisect_within (probes : List Exact) {b : Bracket Exact} {l r : ℚ}
    (hleft : b.left = finite l) (hright : b.right = finite r) (hlr : l < r) :
    ∀ x, (bisect f gap b probes).1 = some x → ∃ m, x = finite m ∧ l < m ∧ m < r := by
  obtain ⟨⟨l', r', hl, hlr', hr, hleft', hright'⟩, hzero⟩ := narrow_within f gap
    (less Scalar.zero b.rightValue) maxHalvings probes hleft hright hlr
  intro x hx
  rw [bisect] at hx
  split at hx
  · next root hroot =>
    cases hx
    exact hzero _ hroot
  · split at hx
    · cases hx
      refine ⟨(l' + r') / 2, ?_, by linarith, by linarith⟩
      rw [Bracket.middle, hleft', hright', Exact.finite_add, Exact.ofFloat_two,
        Exact.finite_div _ _ two_ne_zero]
    · cases hx

end Bisection

/-! ### The grid -/

section Grid

variable (f : Exact → Exact) (low high step gap : ℚ)

/-- The point of the grid with the given index. -/
def gridAt (i : Nat) : ℚ :=
  low + i * step

/-- The cell of the grid between two neighbouring points, with the values there. -/
def gridCell (i : Nat) : Bracket Exact :=
  ⟨finite (gridAt low step i), finite (gridAt low step (i + 1)), f (finite (gridAt low step i)),
    f (finite (gridAt low step (i + 1)))⟩

/-- The function changes its sign in a cell: at both ends it is finite and not zero, and the signs
are different. -/
def ChangesSign (i : Nat) : Prop :=
  OppositeSigns (f (finite (gridAt low step i))) (f (finite (gridAt low step (i + 1))))

/-- The root that bisection finds in a cell. -/
def cellRoot? (i : Nat) : Option ℚ :=
  (bisect f (finite gap) (gridCell f low step i) []).1.bind Exact.toRat?

open Classical in
/-- The root in the cell in front of a point of the grid, if there is a cell. -/
noncomputable def rootBefore? : Nat → Option ℚ
  | 0 => none
  | i + 1 => if ChangesSign f low step i then cellRoot? f low step gap i else none

/-- The roots that the visit of a point of the grid adds: the point itself, or a root in the cell in
front of it. -/
noncomputable def rootsAt (i : Nat) : List ℚ :=
  if f (finite (gridAt low step i)) = finite 0 then [gridAt low step i]
  else (rootBefore? f low step gap i).toList

/-- What a search remembers of the points in front of the given one. -/
def previousAt : Nat → Option (Exact × Exact)
  | 0 => none
  | i + 1 =>
    if isFinite (f (finite (gridAt low step i))) then
      some (finite (gridAt low step i), f (finite (gridAt low step i)))
    else none

theorem gridPoint_eq (i : Nat) :
    gridPoint (finite low) (finite step) i = finite (gridAt low step i) := by
  simp only [gridPoint, gridAt, Exact.ofCount_eq, Exact.finite_mul, Exact.finite_add]

variable {f low high step gap}

theorem gridAt_lt (hstep : 0 < step) {i j : Nat} (h : i < j) :
    gridAt low step i < gridAt low step j := by
  have hij : (i : ℚ) < j := Nat.cast_lt.2 h
  unfold gridAt
  nlinarith

theorem gridAt_le (hstep : 0 < step) {i j : Nat} (h : i ≤ j) :
    gridAt low step i ≤ gridAt low step j := by
  rcases Nat.eq_or_lt_of_le h with rfl | h
  · exact le_rfl
  · exact (gridAt_lt hstep h).le

/-- The points of the grid in the range are those up to the number of steps that fit into it. -/
theorem gridAt_le_iff (hrange : low ≤ high) (hstep : 0 < step) (i : Nat) :
    gridAt low step i ≤ high ↔ i ≤ ⌊(high - low) / step⌋₊ := by
  rw [Nat.le_floor_iff (div_nonneg (sub_nonneg.2 hrange) hstep.le), le_div_iff₀ hstep, gridAt]
  constructor <;> intro h <;> linarith

theorem endsAt_exact (hrange : low ≤ high) (hstep : 0 < step) :
    RootSearch.EndsAt ⟨finite step, finite gap⟩ (finite low) (finite high)
      (⌊(high - low) / step⌋₊ + 1) where
  lt := Nat.lt_succ_self _
  inside i hi := by
    rw [gridPoint_eq, Exact.less_finite, decide_eq_false_iff_not, not_lt]
    exact (gridAt_le_iff hrange hstep i).2 (by omega)
  outside := by
    rw [gridPoint_eq, Exact.less_finite, decide_eq_true_eq, ← not_le, gridAt_le_iff hrange hstep]
    omega

/-- A root that bisection finds in a cell lies strictly inside of it. -/
theorem cellRoot?_within (hstep : 0 < step) {i : Nat} {r : ℚ}
    (h : cellRoot? f low step gap i = some r) :
    gridAt low step i < r ∧ r < gridAt low step (i + 1) := by
  obtain ⟨x, hx, hr⟩ := Option.bind_eq_some_iff.1 h
  obtain ⟨m, rfl, hm⟩ :=
    bisect_within f (finite gap) [] rfl rfl (gridAt_lt hstep (Nat.lt_succ_self i)) x hx
  obtain rfl := Option.some.inj hr
  exact hm

theorem bisect_gridCell (hstep : 0 < step) (i : Nat) (probes : List Exact) :
    (bisect f (finite gap) (gridCell f low step i) probes).1 =
      (cellRoot? f low step gap i).map finite := by
  rw [bisect_probes f (finite gap) _ probes [], cellRoot?]
  cases h : (bisect f (finite gap) (gridCell f low step i) []).1 with
  | none => rfl
  | some x =>
    obtain ⟨m, rfl, -⟩ :=
      bisect_within f (finite gap) [] rfl rfl (gridAt_lt hstep (Nat.lt_succ_self i)) x h
    rfl

/-! ### The visits -/

theorem ChangesSign.isFinite {i : Nat} (h : ChangesSign f low step i) :
    isFinite (f (finite (gridAt low step i))) = true ∧
      isFinite (f (finite (gridAt low step (i + 1)))) = true := by
  obtain ⟨q, r, hq, hr, -⟩ := h
  exact ⟨Exact.isFinite_iff.2 ⟨q, hq⟩, Exact.isFinite_iff.2 ⟨r, hr⟩⟩

theorem rootsAt_of_not_isFinite {i : Nat}
    (h : isFinite (f (finite (gridAt low step i))) = false) : rootsAt f low step gap i = [] := by
  have hnone : rootBefore? f low step gap i = none := by
    cases i with
    | zero => rfl
    | succ i =>
      refine if_neg fun hsign => ?_
      rw [hsign.isFinite.2] at h
      cases h
  have hzero : f (finite (gridAt low step i)) ≠ finite 0 := by
    intro hzero
    rw [hzero] at h
    cases h
  rw [rootsAt, if_neg hzero, hnone]
  rfl

/-- Where the function is finite and not zero, the search looks back just if the function changes its
sign. -/
theorem opposite?_eq {s : RootSearch Exact} {i : Nat} {y : ℚ}
    (hs : s.previous = previousAt f low step (i + 1))
    (hy : f (finite (gridAt low step (i + 1))) = finite y) (hne : y ≠ 0) :
    (ChangesSign f low step i → s.opposite? (finite y) =
        some (finite (gridAt low step i), f (finite (gridAt low step i)))) ∧
      (¬ ChangesSign f low step i → s.opposite? (finite y) = none) := by
  rw [RootSearch.opposite?, hs, previousAt, ChangesSign, hy]
  by_cases hfinite : isFinite (f (finite (gridAt low step i))) = true
  · obtain ⟨y', hy'⟩ := Exact.isFinite_iff.1 hfinite
    rw [if_pos hfinite, hy', Option.filter_some, Exact.isBelowZero_finite, Exact.isBelowZero_finite]
    by_cases hzero : y' = 0
    · subst hzero
      have hsame : ¬ OppositeSigns (finite 0) (finite y) := by
        simp [OppositeSigns]
      simp [hsame]
    · have hnot : isZero (finite y') = false := by
        simpa [← Bool.not_eq_true] using hzero
      simp [Exact.opposite_finite hzero hne, hnot]
  · have hsign : ¬ OppositeSigns (f (finite (gridAt low step i))) (finite y) := by
      rintro ⟨q, -, hq, -⟩
      exact hfinite (Exact.isFinite_iff.2 ⟨q, hq⟩)
    rw [if_neg hfinite]
    exact ⟨fun h => absurd h hsign, fun _ => rfl⟩

/-- The visit of a point adds its roots, and remembers the point if the value there is finite. -/
theorem visit_gridAt (gap : ℚ) (hstep : 0 < step) {s : RootSearch Exact} {i : Nat}
    (hs : s.previous = previousAt f low step i) :
    (s.visit f (finite gap) (finite (gridAt low step i))).roots =
        (rootsAt f low step gap i).map finite ++ s.roots ∧
      (s.visit f (finite gap) (finite (gridAt low step i))).previous =
        previousAt f low step (i + 1) := by
  cases hfinite : isFinite (f (finite (gridAt low step i))) with
  | false =>
    rw [RootSearch.visit_of_not_isFinite hfinite, rootsAt_of_not_isFinite hfinite, previousAt, hfinite]
    exact ⟨rfl, rfl⟩
  | true =>
    obtain ⟨y, hy⟩ := Exact.isFinite_iff.1 hfinite
    rw [previousAt, if_pos hfinite]
    cases hzero : isZero (f (finite (gridAt low step i))) with
    | true =>
      rw [RootSearch.visit_of_isZero hfinite hzero, rootsAt, if_pos (Exact.isZero_iff.1 hzero)]
      exact ⟨rfl, rfl⟩
    | false =>
      have hne : f (finite (gridAt low step i)) ≠ finite 0 := by
        intro h
        rw [Exact.isZero_iff.2 h] at hzero
        cases hzero
      obtain ⟨hprevious, hroots⟩ :=
        RootSearch.visit_of_not_isZero (finite gap) s hfinite hzero
      refine ⟨hroots.trans ?_, hprevious⟩
      rw [rootsAt, if_neg hne]
      congr 1
      cases i with
      | zero =>
        rw [RootSearch.opposite?, hs]
        rfl
      | succ i =>
        obtain ⟨hlooks, hskips⟩ := opposite?_eq hs hy fun h => hne (h ▸ hy)
        rw [rootBefore?]
        rw [← hy] at hlooks hskips
        split
        · next hsign =>
          have hfound : (bisect f (finite gap) (gridCell f low step i)
              (finite (gridAt low step (i + 1)) :: s.probes)).1 =
                (cellRoot? f low step gap i).map finite :=
            bisect_gridCell hstep i _
          rw [hlooks hsign, Option.bind_some]
          refine (congrArg Option.toList hfound).trans ?_
          cases cellRoot? f low step gap i <;> rfl
        · next hsign =>
          rw [hskips hsign]
          rfl

theorem reverse_rootsAt (i : Nat) :
    (rootsAt f low step gap i).reverse = rootsAt f low step gap i := by
  rw [rootsAt]
  split
  · rfl
  · cases rootBefore? f low step gap i <;> rfl

/-- After the visits of the first points the search has their roots. -/
theorem visitFirst_exact (hstep : 0 < step) (n : Nat) :
    (RootSearch.visitFirst f ⟨finite step, finite gap⟩ (finite low) n).roots.reverse =
        ((List.range n).flatMap (rootsAt f low step gap)).map finite ∧
      (RootSearch.visitFirst f ⟨finite step, finite gap⟩ (finite low) n).previous =
        previousAt f low step n := by
  induction n with
  | zero => exact ⟨rfl, rfl⟩
  | succ n ih =>
    obtain ⟨hroots, hprevious⟩ := visit_gridAt gap hstep ih.2
    rw [RootSearch.visitFirst_succ, gridPoint_eq]
    refine ⟨?_, hprevious⟩
    rw [hroots, List.reverse_append, ih.1, ← List.map_reverse, reverse_rootsAt, List.range_succ,
      List.flatMap_append, List.flatMap_singleton, List.map_append]

/-! ### The roots -/

theorem mem_rootBefore? {i : Nat} {r : ℚ} : rootBefore? f low step gap i = some r ↔
    ∃ j, i = j + 1 ∧ ChangesSign f low step j ∧ cellRoot? f low step gap j = some r := by
  cases i with
  | zero => simp [rootBefore?]
  | succ i => simp [rootBefore?]

theorem ChangesSign.ne_zero {i : Nat} (h : ChangesSign f low step i) :
    f (finite (gridAt low step (i + 1))) ≠ finite 0 := by
  obtain ⟨q, r, -, hr, hsigns⟩ := h
  rw [hr]
  intro hzero
  obtain rfl := Exact.finite.inj hzero
  rcases hsigns with ⟨-, h⟩ | ⟨h, -⟩ <;> exact lt_irrefl _ h

theorem mem_rootsAt {i : Nat} {r : ℚ} : r ∈ rootsAt f low step gap i ↔
    (r = gridAt low step i ∧ f (finite (gridAt low step i)) = finite 0) ∨
      ∃ j, i = j + 1 ∧ ChangesSign f low step j ∧ cellRoot? f low step gap j = some r := by
  rw [rootsAt]
  split
  · next hzero =>
    have hno : ¬ ∃ j, i = j + 1 ∧ ChangesSign f low step j ∧ cellRoot? f low step gap j = some r := by
      rintro ⟨j, rfl, hsign, -⟩
      exact hsign.ne_zero hzero
    simp [hzero, hno]
  · next hzero => simp [hzero, mem_rootBefore?]

/-- A root that the visit of a point adds lies behind the point before. -/
theorem rootsAt_bounds (hstep : 0 < step) {i : Nat} {r : ℚ} (h : r ∈ rootsAt f low step gap i) :
    r ≤ gridAt low step i ∧ ∀ j < i, gridAt low step j < r := by
  rcases mem_rootsAt.1 h with ⟨rfl, -⟩ | ⟨k, rfl, -, hroot⟩
  · exact ⟨le_rfl, fun j hj => gridAt_lt hstep hj⟩
  · obtain ⟨hleft, hright⟩ := cellRoot?_within hstep hroot
    exact ⟨hright.le, fun j hj => lt_of_le_of_lt (gridAt_le hstep (Nat.le_of_lt_succ hj)) hleft⟩

variable (f low high step gap) in
/-- The roots that the visits of all points in a range add. -/
noncomputable def gridRoots : List ℚ :=
  (List.range (⌊(high - low) / step⌋₊ + 1)).flatMap (rootsAt f low step gap)

theorem mem_gridRoots (hrange : low ≤ high) (hstep : 0 < step) {r : ℚ} :
    r ∈ gridRoots f low high step gap ↔
      ∃ i, gridAt low step i ≤ high ∧ r ∈ rootsAt f low step gap i := by
  simp only [gridRoots, List.mem_flatMap, List.mem_range, gridAt_le_iff hrange hstep,
    Nat.lt_succ_iff]

theorem pairwise_gridRoots (hstep : 0 < step) :
    (gridRoots f low high step gap).Pairwise (· < ·) := by
  rw [gridRoots, List.pairwise_flatMap]
  refine ⟨fun i _ => ?_, List.pairwise_lt_range.imp fun {i j} hij r hr r' hr' => ?_⟩
  · rw [rootsAt]
    split
    · exact List.pairwise_singleton _ _
    · cases rootBefore? f low step gap i with
      | none => exact List.Pairwise.nil
      | some r => exact List.pairwise_singleton _ _
  · exact lt_of_le_of_lt (rootsAt_bounds hstep hr).1 ((rootsAt_bounds hstep hr').2 i hij)

/-- A point of the grid is found just if it is a zero. -/
theorem gridAt_mem_gridRoots (hrange : low ≤ high) (hstep : 0 < step) {i : Nat}
    (hi : gridAt low step i ≤ high) : gridAt low step i ∈ gridRoots f low high step gap ↔
      f (finite (gridAt low step i)) = finite 0 := by
  rw [mem_gridRoots hrange hstep]
  constructor
  · rintro ⟨j, -, hj⟩
    obtain ⟨hle, hlt⟩ := rootsAt_bounds hstep hj
    rcases mem_rootsAt.1 hj with ⟨heq, hzero⟩ | ⟨k, rfl, -, hroot⟩
    · rw [heq, hzero]
    · -- a root inside of a cell is no point of the grid
      obtain ⟨hleft, hright⟩ := cellRoot?_within hstep hroot
      rcases Nat.lt_or_ge k i with hki | hik
      · exact absurd hright (not_lt.2 (gridAt_le hstep hki))
      · exact absurd hleft (not_lt.2 (gridAt_le hstep hik))
  · exact fun hzero => ⟨i, hi, mem_rootsAt.2 (.inl ⟨rfl, hzero⟩)⟩

/-- Strictly inside of a cell that root is found that bisection finds there, if the function changes
its sign. -/
theorem mem_cell_gridRoots (hrange : low ≤ high) (hstep : 0 < step) {i : Nat} {r : ℚ} :
    (r ∈ gridRoots f low high step gap ∧ gridAt low step i < r ∧ r < gridAt low step (i + 1)) ↔
      (gridAt low step (i + 1) ≤ high ∧ ChangesSign f low step i ∧
        cellRoot? f low step gap i = some r) := by
  rw [mem_gridRoots hrange hstep]
  constructor
  · rintro ⟨⟨j, hj, hrj⟩, hleft, hright⟩
    obtain ⟨hle, hlt⟩ := rootsAt_bounds hstep hrj
    have hji : j = i + 1 := by
      refine Nat.le_antisymm (Nat.le_of_not_lt fun h => ?_) (Nat.le_of_not_lt fun h => ?_)
      · exact lt_asymm hright (hlt (i + 1) h)
      · exact not_lt.2 (gridAt_le hstep (Nat.le_of_lt_succ h)) (lt_of_lt_of_le hleft hle)
    subst hji
    rcases mem_rootsAt.1 hrj with ⟨rfl, -⟩ | ⟨k, hk, hsign, hroot⟩
    · exact absurd hright (lt_irrefl _)
    · obtain rfl := Nat.succ.inj hk
      exact ⟨hj, hsign, hroot⟩
  · rintro ⟨hi, hsign, hroot⟩
    exact ⟨⟨i + 1, hi, mem_rootsAt.2 (.inr ⟨i, rfl, hsign, hroot⟩)⟩, cellRoot?_within hstep hroot⟩

/-- The roots that a search finds on a grid: they ascend and lie in the range; of the points of the
grid they are the zeros, each once; and all others lie strictly inside of cells where the function
changes its sign, in each of them the one that bisection accepts. -/
structure RootsOnGrid (f : Exact → Exact) (low high step gap : ℚ) (roots : List ℚ) : Prop where
  ascending : roots.Pairwise (· < ·)
  inRange : ∀ r ∈ roots, low ≤ r ∧ r ≤ high
  zeros : ∀ i, gridAt low step i ≤ high → roots.count (gridAt low step i) =
    if f (finite (gridAt low step i)) = finite 0 then 1 else 0
  inCell : ∀ r ∈ roots, (∀ i, r ≠ gridAt low step i) → ∃ i, gridAt low step (i + 1) ≤ high ∧
    gridAt low step i < r ∧ r < gridAt low step (i + 1)
  cells : ∀ i, gridAt low step (i + 1) ≤ high → ∀ r,
    (r ∈ roots ∧ gridAt low step i < r ∧ r < gridAt low step (i + 1)) ↔
      (ChangesSign f low step i ∧
        (bisect f (finite gap) (gridCell f low step i) []).1 = some (finite r))
  accepted : ∀ i, gridAt low step (i + 1) ≤ high → ChangesSign f low step i →
    ((bisect f (finite gap) (gridCell f low step i) []).1.isSome = true ↔
      ∃ r ∈ roots, gridAt low step i < r ∧ r < gridAt low step (i + 1))
  single : ∀ i, ∀ r ∈ roots, ∀ r' ∈ roots, gridAt low step i < r → r < gridAt low step (i + 1) →
    gridAt low step i < r' → r' < gridAt low step (i + 1) → r = r'

theorem rootsOnGrid (hrange : low ≤ high) (hstep : 0 < step) :
    RootsOnGrid f low high step gap (gridRoots f low high step gap) where
  ascending := pairwise_gridRoots hstep
  inRange r hr := by
    obtain ⟨i, hi, hri⟩ := (mem_gridRoots hrange hstep).1 hr
    obtain ⟨hle, hlt⟩ := rootsAt_bounds hstep hri
    have hlow : gridAt low step 0 = low := by simp [gridAt]
    refine ⟨?_, hle.trans hi⟩
    cases i with
    | zero =>
      rcases mem_rootsAt.1 hri with ⟨rfl, -⟩ | ⟨j, hj, -⟩
      · exact hlow.ge
      · exact absurd hj (Nat.succ_ne_zero j).symm
    | succ i => exact hlow ▸ (hlt 0 (Nat.succ_pos i)).le
  zeros i hi := by
    have hnodup : (gridRoots f low high step gap).Nodup :=
      (pairwise_gridRoots hstep).imp fun h => ne_of_lt h
    rw [hnodup.count]
    simp only [gridAt_mem_gridRoots hrange hstep hi]
  inCell r hr hoff := by
    obtain ⟨i, hi, hri⟩ := (mem_gridRoots hrange hstep).1 hr
    rcases mem_rootsAt.1 hri with ⟨heq, -⟩ | ⟨j, rfl, -, hroot⟩
    · exact absurd heq (hoff i)
    · exact ⟨j, hi, cellRoot?_within hstep hroot⟩
  cells i hi r := by
    rw [mem_cell_gridRoots hrange hstep, bisect_gridCell hstep]
    simp [hi]
  accepted i hi hsign := by
    rw [bisect_gridCell hstep, Option.isSome_map, Option.isSome_iff_exists]
    constructor
    · rintro ⟨r, hr⟩
      exact ⟨r, (mem_cell_gridRoots hrange hstep).2 ⟨hi, hsign, hr⟩⟩
    · rintro ⟨r, hr⟩
      exact ⟨r, ((mem_cell_gridRoots hrange hstep).1 hr).2.2⟩
  single i r hr r' hr' hleft hright hleft' hright' := by
    have hroot := ((mem_cell_gridRoots hrange hstep).1 ⟨hr, hleft, hright⟩).2.2
    have hroot' := ((mem_cell_gridRoots hrange hstep).1 ⟨hr', hleft', hright'⟩).2.2
    exact Option.some.inj (hroot.symm.trans hroot')

/-- A search over exact scalars finds the roots on its grid, whatever the function is. -/
theorem findRoots_onGrid (f : Exact → Exact) {low high step gap : ℚ} (hrange : low ≤ high)
    (hstep : 0 < step) (hgap : 0 < gap) :
    ∃ roots : List ℚ, findRoots f (finite low) (finite high) ⟨finite step, finite gap⟩ =
      .ok (roots.map finite) ∧ RootsOnGrid f low high step gap roots := by
  have hvalid : RootOptions.fault? ⟨finite step, finite gap⟩ (finite low) (finite high) = none := by
    simp [RootOptions.fault?, hstep, hgap, hrange]
  have hends : RootSearch.EndsAt ⟨finite step, finite gap⟩ (finite low) (finite high) _ :=
    endsAt_exact hrange hstep
  refine ⟨gridRoots f low high step gap, ?_, rootsOnGrid hrange hstep⟩
  simp only [findRoots, searchRoots, hvalid, Except.map, hends.scan_eq f,
    (visitFirst_exact hstep _).1]
  rfl

/-- The identity is searched from minus one to one in steps of a half. -/
theorem findRoots_onGrid_identity : (-1 : ℚ) ≤ 1 ∧ (0 : ℚ) < 1 / 2 ∧ (0 : ℚ) < 1 / 10000 ∧
    ∃ roots : List ℚ, findRoots id (finite (-1)) (finite 1) ⟨finite (1 / 2), finite (1 / 10000)⟩ =
      .ok (roots.map finite) ∧ RootsOnGrid id (-1) 1 (1 / 2) (1 / 10000) roots :=
  ⟨by norm_num, by norm_num, by norm_num,
    findRoots_onGrid id (by norm_num) (by norm_num) (by norm_num)⟩

end Grid

end ImplicitCurves

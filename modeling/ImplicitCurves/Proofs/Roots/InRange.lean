import ImplicitCurves.Proofs.Roots.Bisection
import ImplicitCurves.Proofs.Scalar.Quotients

/-!
# Where roots are

A search over doubles only probes doubles of its range.  A root is such a double, or the middle of two
of them, which bisection does not probe.  The middle is in the range too, unless the sum of the two is
too large: then the root is infinite.  Main statement: `findRoots_inRange`.
-/

namespace ImplicitCurves

open OrderedScalar Binary64

/-- A double of the range, or a sum of two of them that is too large. -/
def RootSearch.Placed (low high root : Float) : Prop :=
  Within low high root ∨
    root.isFinite = false ∧ ∃ x y, Within low high x ∧ Within low high y ∧ x + y = root

/-- Both ends of the bracket are in the range. -/
structure Bracket.Inside (low high : Float) (b : Bracket Float) : Prop where
  left : Within low high b.left
  right : Within low high b.right

/-- The roots that were found so far are placed in the range, and the last probe on the grid is in it. -/
structure RootSearch.Inside (low high : Float) (s : RootSearch Float) : Prop where
  roots : ∀ root ∈ s.roots, Placed low high root
  previous : ∀ x y, s.previous = some (x, y) → Within low high x

section Range

variable {f : Float → Float} {low high gap root : Float} (hlow : low.isFinite = true)
  (hhigh : high.isFinite = true)

/-! ### Bisection -/

section Bisection

variable {b : Bracket Float}

/-- A middle that lies strictly inside of the bracket is in the range, even where rounding moves it. -/
theorem Bracket.Inside.within_middle (h : b.Inside low high) (hdivided : b.Divided) :
    Within low high b.middle :=
  ⟨Binary64.le_trans h.left.1 (Binary64.le_of_lt hdivided.1),
    Binary64.le_trans (Binary64.le_of_lt hdivided.2) h.right.2⟩

theorem Bracket.Inside.half (h : b.Inside low high) (hdivided : b.Divided) (rising : Bool)
    (value : Float) : (b.half rising value).Inside low high := by
  unfold Bracket.half
  split
  · exact ⟨h.within_middle hdivided, h.right⟩
  · exact ⟨h.left, h.within_middle hdivided⟩

include hlow hhigh

theorem Bracket.Inside.isNumber_middle (h : b.Inside low high) : IsNumber b.middle := by
  have hleft := isFinite_of_within hlow hhigh h.left
  have hright := isFinite_of_within hlow hhigh h.right
  exact isNumber_half (isNumber_sum (.of_isFinite hleft) (.of_isFinite hright) (.inl hleft))

/-- The middle of a bracket in the range is in the range, unless the sum of its ends is too large. -/
theorem Bracket.Inside.placed_middle (h : b.Inside low high) :
    RootSearch.Placed low high b.middle := by
  have hleft := isFinite_of_within hlow hhigh h.left
  have hright := isFinite_of_within hlow hhigh h.right
  cases hsum : (b.left + b.right).isFinite with
  | true =>
    exact .inl ⟨le_middle hleft hright hsum h.left.1 h.right.1,
      middle_le hleft hright hsum h.left.2 h.right.2⟩
  | false =>
    have hmiddle : b.middle = b.left + b.right :=
      half_of_not_isFinite (isNumber_add hleft (.of_isFinite hright)) hsum
    rw [hmiddle]
    exact .inr ⟨hsum, b.left, b.right, h.left, h.right, rfl⟩

variable (f gap) in
/-- Narrowing keeps a bracket in the range, and the zero that it may meet is in the range. -/
theorem narrow_inside (rising : Bool) (tries : Nat) (probes : List Float) (h : b.Inside low high) :
    (narrow f gap rising tries b probes).bracket.Inside low high ∧
      ∀ root, (narrow f gap rising tries b probes).zero? = some root → Within low high root := by
  induction tries generalizing b probes with
  | zero => exact ⟨h, fun root hroot => by cases hroot⟩
  | succ tries ih =>
    simp only [narrow]
    split
    · exact ⟨h, fun root hroot => by cases hroot⟩
    · split
      · exact ⟨h, fun root hroot => by cases hroot⟩
      · next hmiddle =>
        have hleft := isFinite_of_within hlow hhigh h.left
        have hright := isFinite_of_within hlow hhigh h.right
        have hdivided : b.Divided := by
          by_contra hno
          exact hmiddle ((Bracket.divided_iff (.of_isFinite hleft) (.of_isFinite hright)
            (h.isNumber_middle hlow hhigh)).2 hno)
        split
        · refine ⟨h, fun root hroot => ?_⟩
          obtain rfl := Option.some.inj hroot
          exact h.within_middle hdivided
        · exact ih _ (h.half hdivided _ _)

theorem bisect_placed {probes : List Float} (h : b.Inside low high)
    (hroot : (bisect f gap b probes).1 = some root) : RootSearch.Placed low high root := by
  obtain ⟨hbracket, hzero⟩ := narrow_inside f gap hlow hhigh (less Scalar.zero b.rightValue)
    maxHalvings probes h
  cases hfound : (narrow f gap (less Scalar.zero b.rightValue) maxHalvings b probes).zero? with
  | some x =>
    obtain rfl := Option.some.inj ((bisect_of_zero hfound).symm.trans hroot)
    exact .inl (hzero _ hfound)
  | none =>
    obtain ⟨-, rfl⟩ := (bisect_of_none hfound rfl).1 hroot
    exact hbracket.placed_middle hlow hhigh

end Bisection

/-! ### The scan -/

namespace RootSearch

variable {o : RootOptions Float} {s : RootSearch Float} {x : Float}

include hlow hhigh in
/-- A visit of a point of the range finds roots in it, and remembers no other point. -/
theorem Inside.visit (h : s.Inside low high) (hx : Within low high x) :
    (s.visit f gap x).Inside low high := by
  cases hfinite : isFinite (f x) with
  | false =>
    rw [visit_of_not_isFinite hfinite]
    exact ⟨h.roots, fun _ _ hprevious => by cases hprevious⟩
  | true =>
    cases hzero : isZero (f x) with
    | true =>
      rw [visit_of_isZero hfinite hzero]
      refine ⟨List.forall_mem_cons.2 ⟨.inl hx, h.roots⟩, fun x' y hprevious => ?_⟩
      cases hprevious
      exact hx
    | false =>
      obtain ⟨hprevious, hroots⟩ := visit_of_not_isZero gap s hfinite hzero
      refine ⟨?_, fun x' y heq => ?_⟩
      · rw [hroots]
        intro root hroot
        rcases List.mem_append.1 hroot with hnew | hold
        · obtain ⟨⟨x', y'⟩, hopposite, hfound⟩ :=
            Option.bind_eq_some_iff.1 (Option.mem_toList.1 hnew)
          have hcell : Bracket.Inside low high ⟨x', x, y', f x⟩ :=
            ⟨h.previous x' y' (Option.filter_eq_some_iff.1 hopposite).1, hx⟩
          exact bisect_placed hlow hhigh hcell hfound
        · exact h.roots root hold
      · rw [hprevious] at heq
        cases heq
        exact hx

/-- A scan with accepted options only finds roots that are placed in the range. -/
theorem Inside.scan (h : o.fault? low high = none) (index : Nat) (hs : s.Inside low high) :
    (s.scan f o low high index).Inside low high := by
  obtain ⟨-, -, hlow, hhigh⟩ := RootOptions.finite_of_fault? h
  fun_induction RootSearch.scan f o low high index s with
  | case1 => exact hs
  | case2 index s hlt x hinside ih =>
    exact ih (hs.visit hlow hhigh (gridPoint_within h hlt (Bool.eq_false_iff.2 hinside)))
  | case3 => exact hs

theorem inside_initial : initial.Inside low high :=
  ⟨fun _ hroot => (List.not_mem_nil hroot).elim, fun _ _ hprevious => by cases hprevious⟩

end RootSearch

include hlow hhigh in
/-- No sum of two doubles of the range is too large, if the ends can be doubled. -/
theorem isFinite_add_of_within {x y : Float} (hlow' : (low + low).isFinite = true)
    (hhigh' : (high + high).isFinite = true) (hx : Within low high x) (hy : Within low high y) :
    (x + y).isFinite = true := by
  have hxfinite := isFinite_of_within hlow hhigh hx
  have hyfinite := isFinite_of_within hlow hhigh hy
  obtain ⟨hnumber, hsum⟩ := value_add hxfinite hyfinite
  have hleast := (le_iff (.of_isFinite hlow) (.of_isFinite hxfinite)).1 hx.1
  have hleast' := (le_iff (.of_isFinite hlow) (.of_isFinite hyfinite)).1 hy.1
  have hmost := (le_iff (.of_isFinite hxfinite) (.of_isFinite hhigh)).1 hx.2
  have hmost' := (le_iff (.of_isFinite hyfinite) (.of_isFinite hhigh)).1 hy.2
  have hends : Within (low + low) (high + high) (x + y) := by
    obtain ⟨hlownumber, hlowsum⟩ := value_add hlow hlow
    obtain ⟨hhighnumber, hhighsum⟩ := value_add hhigh hhigh
    constructor
    · rw [le_iff hlownumber hnumber, hlowsum, hsum]
      exact rounded_mono (add_le_add hleast hleast')
    · rw [le_iff hnumber hhighnumber, hhighsum, hsum]
      exact rounded_mono (add_le_add hmost hmost')
  exact isFinite_of_within hlow' hhigh' hends

end Range

/-- Every root that a search finds is in the range, or it is infinite: then it is the sum of two
doubles of the range that is too large.  So all roots are in a range whose ends can be doubled. -/
theorem findRoots_inRange {f : Float → Float} {low high : Float} {o : RootOptions Float}
    {roots : List Float} (h : findRoots f low high o = .ok roots) :
    (∀ root ∈ roots, root.isFinite = true ∧ low ≤ root ∧ root ≤ high ∨
      root.isFinite = false ∧ ∃ x y, Within low high x ∧ Within low high y ∧ x + y = root) ∧
    ((low + low).isFinite = true → (high + high).isFinite = true →
      ∀ root ∈ roots, root.isFinite = true ∧ low ≤ root ∧ root ≤ high) := by
  unfold findRoots searchRoots at h
  cases hfault : o.fault? low high with
  | some fault =>
    rw [hfault] at h
    cases h
  | none =>
    rw [hfault] at h
    obtain rfl := Except.ok.inj h
    obtain ⟨-, -, hlow, hhigh⟩ := RootOptions.finite_of_fault? hfault
    have hplaced : ∀ root ∈ (RootSearch.initial.scan f o low high 0).roots.reverse,
        RootSearch.Placed low high root := fun root hroot =>
      (RootSearch.inside_initial.scan hfault 0).roots root (List.mem_reverse.1 hroot)
    refine ⟨fun root hroot => ?_, fun hlow' hhigh' root hroot => ?_⟩
    · exact (hplaced root hroot).imp_left fun hwithin =>
        ⟨isFinite_of_within hlow hhigh hwithin, hwithin⟩
    · rcases hplaced root hroot with hwithin | ⟨hinfinite, x, y, hx, hy, rfl⟩
      · exact ⟨isFinite_of_within hlow hhigh hwithin, hwithin⟩
      · rw [isFinite_add_of_within hlow hhigh hlow' hhigh' hx hy] at hinfinite
        cases hinfinite

/-- The difference from `1.1e308` has a root between `5e307` and `1.25e308`, but the search answers
infinity: the sum of `8.5e307` and `1.2e308`, between which it lies, is too large.  The ends of the
range from zero to one can be doubled. -/
theorem findRoots_inRange_tooLarge :
    (findRoots (fun x : Float => x - 1.1e308) 5e307 1.25e308 ⟨7e307, 4e307⟩ = .ok [1 / 0] ∧
      (1 / 0 : Float).isFinite = false ∧ ∃ x y : Float,
        Within 5e307 1.25e308 x ∧ Within 5e307 1.25e308 y ∧ x + y = 1 / 0) ∧
    (findRoots (fun x : Float => x - 0.25) 0 1 ⟨1, 0.75⟩ = .ok [0.25] ∧
      (0.25 : Float).isFinite = true ∧ (0 : Float) ≤ 0.25 ∧ (0.25 : Float) ≤ 1) := by
  have hlarge : findRoots (fun x : Float => x - 1.1e308) 5e307 1.25e308 ⟨7e307, 4e307⟩ =
      .ok [1 / 0] := by
    have hends : RootSearch.EndsAt (⟨7e307, 4e307⟩ : RootOptions Float) 5e307 1.25e308 2 :=
      ⟨by decide, by decide +kernel, by decide +kernel⟩
    have hfault : (⟨7e307, 4e307⟩ : RootOptions Float).fault? 5e307 1.25e308 = none := by
      decide +kernel
    simp only [findRoots, searchRoots, hfault, hends.scan_eq]
    decide +kernel
  have hunit : findRoots (fun x : Float => x - 0.25) 0 1 ⟨1, 0.75⟩ = .ok [0.25] := by
    have hends : RootSearch.EndsAt (⟨1, 0.75⟩ : RootOptions Float) 0 1 2 :=
      ⟨by decide, by decide +kernel, by decide +kernel⟩
    have hfault : (⟨1, 0.75⟩ : RootOptions Float).fault? 0 1 = none := by decide +kernel
    simp only [findRoots, searchRoots, hfault, hends.scan_eq]
    decide +kernel
  have hplaces := (findRoots_inRange hlarge).1 (1 / 0) (List.mem_singleton_self _)
  have hinfinite : ¬ (1 / 0 : Float).isFinite = true := by decide +kernel
  exact ⟨⟨hlarge, hplaces.resolve_left fun hno => hinfinite hno.1⟩, hunit,
    (findRoots_inRange hunit).2 (by decide +kernel) (by decide +kernel) 0.25
      (List.mem_singleton_self _)⟩

end ImplicitCurves

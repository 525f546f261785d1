import ImplicitCurves.Proofs.Sampling.Records
import ImplicitCurves.Proofs.Sampling.Schedules
import ImplicitCurves.Proofs.Scalar.ExactOperations
import ImplicitCurves.Sampling.Sweep
import Mathlib.Data.List.Chain
import Mathlib.Data.List.Forall2
import Mathlib.Data.List.Nodup
import Mathlib.Data.List.Range
import Mathlib.Tactic.FieldSimp

/-!
# A sweep covers its viewport

Read over exact scalars, a sweep is never refused.  Its samples stand on a grid that is finer than that
of the coarse samples by the number of refinements, and what is found at each of them lies in the range
across, with the padding around it: main statement `sample_covers`.
-/

namespace ImplicitCurves

open Exact (finite)

/-- Searches that are done side by side and all succeed. -/
theorem exists_map_eq_ok {ι γ β ε : Type} {f : ι → Except ε β} {g : γ → β} {P : ι → γ → Prop}
    {xs : List ι} (h : ∀ i ∈ xs, ∃ y, f i = .ok (g y) ∧ P i y) :
    ∃ ys : List γ, xs.map f = (ys.map g).map .ok ∧ List.Forall₂ P xs ys := by
  induction xs with
  | nil => exact ⟨[], rfl, .nil⟩
  | cons i xs ih =>
    obtain ⟨y, hy, hP⟩ := h i List.mem_cons_self
    obtain ⟨ys, hys, hall⟩ := ih fun j hj => h j (List.mem_cons_of_mem i hj)
    refine ⟨y :: ys, ?_, .cons hP hall⟩
    rw [List.map_cons, hy, hys]
    rfl

/-- Searches that are done one after another and all succeed. -/
theorem exists_mapM_eq_ok {ι γ β ε : Type} {f : ι → Except ε β} {g : γ → β} {P : ι → γ → Prop}
    {xs : List ι} (h : ∀ i ∈ xs, ∃ y, f i = .ok (g y) ∧ P i y) :
    ∃ ys : List γ, xs.mapM f = .ok (ys.map g) ∧ List.Forall₂ P xs ys := by
  obtain ⟨ys, hys, hall⟩ := exists_map_eq_ok h
  refine ⟨ys, ?_, hall⟩
  calc xs.mapM f = (xs.map f).mapM id := by rw [List.mapM_map]; rfl
    _ = ((ys.map g).map .ok).mapM id := by rw [hys]
    _ = ys.mapM fun y => pure (g y) := by rw [List.map_map, List.mapM_map]; rfl
    _ = .ok (ys.map g) := List.mapM_pure

/-- A sample of numbers. -/
def exactSample (x : ℚ × List ℚ) : Sample Exact :=
  (finite x.1, x.2.map finite)

/-- Samples of numbers can be put together before or after they are read as scalars. -/
theorem Sweep.interleave_map (coarse : List (ℚ × List ℚ)) (between : List (List (ℚ × List ℚ))) :
    interleave (coarse.map exactSample) (between.map (·.map exactSample)) =
      (interleave coarse between).map exactSample := by
  induction coarse generalizing between with
  | nil => cases between <;> rfl
  | cons x coarse ih =>
    cases between with
    | nil => rfl
    | cons refined between =>
      simp only [List.map_cons, interleave, ih, List.map_append, List.cons_append]

/-- The least and the greatest root of two samples are among their roots. -/
theorem Sweep.mem_of_rootBounds {α : Type} [OrderedScalar α] {roots next : List α} {b : α × α}
    (h : rootBounds roots next = some b) : b.1 ∈ roots ++ next ∧ b.2 ∈ roots ++ next := by
  have hfold : ∀ (xs : List α) (b : α × α),
      (xs.foldl (fun b x => (OrderedScalar.smaller b.1 x, OrderedScalar.larger b.2 x)) b).1 ∈
          b.1 :: xs ∧
        (xs.foldl (fun b x => (OrderedScalar.smaller b.1 x, OrderedScalar.larger b.2 x)) b).2 ∈
          b.2 :: xs := by
    intro xs
    induction xs with
    | nil => simp
    | cons x xs ih =>
      intro b
      obtain ⟨hleast, hgreatest⟩ :=
        ih (OrderedScalar.smaller b.1 x, OrderedScalar.larger b.2 x)
      have hsmaller : OrderedScalar.smaller b.1 x = b.1 ∨ OrderedScalar.smaller b.1 x = x := by
        unfold OrderedScalar.smaller
        split <;> simp
      have hlarger : OrderedScalar.larger b.2 x = b.2 ∨ OrderedScalar.larger b.2 x = x := by
        unfold OrderedScalar.larger
        split <;> simp
      simp only [List.foldl_cons, List.mem_cons] at hleast hgreatest ⊢
      constructor
      · rcases hsmaller with heq | heq <;> rw [heq] at hleast ⊢ <;> tauto
      · rcases hlarger with heq | heq <;> rw [heq] at hgreatest ⊢ <;> tauto
  cases roots with
  | nil => cases h
  | cons r rs =>
    cases next with
    | nil => cases h
    | cons n ns =>
      obtain rfl := Option.some.inj h
      exact hfold (rs ++ n :: ns) (r, r)

section Search

/-- A search succeeds, and its roots lie between two bounds. -/
def FindsWithin (low high : ℚ) (found : Except (SamplingFault Exact) (List Exact)) (roots : List ℚ) :
    Prop :=
  found = .ok (roots.map finite) ∧ ∀ r ∈ roots, low ≤ r ∧ r ≤ high

theorem FindsWithin.mono {low high low' high' : ℚ} {found : Except (SamplingFault Exact) (List Exact)}
    {roots : List ℚ} (h : FindsWithin low high found roots) (hlow : low' ≤ low) (hhigh : high ≤ high') :
    FindsWithin low' high' found roots :=
  ⟨h.1, fun r hr => ⟨hlow.trans (h.2 r hr).1, (h.2 r hr).2.trans hhigh⟩⟩

/-- The options of the searches are numbers that make sense. -/
def Sweep.CanSearch (s : Sweep Exact) : Prop :=
  ∃ granularity gap : ℚ, s.options = ⟨finite granularity, finite gap⟩ ∧ 0 < granularity ∧ 0 < gap

variable [I : OrderedScalar Exact] [ExactScalar I] {s : Sweep Exact} (hs : s.CanSearch)
include hs

namespace Sweep

/-- A range that ends before it starts has no roots, and any other one is searched. -/
theorem exists_rootsAt (c low high : ℚ) :
    ∃ roots, FindsWithin low high (s.rootsAt (finite c) (finite low, finite high)) roots := by
  obtain ⟨granularity, gap, hoptions, hgranularity, hgap⟩ := hs
  unfold rootsAt
  rw [ExactScalar.less_finite]
  by_cases hempty : high < low
  · exact ⟨[], by simp [hempty], by simp⟩
  · simp only [hempty, decide_false, Bool.false_eq_true, if_false, hoptions]
    exact ExactScalar.findRoots_within _ (not_lt.1 hempty) hgranularity hgap

/-- A sample between two coarse ones finds roots in the range across with the padding around it. -/
theorem exists_refinedRoots (c : ℚ) {low high padding : ℚ} (hpadding : 0 ≤ padding)
    {roots next : List ℚ} (hroots : ∀ r ∈ roots ++ next, low ≤ r ∧ r ≤ high) :
    ∃ found, FindsWithin (low - padding) (high + padding)
      (s.refinedRoots (finite padding) (finite low, finite high)
        (rootBounds (roots.map finite) (next.map finite)) (finite c)) found := by
  cases hbounds : rootBounds (roots.map finite) (next.map finite) with
  | none =>
    obtain ⟨found, hfound⟩ := exists_rootsAt hs c low high
    exact ⟨found, hfound.mono (by linarith) (by linarith)⟩
  | some b =>
    obtain ⟨hleast, hgreatest⟩ := mem_of_rootBounds hbounds
    rw [← List.map_append] at hleast hgreatest
    obtain ⟨least, hmem, hl⟩ := List.mem_map.1 hleast
    obtain ⟨greatest, hmem', hg⟩ := List.mem_map.1 hgreatest
    obtain rfl : (finite least, finite greatest) = b := Prod.ext hl hg
    obtain ⟨hlow, hhigh⟩ := hroots least hmem
    obtain ⟨hlow', hhigh'⟩ := hroots greatest hmem'
    simp only [refinedRoots, ExactScalar.sub_finite, ExactScalar.add_finite]
    obtain ⟨around, haround⟩ := exists_rootsAt hs c (least - padding) (greatest + padding)
    rw [haround.1]
    cases around with
    | cons r rs =>
      exact ⟨r :: rs, rfl, (haround.mono (by linarith) (by linarith)).2⟩
    | nil =>
      obtain ⟨above, habove⟩ := exists_rootsAt hs c (greatest - padding) high
      obtain ⟨below, hbelow⟩ := exists_rootsAt hs c low (least + padding)
      rw [habove.1, hbelow.1]
      refine ⟨above ++ below, ?_, List.forall_mem_append.2 ⟨?_, ?_⟩⟩
      · rw [List.map_append]
        rfl
      · exact (habove.mono (by linarith) (by linarith)).2
      · exact (hbelow.mono (by linarith) (by linarith)).2

end Sweep

end Search

/-! ### Coordinates -/

section Coordinates

variable [I : OrderedScalar Exact] [ExactScalar I] {low high step : ℚ}

/-- The coarse samples stand on the points of a grid that lie in the range. -/
theorem Sweep.coarseCoordinates_eq (hrange : low ≤ high) (hstep : 0 < step) :
    (coarseCoordinates (finite low) (finite high) (finite step) 0 #[]).toList =
      (List.range (⌊(high - low) / step⌋₊ + 1)).map fun i => finite (gridAt low step i) := by
  -- by induction on the number of samples that are left
  have hrest : ∀ (k i : Nat) (found : Array Exact), i + k = ⌊(high - low) / step⌋₊ + 1 →
      (coarseCoordinates (finite low) (finite high) (finite step) i found).toList =
        found.toList ++ (List.range' i k).map fun i => finite (gridAt low step i) := by
    intro k
    induction k with
    | zero =>
      intro i found hi
      have houtside : ¬ gridAt low step i ≤ high := by
        rw [gridAt_le_iff hrange hstep]
        omega
      unfold coarseCoordinates
      simp [ExactScalar.gridPoint_finite, ExactScalar.atMost_finite, houtside]
    | succ k ih =>
      intro i found hi
      have hinside : gridAt low step i ≤ high := by
        rw [gridAt_le_iff hrange hstep]
        omega
      have hsize : i < OrderedScalar.gridSize (finite low) (finite high) (finite step) := by
        rw [ExactScalar.gridSize_finite]
        omega
      unfold coarseCoordinates
      simp only [hsize, if_true, ExactScalar.gridPoint_finite, ExactScalar.atMost_finite, hinside,
        decide_true]
      rw [ih (i + 1) _ (by omega), List.range'_succ]
      simp
  rw [hrest _ 0 #[] (Nat.zero_add _), List.range_eq_range']
  rfl

/-- A sample up to the next coarse one stands on a finer grid, on which the coarse sample is as many
points further as there are samples for each. -/
theorem Sweep.refinedCoordinate_eq (refinements i j : Nat) :
    refinedCoordinate (finite low) (finite step) refinements i j =
      finite (gridAt low (step / (refinements + 1)) (i * (refinements + 1) + 1 + j)) := by
  have hne : (refinements + 1 : ℚ) ≠ 0 := by positivity
  have hdefault : @refinedCoordinate _ Exact.instOrderedScalar (finite low) (finite step)
      refinements i j = finite (gridAt low step i + step * (j + 1) / (refinements + 1)) := by
    simp only [refinedCoordinate, gridPoint_eq, Exact.ofCount_eq, Exact.finite_mul, Nat.cast_add,
      Nat.cast_one, Exact.finite_div _ _ hne, Exact.finite_add]
  have hgrid : gridAt low step i + step * (j + 1) / (refinements + 1) =
      gridAt low (step / (refinements + 1)) (i * (refinements + 1) + 1 + j) := by
    unfold gridAt
    push_cast
    field_simp
    ring
  rw [← hgrid, ← hdefault]
  obtain ⟨power, apply, rfl⟩ := ExactScalar.eq_withOperations (I := I)
  rfl

end Coordinates

/-- The points of the coarse grid are points of the finer one. -/
theorem gridAt_refined (low step : ℚ) (refinements i : Nat) :
    gridAt low (step / (refinements + 1)) (i * (refinements + 1)) = gridAt low step i := by
  have hne : (refinements + 1 : ℚ) ≠ 0 := by positivity
  unfold gridAt
  push_cast
  field_simp

/-! ### Sweeps -/

section Sweeps

variable [I : OrderedScalar Exact]

namespace Sweep

/-- What is found at a coordinate: the result of a search that is made there for a coarse sample, or for
one between two coarse ones, in the range across with the padding around it. -/
structure Finds (s : Sweep Exact) (padding : ℚ) (cross : ℚ × ℚ) (c : ℚ) (x : ℚ × List ℚ) : Prop where
  coordinate : x.1 = c
  searched : ∃ bounds, s.refinedRoots (finite padding) (finite cross.1, finite cross.2) bounds
    (finite c) = .ok (x.2.map finite)
  within : ∀ r ∈ x.2, cross.1 - padding ≤ r ∧ r ≤ cross.2 + padding

/-- What is found at a coarse sample lies in the range across. -/
structure FindsCoarse (s : Sweep Exact) (cross : ℚ × ℚ) (c : ℚ) (x : ℚ × List ℚ) : Prop where
  coordinate : x.1 = c
  found : FindsWithin cross.1 cross.2 (s.rootsAt (finite c) (finite cross.1, finite cross.2)) x.2

variable {s : Sweep Exact} {padding c : ℚ} {cross : ℚ × ℚ} {x : ℚ × List ℚ}

theorem FindsCoarse.finds (h : s.FindsCoarse cross c x) (hpadding : 0 ≤ padding) :
    s.Finds padding cross c x where
  coordinate := h.coordinate
  searched := ⟨none, h.found.1⟩
  within := (h.found.mono (by linarith) (by linarith)).2

/-- Samples that are found at some coordinates have these coordinates. -/
theorem coordinates_of_finds {g : Nat → ℚ} {ks : List Nat} {found : List (ℚ × List ℚ)}
    (h : List.Forall₂ (fun k x => s.Finds padding cross (g k) x) ks found) :
    found.map (·.1) = ks.map g ∧ ∀ x ∈ found, s.Finds padding cross x.1 x := by
  induction h with
  | nil => simp
  | cons hx _ ih =>
    obtain ⟨hcoordinates, hall⟩ := ih
    refine ⟨?_, List.forall_mem_cons.2 ⟨hx.coordinate ▸ hx, hall⟩⟩
    rw [List.map_cons, List.map_cons, hcoordinates, hx.coordinate]

variable [ExactScalar I] (hs : s.CanSearch) {o : SampleOptions Exact} {low step : ℚ}
  (hstep : o.step = finite step) (hpadding : o.padding = finite padding) (hnonneg : 0 ≤ padding)
include hs hstep hpadding hnonneg

/-- The samples between two coarse ones. -/
theorem exists_refinedSamples (i : Nat) {roots next : List ℚ}
    (hroots : ∀ r ∈ roots ++ next, cross.1 ≤ r ∧ r ≤ cross.2) :
    ∃ found : List (ℚ × List ℚ), s.refinedSamples o (finite low) (finite cross.1, finite cross.2) i
        (roots.map finite) (next.map finite) = .ok (found.map exactSample) ∧
      List.Forall₂ (fun k x => s.Finds padding cross (gridAt low (step / (o.refinements + 1)) k) x)
        (List.range' (i * (o.refinements + 1) + 1) o.refinements) found := by
  rw [List.range'_eq_map_range]
  simp only [List.forall₂_map_left_iff]
  refine exists_mapM_eq_ok fun j _ => ?_
  obtain ⟨found, hfound, hwithin⟩ := exists_refinedRoots hs
    (gridAt low (step / (o.refinements + 1)) (i * (o.refinements + 1) + 1 + j)) hnonneg hroots
  refine ⟨(_, found), ?_, rfl, ⟨_, hfound⟩, hwithin⟩
  rw [hstep, hpadding, refinedCoordinate_eq]
  dsimp only
  rw [hfound]
  rfl

/-- The samples behind coarse ones, and what they come to together with these. -/
theorem exists_refinements (rest : List (ℚ × List ℚ)) : ∀ (first : ℚ × List ℚ) (i : Nat),
    List.Forall₂ (fun k x => s.FindsCoarse cross (gridAt low step k) x)
      (List.range' i (rest.length + 1)) (first :: rest) →
    ∃ between : List (List (ℚ × List ℚ)),
      s.refinements o (finite low) (finite cross.1, finite cross.2) i
        ((first :: rest).map exactSample) = (between.map (·.map exactSample)).map .ok ∧
      List.Forall₂ (fun k x => s.Finds padding cross (gridAt low (step / (o.refinements + 1)) k) x)
        (List.range' (i * (o.refinements + 1)) (rest.length * (o.refinements + 1) + 1))
        (interleave (first :: rest) between) := by
  induction rest with
  | nil =>
    intro first i hcoarse
    obtain ⟨hfirst, -⟩ := List.forall₂_cons.1 hcoarse
    refine ⟨[], rfl, ?_⟩
    rw [List.length_nil, Nat.zero_mul, List.range'_one]
    refine .cons ?_ .nil
    rw [gridAt_refined]
    exact hfirst.finds hnonneg
  | cons next rest ih =>
    intro first i hcoarse
    obtain ⟨hfirst, hothers⟩ := List.forall₂_cons.1 hcoarse
    obtain ⟨hnext, -⟩ := List.forall₂_cons.1 hothers
    obtain ⟨refined, hrefined, hfinds⟩ := exists_refinedSamples hs hstep hpadding hnonneg i
      (List.forall_mem_append.2 ⟨hfirst.found.2, hnext.found.2⟩)
    obtain ⟨between, hbetween, hall⟩ := ih next (i + 1) hothers
    refine ⟨refined :: between, ?_, ?_⟩
    · have hcons : s.refinements o (finite low) (finite cross.1, finite cross.2) i
          ((first :: next :: rest).map exactSample) =
            s.refinedSamples o (finite low) (finite cross.1, finite cross.2) i
              (first.2.map finite) (next.2.map finite) ::
            s.refinements o (finite low) (finite cross.1, finite cross.2) (i + 1)
              ((next :: rest).map exactSample) := rfl
      rw [hcons, hrefined, hbetween]
      rfl
    · have hlength : (next :: rest).length * (o.refinements + 1) + 1 =
          1 + (o.refinements + (rest.length * (o.refinements + 1) + 1)) := by
        rw [List.length_cons]
        ring
      have hstart : (i + 1) * (o.refinements + 1) = i * (o.refinements + 1) + 1 + o.refinements := by
        ring
      have hcons : interleave (first :: next :: rest) (refined :: between) =
          first :: (refined ++ interleave (next :: rest) between) := rfl
      rw [hcons, hlength, Nat.add_comm 1, List.range'_succ, ← List.range'_append_1]
      refine .cons ?_ (List.rel_append hfinds (hstart ▸ hall))
      rw [gridAt_refined]
      exact hfirst.finds hnonneg

end Sweep

/-- What a sweep has searched covers a viewport: its coordinates begin one step before the viewport and
have one distance, they end past the viewport but not by more than a step, and all roots lie in the
range across, widened by the step and the padding. -/
structure Covers (low high crossLow crossHigh step padding : ℚ) (refinements : Nat)
    (found : List (ℚ × List ℚ)) : Prop where
  first : (found.map (·.1)).head? = some (low - step)
  neighbours : (found.map (·.1)).IsChain fun c c' => c' - c = step / (refinements + 1)
  increasing : (found.map (·.1)).Pairwise (· < ·)
  within : ∀ x ∈ found, x.1 ≤ high + step
  past : ∃ x ∈ found, high < x.1
  roots : ∀ x ∈ found, ∀ r ∈ x.2, crossLow - step - padding ≤ r ∧ r ≤ crossHigh + step + padding

theorem covers_of_finds {s : Sweep Exact} {low high crossLow crossHigh step padding : ℚ}
    {refinements : Nat} {found : List (ℚ × List ℚ)} (hrange : low < high) (hstep : 0 < step)
    (h : List.Forall₂ (fun k x => s.Finds padding (crossLow - step, crossHigh + step)
        (gridAt (low - step) (step / (refinements + 1)) k) x)
      (List.range (⌊(high + step - (low - step)) / step⌋₊ * (refinements + 1) + 1)) found) :
    Covers low high crossLow crossHigh step padding refinements found := by
  have hfine : 0 < step / (refinements + 1 : ℚ) := by positivity
  have hwide : low - step ≤ high + step := by linarith
  obtain ⟨hcoordinates, hall⟩ := Sweep.coordinates_of_finds h
  have hlast := (gridAt_le_iff hwide hstep ⌊(high + step - (low - step)) / step⌋₊).2 le_rfl
  have hnext := (gridAt_le_iff hwide hstep (⌊(high + step - (low - step)) / step⌋₊ + 1)).not.2
    (by omega)
  constructor
  case first => simp [hcoordinates, List.head?_range, gridAt]
  case neighbours =>
    rw [hcoordinates, List.isChain_map, List.isChain_range]
    intro k _
    unfold gridAt
    push_cast
    ring
  case increasing =>
    rw [hcoordinates, List.pairwise_map]
    exact List.pairwise_lt_range.imp fun hlt => gridAt_lt hfine hlt
  case within =>
    intro x hx
    have hmem : x.1 ∈ found.map (·.1) := List.mem_map_of_mem hx
    rw [hcoordinates] at hmem
    obtain ⟨k, hk, hcoordinate⟩ := List.mem_map.1 hmem
    rw [← hcoordinate]
    refine le_trans (gridAt_le hfine (Nat.lt_succ_iff.1 (List.mem_range.1 hk))) ?_
    rwa [gridAt_refined]
  case past =>
    have hmem : gridAt (low - step) step ⌊(high + step - (low - step)) / step⌋₊ ∈
        found.map (·.1) := by
      rw [hcoordinates, ← gridAt_refined _ _ refinements]
      exact List.mem_map_of_mem (List.mem_range.2 (Nat.lt_succ_self _))
    obtain ⟨x, hx, hcoordinate⟩ := List.mem_map.1 hmem
    refine ⟨x, hx, ?_⟩
    rw [hcoordinate]
    unfold gridAt at hnext ⊢
    push_cast at hnext
    linarith
  case roots =>
    intro x hx r hr
    exact (hall x hx).within r hr

variable [ExactScalar I]

/-- The ranges of a viewport that validates. -/
theorem Viewport.exists_range {v : Viewport Exact} (hv : v.fault? = none) (axis : Axis) :
    ∃ low high : ℚ, v.range axis = (finite low, finite high) ∧ low < high := by
  obtain ⟨hx, hy⟩ := Option.or_eq_none_iff.1 hv
  have haxis : v.axisFault? axis = none := by
    cases axis
    · exact hx
    · exact hy
  unfold Viewport.axisFault? at haxis
  dsimp only at haxis
  split at haxis
  · next hvalid =>
    simp only [Bool.and_eq_true] at hvalid
    obtain ⟨⟨hlow, hhigh⟩, hless⟩ := hvalid
    obtain ⟨low, hlow⟩ := ExactScalar.isFinite_iff.1 hlow
    obtain ⟨high, hhigh⟩ := ExactScalar.isFinite_iff.1 hhigh
    rw [hlow, hhigh, ExactScalar.less_finite] at hless
    exact ⟨low, high, Prod.ext hlow hhigh, of_decide_eq_true hless⟩
  · cases haxis

/-- The numbers of options that validate. -/
theorem SampleOptions.exists_values {o : SampleOptions Exact} (ho : o.fault? = none) :
    (∃ step, o.step = finite step ∧ 0 < step) ∧ (∃ padding, o.padding = finite padding ∧ 0 ≤ padding) ∧
      (∃ granularity, o.granularity = finite granularity ∧ 0 < granularity) ∧
        ∃ gap, o.maxGap = finite gap ∧ 0 < gap := by
  unfold SampleOptions.fault? SampleOptions.rootOptions RootOptions.fault? at ho
  split at ho
  · cases ho
  next hstep =>
  split at ho
  · cases ho
  next hpadding =>
  split at ho
  · cases ho
  next hgranularity =>
  split at ho
  · cases ho
  next hgap =>
  simp only [Bool.not_eq_true', Bool.not_eq_false, Bool.and_eq_true] at hstep hpadding hgranularity hgap
  obtain ⟨hfinite, hnonneg⟩ := hpadding
  obtain ⟨padding, hpadding⟩ := ExactScalar.isFinite_iff.1 hfinite
  rw [ExactScalar.zero_eq, hpadding, ExactScalar.atMost_finite] at hnonneg
  exact ⟨ExactScalar.isPositive_iff.1 hstep, ⟨padding, hpadding, of_decide_eq_true hnonneg⟩,
    ExactScalar.isPositive_iff.1 hgranularity, ExactScalar.isPositive_iff.1 hgap⟩

theorem widened_finite (low high step : ℚ) :
    widened (finite low, finite high) (finite step) = (finite (low - step), finite (high + step)) :=
  Prod.ext (ExactScalar.sub_finite low step) (ExactScalar.add_finite high step)

/-- The samples of a sweep. -/
theorem exists_sweepSamples (schedule : Schedule) (p : Program) (env : Environment Exact) {axis : Axis}
    {v : Viewport Exact} {o : SampleOptions Exact} {low high crossLow crossHigh step padding : ℚ}
    (hs : Sweep.CanSearch ⟨p, env, axis, o.rootOptions⟩) (hrange : v.range axis = (finite low, finite high))
    (hcross : v.range axis.cross = (finite crossLow, finite crossHigh)) (hlow : low < high)
    (hstep : o.step = finite step) (hpos : 0 < step) (hpadding : o.padding = finite padding)
    (hnonneg : 0 ≤ padding) :
    ∃ found : List (ℚ × List ℚ),
      sweepSamples p env axis v o schedule = .ok (found.map exactSample) ∧
      List.Forall₂ (fun k x => Sweep.Finds ⟨p, env, axis, o.rootOptions⟩ padding
        (crossLow - step, crossHigh + step) (gridAt (low - step) (step / (o.refinements + 1)) k) x)
        (List.range (⌊(high + step - (low - step)) / step⌋₊ * (o.refinements + 1) + 1)) found := by
  obtain ⟨coarse, hcoarse, hall⟩ : ∃ coarse : List (ℚ × List ℚ),
      ((Sweep.coarseCoordinates (finite (low - step)) (finite (high + step)) (finite step) 0
        #[]).toList.map fun x => (Sweep.rootsAt ⟨p, env, axis, o.rootOptions⟩ x
          (finite (crossLow - step), finite (crossHigh + step))).map (x, ·)) =
        (coarse.map exactSample).map .ok ∧
      List.Forall₂ (fun k x => Sweep.FindsCoarse ⟨p, env, axis, o.rootOptions⟩
        (crossLow - step, crossHigh + step) (gridAt (low - step) step k) x)
        (List.range (⌊(high + step - (low - step)) / step⌋₊ + 1)) coarse := by
    rw [Sweep.coarseCoordinates_eq (by linarith) hpos, List.map_map]
    refine exists_map_eq_ok fun k _ => ?_
    obtain ⟨roots, hroots⟩ := Sweep.exists_rootsAt hs (gridAt (low - step) step k) (crossLow - step)
      (crossHigh + step)
    refine ⟨(_, roots), ?_, rfl, hroots⟩
    dsimp only [Function.comp_apply]
    rw [hroots.1]
    rfl
  cases coarse with
  | nil => simp at hall
  | cons first rest =>
    have hlength : ⌊(high + step - (low - step)) / step⌋₊ = rest.length := by
      simpa using hall.length_eq
    rw [hlength, List.range_eq_range'] at hall
    obtain ⟨between, hbetween, hfinds⟩ :=
      Sweep.exists_refinements hs hstep hpadding hnonneg rest first 0 hall
    refine ⟨Sweep.interleave (first :: rest) between, ?_, ?_⟩
    · unfold sweepSamples
      rw [hrange, hcross, hstep, widened_finite, widened_finite]
      dsimp only [bind, Except.bind]
      rw [hcoarse, Schedule.collect_map_ok]
      dsimp only
      rw [hbetween, Schedule.collect_map_ok]
      dsimp only
      rw [Sweep.interleave_map]
      rfl
    · rwa [Nat.zero_mul, ← List.range_eq_range', ← hlength] at hfinds

/-- A sweep over exact scalars, with any powers and elementary functions, is not refused if its options
and its viewport validate, however its searches are scheduled.  Its coordinates cover the viewport, what
it has found at each of them is the result of searches there, and its buffer has one record for each of
them where something was found, in the same order. -/
theorem sample_covers (p : Program) (env : Environment Exact) (axis : Axis) {v : Viewport Exact}
    {o : SampleOptions Exact} (schedule : Schedule) (ho : o.fault? = none) (hv : v.fault? = none) :
    ∃ (low high crossLow crossHigh step padding : ℚ) (found : List (ℚ × List ℚ)),
      (v.range axis = (finite low, finite high) ∧ v.range axis.cross = (finite crossLow, finite crossHigh) ∧
        o.step = finite step ∧ o.padding = finite padding) ∧
      Covers low high crossLow crossHigh step padding o.refinements found ∧
      (∀ x ∈ found, ∃ bounds, Sweep.refinedRoots ⟨p, env, axis, o.rootOptions⟩ o.padding
        (widened (v.range axis.cross) o.step) bounds (finite x.1) = .ok (x.2.map finite)) ∧
      sweepSamples p env axis v o schedule = .ok (found.map exactSample) ∧
      ∃ buffer : PointBuffer Exact, sample p env axis v o schedule = .ok buffer ∧ buffer.sweep = axis ∧
        buffer.records = (found.filter (!·.2.isEmpty)).map exactSample ∧
        (buffer.records.map (·.1)).Nodup := by
  obtain ⟨low, high, hrange, hlow⟩ := Viewport.exists_range hv axis
  obtain ⟨crossLow, crossHigh, hcross, -⟩ := Viewport.exists_range hv axis.cross
  obtain ⟨⟨step, hstep, hpos⟩, ⟨padding, hpadding, hnonneg⟩, ⟨granularity, hgranularity, hgranular⟩,
    gap, hgap, hgapPos⟩ := SampleOptions.exists_values ho
  have hs : Sweep.CanSearch ⟨p, env, axis, o.rootOptions⟩ := by
    refine ⟨granularity, gap, ?_, hgranular, hgapPos⟩
    rw [SampleOptions.rootOptions, hgranularity, hgap]
  obtain ⟨found, hfound, hfinds⟩ :=
    exists_sweepSamples schedule p env hs hrange hcross hlow hstep hpos hpadding hnonneg
  have hcovers := covers_of_finds hlow hpos hfinds
  have hcount : ∀ x ∈ found.map exactSample,
      OrderedScalar.toCount (OrderedScalar.ofCount x.2.length : Exact) = x.2.length :=
    fun x _ => ExactScalar.toCount_ofCount x.2.length
  have hrecords := PointBuffer.records_foldl_push axis hcount
  have hkept : (found.map exactSample).filter (!·.2.isEmpty) =
      (found.filter (!·.2.isEmpty)).map exactSample := by
    rw [List.filter_map]
    congr 2
    funext x
    simp [exactSample]
  rw [hkept] at hrecords
  refine ⟨low, high, crossLow, crossHigh, step, padding, found, ⟨hrange, hcross, hstep, hpadding⟩,
    hcovers, fun x hx => ?_, hfound, _, ?_, ?_, hrecords, ?_⟩
  · rw [hpadding, hcross, hstep, widened_finite]
    exact ((Sweep.coordinates_of_finds hfinds).2 x hx).searched
  · unfold sample
    rw [ho, hv, hfound]
    rfl
  · rw [PointBuffer.foldl_push]
    rfl
  · have hdistinct : ((found.filter (!·.2.isEmpty)).map (·.1)).Nodup :=
      (hcovers.increasing.imp fun hlt => ne_of_lt hlt).sublist (List.filter_sublist.map _)
    have hinjective : Function.Injective finite := fun _ _ heq => Exact.finite.inj heq
    rw [hrecords]
    simpa [Function.comp_def, exactSample] using List.Nodup.map hinjective hdistinct

end Sweeps

/-- The line where `y` is two, around the origin, with a step of one and one sample in between. -/
theorem sample_covers_line :
    let v : Viewport Exact := ⟨finite 0, finite 1, finite 1, finite 3⟩
    let o : SampleOptions Exact := ⟨finite 1, finite (1 / 2), finite (1 / 1000), 1, finite 0⟩
    let line : Equation := .between (.ofFactor (.variable 'y' none)) (.ofNumber 2)
    o.fault? = none ∧ v.fault? = none ∧ ∃ found, Covers 0 1 1 3 1 0 1 found ∧
      (∀ x ∈ found, ∃ bounds, Sweep.refinedRoots ⟨line.form.program, .empty, .x, o.rootOptions⟩
        o.padding (widened (v.range .y) o.step) bounds (finite x.1) = .ok (x.2.map finite)) ∧
      sweepSamples line.form.program .empty .x v o = .ok (found.map exactSample) ∧
      ∃ buffer, sample line.form.program .empty .x v o = .ok buffer ∧
        buffer.records = (found.filter (!·.2.isEmpty)).map exactSample ∧
        buffer.records = [-1, -1 / 2, 0, 1 / 2, 1, 3 / 2, 2].map fun x => (finite x, [finite 2]) := by
  intro v o line
  have ho : o.fault? = none := by decide +kernel
  have hv : v.fault? = none := by decide +kernel
  have hline : (sample line.form.program .empty .x v o).toOption.map (·.records) =
      some ([-1, -1 / 2, 0, 1 / 2, 1, 3 / 2, 2].map fun x => (finite x, [finite 2])) := by
    decide +kernel
  obtain ⟨low, high, crossLow, crossHigh, step, padding, found, ⟨hrange, hcross, hstep, hpadding⟩,
    hcovers, hsearched, hsamples, buffer, hbuffer, -, hrecords, -⟩ :=
    sample_covers line.form.program .empty .x .inOrder ho hv
  cases hrange
  cases hcross
  cases hstep
  cases hpadding
  rw [hbuffer] at hline
  exact ⟨ho, hv, found, hcovers, hsearched, hsamples, buffer, hbuffer, hrecords,
    Option.some.inj hline⟩

end ImplicitCurves

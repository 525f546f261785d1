import ImplicitCurves.Proofs.Sampling.Records
import ImplicitCurves.Proofs.Scalar.Counts

/-!
# Decoding of point buffers

What has been pushed to a buffer of doubles is read back, and any data at all can be read: it is cut
into pieces, one for each record, and at most one number is left over.
-/

namespace ImplicitCurves

namespace PointBuffer

/-! ### Pieces of the data -/

/-- The part of the data that a record stands in: its count as it is there, the coordinate and the
roots. -/
structure Piece (α : Type) where
  count : α
  coordinate : α
  roots : List α

namespace Piece

variable {α : Type}

/-- The numbers of a piece. -/
def data (p : Piece α) : List α :=
  p.count :: p.coordinate :: p.roots

/-- The record that is read from a piece. -/
def record (p : Piece α) : α × List α :=
  (p.coordinate, p.roots)

end Piece

variable {α : Type} [OrderedScalar α]

/-- Pieces that are followed by some numbers have as many roots as their counts say, or all that is
left. -/
def Counted (pieces : List (Piece α)) (rest : List α) : Prop :=
  ∀ before p after, pieces = before ++ p :: after →
    p.roots.length =
      min (OrderedScalar.toCount p.count) (p.roots ++ after.flatMap Piece.data ++ rest).length

theorem Counted.nil (rest : List α) : Counted [] rest := by
  intro before p after h
  simp at h

theorem Counted.cons {p : Piece α} {pieces : List (Piece α)} {rest : List α}
    (hp : p.roots.length =
      min (OrderedScalar.toCount p.count) (p.roots ++ pieces.flatMap Piece.data ++ rest).length)
    (h : Counted pieces rest) : Counted (p :: pieces) rest := by
  intro before q after heq
  cases before with
  | nil =>
    cases heq
    exact hp
  | cons q' before =>
    rw [List.cons_append, List.cons.injEq] at heq
    exact h before q after heq.2

/-- Any data is made of the pieces of its records, and at most one number more. -/
theorem exists_pieces (data : List α) : ∃ pieces : List (Piece α), ∃ rest,
    data = pieces.flatMap Piece.data ++ rest ∧ recordsOf data = pieces.map Piece.record ∧
      rest.length ≤ 1 ∧ Counted pieces rest := by
  induction data using recordsOf.induct with
  | case1 count coordinate left n ih =>
    obtain ⟨pieces, rest, hdata, hrecords, hrest, hcounted⟩ := ih
    have hleft : left = left.take n ++ pieces.flatMap Piece.data ++ rest := by
      rw [List.append_assoc, ← hdata, List.take_append_drop]
    refine ⟨⟨count, coordinate, left.take n⟩ :: pieces, rest, ?_, ?_, hrest, hcounted.cons ?_⟩
    · rw [List.flatMap_cons, List.append_assoc, ← hdata]
      simp [Piece.data]
    · rw [recordsOf, hrecords, List.map_cons, Piece.record]
    · simp only
      rw [← hleft, List.length_take]
      omega
  | case2 data hshort =>
    refine ⟨[], data, rfl, ?_, ?_, Counted.nil data⟩
    · rw [recordsOf]
      · rfl
      · exact hshort
    · cases data with
      | nil => simp
      | cons x xs =>
        cases xs with
        | nil => simp
        | cons y ys => exact absurd rfl (hshort x y ys)

/-! ### What has been pushed -/

/-- There is no data just if no sample had a root. -/
theorem isEmpty_foldl_push (axis : Axis) (samples : List (α × List α)) :
    (samples.foldl (fun b x => b.push x.1 x.2) (empty axis)).isEmpty = true ↔
      samples.filter (!·.2.isEmpty) = [] := by
  have hempty (x : α × List α) : recordData x = [] ↔ x.2 = [] := by
    unfold recordData
    by_cases h : x.2 = [] <;> simp [h]
  rw [foldl_push, isEmpty, empty]
  simp [hempty]

/-- Samples without roots have no points. -/
theorem points_foldl_push (axis : Axis) {samples : List (α × List α)} (hcount : ∀ x ∈ samples,
    OrderedScalar.toCount (OrderedScalar.ofCount x.2.length : α) = x.2.length) :
    (samples.foldl (fun b x => b.push x.1 x.2) (empty axis)).points =
      samples.flatMap fun x => x.2.map (point axis x.1) := by
  have hsweep : (samples.foldl (fun b x => b.push x.1 x.2) (empty axis)).sweep = axis := by
    rw [foldl_push, empty]
  rw [points, records_foldl_push axis hcount, hsweep]
  clear hcount hsweep
  induction samples with
  | nil => rfl
  | cons x samples ih =>
    rw [List.flatMap_cons, ← ih, List.filter_cons]
    by_cases hempty : x.2 = [] <;> simp [hempty]

end PointBuffer

/-- What is pushed to a buffer of doubles, at most 2⁵³ roots at a time, is read back: the samples with
roots are the records, and each root is a point.  Whatever the data of a buffer are, its records stand
in them one behind the other, and at most one number is left over. -/
theorem PointBuffer.records_decode (axis : Axis) :
    (∀ pushes : List (Float × List Float), (∀ p ∈ pushes, p.2.length ≤ 2 ^ 53) →
      ∀ b : PointBuffer Float, b = pushes.foldl (fun b p => b.push p.1 p.2) (empty axis) →
        b.records = pushes.filter (!·.2.isEmpty) ∧
          b.length = (pushes.filter (!·.2.isEmpty)).length ∧
          (b.isEmpty = true ↔ pushes.filter (!·.2.isEmpty) = []) ∧
          b.points = pushes.flatMap fun p => p.2.map fun root =>
            match axis with
            | .x => (p.1, root)
            | .y => (root, p.1)) ∧
      ∀ b : PointBuffer Float, ∃ (pieces : List (Piece Float)) (rest : List Float),
        b.data.toList = pieces.flatMap Piece.data ++ rest ∧ rest.length ≤ 1 ∧
          b.records = pieces.map Piece.record ∧ b.length = pieces.length ∧ Counted pieces rest := by
  constructor
  · intro pushes hroots b hb
    have hcount : ∀ p ∈ pushes,
        OrderedScalar.toCount (OrderedScalar.ofCount p.2.length : Float) = p.2.length := by
      intro p hp
      exact Binary64.toCount_ofCount (hroots p hp)
    have hrecords : b.records = pushes.filter (!·.2.isEmpty) := by
      rw [hb, records_foldl_push axis hcount]
    refine ⟨hrecords, ?_, ?_, ?_⟩
    · rw [length, hrecords]
    · rw [hb, isEmpty_foldl_push]
    · rw [hb, points_foldl_push axis hcount]
      cases axis <;> rfl
  · intro b
    obtain ⟨pieces, rest, hdata, hrecords, hrest, hcounted⟩ := exists_pieces b.data.toList
    refine ⟨pieces, rest, hdata, hrest, hrecords, ?_, hcounted⟩
    rw [length, records, hrecords, List.length_map]

/-- Two samples with roots and one without, in a sweep of the vertical axis. -/
theorem PointBuffer.records_decode_between_roots :
    ∃ b : PointBuffer Float,
      b = [(1, [2, 3]), (1.5, []), (2, [4])].foldl (fun b p => b.push p.1 p.2) (empty .y) ∧
        b.records = [(1, [2, 3]), (2, [4])] ∧ b.length = 2 ∧ b.isEmpty = false ∧
          b.points = [(2, 1), (3, 1), (4, 2)] := by
  obtain ⟨hrecords, hlength, hempty, hpoints⟩ := (records_decode .y).1
    [(1, [2, 3]), (1.5, []), (2, [4])] (by simp) _ rfl
  refine ⟨_, rfl, hrecords, hlength, ?_, hpoints⟩
  rw [Bool.eq_false_iff, ne_eq, hempty]
  simp

end ImplicitCurves

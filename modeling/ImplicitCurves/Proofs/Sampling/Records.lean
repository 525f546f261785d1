import ImplicitCurves.Sampling.PointBuffer
import Mathlib.Data.List.Basic

/-!
# Records of a point buffer

What is pushed to a buffer can be read back: a buffer has one record for each sample with roots, in the
order in which they were pushed, as long as counts are exact.
-/

namespace ImplicitCurves

variable {α : Type} [OrderedScalar α]

/-- The numbers that a sample adds to a buffer. -/
def recordData (x : α × List α) : List α :=
  if x.2.isEmpty then [] else OrderedScalar.ofCount x.2.length :: x.1 :: x.2

namespace PointBuffer

theorem push_eq (b : PointBuffer α) (x : α × List α) :
    b.push x.1 x.2 = { b with data := b.data ++ recordData x } := by
  unfold push recordData
  split <;> simp

/-- Samples that are pushed one after another. -/
theorem foldl_push (samples : List (α × List α)) (b : PointBuffer α) :
    samples.foldl (fun b x => b.push x.1 x.2) b =
      { b with data := b.data ++ samples.flatMap recordData } := by
  induction samples generalizing b with
  | nil => simp
  | cons x samples ih =>
    rw [List.foldl_cons, ih, push_eq, List.flatMap_cons]
    congr 1
    apply Array.ext'
    simp

/-- A record at the front of the data, if its count is exact. -/
theorem recordsOf_record {x : α × List α}
    (hcount : OrderedScalar.toCount (OrderedScalar.ofCount x.2.length : α) = x.2.length)
    (rest : List α) :
    recordsOf (OrderedScalar.ofCount x.2.length :: x.1 :: (x.2 ++ rest)) = x :: recordsOf rest := by
  rw [recordsOf]
  simp [hcount]

theorem recordsOf_flatMap {samples : List (α × List α)} (hcount : ∀ x ∈ samples,
    OrderedScalar.toCount (OrderedScalar.ofCount x.2.length : α) = x.2.length) :
    recordsOf (samples.flatMap recordData) = samples.filter (!·.2.isEmpty) := by
  induction samples with
  | nil => rw [List.flatMap_nil, recordsOf, List.filter_nil]; simp
  | cons x samples ih =>
    have hrest := ih fun y hy => hcount y (List.mem_cons_of_mem x hy)
    rw [List.flatMap_cons, List.filter_cons]
    by_cases hempty : x.2.isEmpty = true
    · simp [recordData, hempty, hrest]
    · simp only [recordData, hempty, Bool.false_eq_true, if_false, Bool.not_false, if_true,
        List.cons_append]
      rw [recordsOf_record (hcount x List.mem_cons_self), hrest]

/-- A buffer that samples are pushed to has the records of those with roots. -/
theorem records_foldl_push (axis : Axis) {samples : List (α × List α)} (hcount : ∀ x ∈ samples,
    OrderedScalar.toCount (OrderedScalar.ofCount x.2.length : α) = x.2.length) :
    (samples.foldl (fun b x => b.push x.1 x.2) (empty axis)).records =
      samples.filter (!·.2.isEmpty) := by
  rw [foldl_push, records, empty]
  simpa using recordsOf_flatMap hcount

end PointBuffer

end ImplicitCurves

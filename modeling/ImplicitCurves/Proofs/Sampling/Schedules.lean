import ImplicitCurves.Curve

/-!
# What schedules decide

A pass of searches that is done side by side has the same results under all schedules, or fails under
all of them.  A schedule only decides which of the searches that fail is reported, and each of them is
reported under some schedule.
-/

namespace ImplicitCurves

namespace Schedule

variable {ε β : Type} {axis : Axis} {pass : Pass} {results : List (Except ε β)}

theorem mem_failures {error : ε} : error ∈ failures results ↔ .error error ∈ results := by
  unfold failures
  rw [List.mem_filterMap]
  constructor
  · rintro ⟨result, hmem, herror⟩
    cases result with
    | ok _ => cases herror
    | error error' =>
      obtain rfl := Option.some.inj herror
      exact hmem
  · exact fun hmem => ⟨_, hmem, rfl⟩

/-- Searches that all succeed. -/
theorem collect_map_ok (schedule : Schedule) (axis : Axis) (pass : Pass) (xs : List β) :
    schedule.collect axis pass (xs.map .ok) = (.ok xs : Except ε (List β)) := by
  have hnone : failures (xs.map (.ok : β → Except ε β)) = [] := by
    refine List.eq_nil_iff_forall_not_mem.2 fun error hmem => ?_
    obtain ⟨x, -, hx⟩ := List.mem_map.1 (mem_failures.1 hmem)
    cases hx
  have hresults : (xs.map (.ok : β → Except ε β)).filterMap Except.toOption = xs := by
    rw [List.filterMap_map]
    exact List.filterMap_some
  unfold collect
  rw [hnone, hresults]

/-- The error that is reported is that of one of the searches, and it can be that of any. -/
theorem exists_collect_eq_error_iff {error : ε} :
    (∃ schedule : Schedule, schedule.collect axis pass results = .error error) ↔
      .error error ∈ results := by
  unfold collect
  rw [← mem_failures]
  cases failures results with
  | nil => simp
  | cons first others =>
    constructor
    · rintro ⟨schedule, hreported⟩
      rw [← Except.error.inj hreported]
      exact List.get_mem _ _
    · intro hmem
      obtain ⟨index, hindex⟩ := List.get_of_mem hmem
      refine ⟨⟨fun _ _ n => Fin.ofNat (n + 1) index⟩, congrArg Except.error ?_⟩
      have hsame : Fin.ofNat (others.length + 1) index = index := Fin.ofNat_val_eq_self index
      exact (congrArg (first :: others).get hsame).trans hindex

end Schedule

variable (schedule schedule' : Schedule)

end ImplicitCurves

/-!
# Errors of computations

What all errors of a computation have in common, put together along the computation.
-/

namespace ImplicitCurves

theorem bind_eq_ok {ε α β : Type} {x : Except ε α} {f : α → Except ε β} {b : β} :
    (x >>= f) = .ok b ↔ ∃ a, x = .ok a ∧ f a = .ok b := by
  constructor
  · intro h
    cases x with
    | error error => cases h
    | ok a => exact ⟨a, rfl, h⟩
  · rintro ⟨a, rfl, h⟩
    exact h

theorem map_eq_ok {ε α β : Type} {x : Except ε α} {f : α → β} {b : β} :
    x.map f = .ok b ↔ ∃ a, x = .ok a ∧ f a = b := by
  cases x with
  | error error => simp [Except.map]
  | ok a => simp [Except.map]

/-- All errors of the computation have the property. -/
def FailsOnly {ε α : Type} (P : ε → Prop) (x : Except ε α) : Prop :=
  ∀ error, x = .error error → P error

namespace FailsOnly

variable {ε δ α β : Type} {P Q : ε → Prop} {x : Except ε α}

theorem ok (a : α) : FailsOnly P (.ok a : Except ε α) :=
  fun error h => by cases h

theorem error {error : ε} (h : P error) : FailsOnly P (.error error : Except ε α) := by
  intro error' herror
  obtain rfl := Except.error.inj herror
  exact h

theorem imp (hx : FailsOnly P x) (hPQ : ∀ error, P error → Q error) : FailsOnly Q x :=
  fun error h => hPQ error (hx error h)

/-- What comes next starts from a result. -/
theorem bind {f : α → Except ε β} (hx : FailsOnly P x) (hf : ∀ a, x = .ok a → FailsOnly P (f a)) :
    FailsOnly P (x >>= f) := by
  cases hresult : x with
  | ok a => exact hf a hresult
  | error error => exact .error (hx error hresult)

theorem map (hx : FailsOnly P x) (f : α → β) : FailsOnly P (x.map f) := by
  cases hresult : x with
  | ok a => exact .ok (f a)
  | error error => exact .error (hx error hresult)

theorem mapError {R : δ → Prop} {change : ε → δ} (hx : FailsOnly P x)
    (hchange : ∀ error, P error → R (change error)) : FailsOnly R (x.mapError change) := by
  cases hresult : x with
  | ok a => exact .ok a
  | error error => exact .error (hchange error (hx error hresult))

/-- Errors that are changed are of one kind if all changed ones are. -/
theorem mapError_of_forall {R : δ → Prop} {change : ε → δ} (x : Except ε α)
    (hchange : ∀ error, R (change error)) : FailsOnly R (x.mapError change) :=
  mapError (P := fun _ => True) (fun _ _ => trivial) fun error _ => hchange error

end FailsOnly

end ImplicitCurves

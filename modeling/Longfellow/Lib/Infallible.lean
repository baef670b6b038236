/-
Runs that hand no error back: they return a value or panic, as the body of a
function does that has no error in its type.
-/
import Longfellow.Lib.Exec

universe u

namespace Exec

variable {α β : Type u}

/-- The run hands no error back. -/
def Infallible (m : Exec α) : Prop := ∀ message, m ≠ .error (.error message)

theorem infallible_ok {a : α} : Infallible (.ok a : Exec α) := by
  intro message h
  cases h

theorem infallible_abort {message : String} :
    Infallible (abort message : Exec α) := by
  intro message' h
  cases h

theorem Infallible.bind {m : Exec α} {f : α → Exec β} (h : Infallible m)
    (hf : ∀ a, Infallible (f a)) : Infallible (m >>= f) := by
  rcases m with (message | message) | a
  · exact absurd rfl (h message)
  · exact infallible_abort
  · exact hf a

theorem Infallible.foldlM {f : β → α → Exec β} (h : ∀ s a, Infallible (f s a))
    (xs : List α) (s : β) : Infallible (xs.foldlM f s) := by
  induction xs generalizing s with
  | nil => exact infallible_ok
  | cons x xs ih =>
      rw [List.foldlM_cons]
      exact (h s x).bind ih

theorem Infallible.mapM {f : α → Exec β} (h : ∀ a, Infallible (f a))
    (xs : List α) : Infallible (xs.mapM f) := by
  induction xs with
  | nil => exact infallible_ok
  | cons x xs ih =>
      rw [List.mapM_cons]
      exact (h x).bind fun _ => ih.bind fun _ => infallible_ok

/-- A run that hands no error back returns or panics. -/
theorem Infallible.cases {m : Exec α} (h : Infallible m) :
    (∃ a, m = .ok a) ∨ ∃ message, m = .error (.panic message) := by
  rcases m with (message | message) | a
  · exact absurd rfl (h message)
  · exact .inr ⟨message, rfl⟩
  · exact .inl ⟨a, rfl⟩

theorem infallible_assert {p : Prop} [Decidable p] {message : String} :
    Infallible (assert p message) := by
  by_cases hp : p
  · rw [assert_of hp]
    exact infallible_ok
  · rw [assert, if_neg hp]
    exact infallible_abort

theorem infallible_index (xs : List α) (i : Nat) : Infallible (index xs i) := by
  rw [index]
  split
  · exact infallible_ok
  · exact infallible_abort

theorem infallible_update (xs : List α) (i : Nat) (f : α → α) :
    Infallible (update xs i f) := by
  rw [update]
  split
  · exact infallible_ok
  · exact infallible_abort

theorem infallible_checkedSub (a b : Nat) : Infallible (checkedSub a b) := by
  rw [checkedSub]
  split
  · exact infallible_ok
  · exact infallible_abort

theorem infallible_divCeil (a b : Nat) : Infallible (divCeil a b) := by
  rw [divCeil]
  split
  · exact infallible_abort
  · exact infallible_ok

end Exec

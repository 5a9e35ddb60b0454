import Mathlib.Tactic.Common

/-! Programs with a state: what they answer, and which states they leave. -/

universe u

namespace Okws.Lib

/-- From related states the program gives the same answer, and leaves related states. -/
def Respects {S α : Type u} (R : S → S → Prop) (x : StateM S α) : Prop :=
  ∀ s t, R s t → (x s).1 = (x t).1 ∧ R (x s).2 (x t).2

namespace Respects

variable {S α β : Type u} {R : S → S → Prop}

theorem pure (a : α) : Respects R (Pure.pure a : StateM S α) := fun _ _ h => ⟨rfl, h⟩

theorem bind {x : StateM S α} {k : α → StateM S β} (hx : Respects R x)
    (hk : ∀ a, Respects R (k a)) : Respects R (x >>= k) := by
  intro s t h
  obtain ⟨hval, hrel⟩ := hx s t h
  have := hk (x s).1 _ _ hrel
  rw [show (x >>= k) s = k (x s).1 (x s).2 from rfl, show (x >>= k) t = k (x t).1 (x t).2 from rfl,
    ← hval]
  exact this

theorem ite {c : Prop} [Decidable c] {x y : StateM S α} (hx : Respects R x) (hy : Respects R y) :
    Respects R (if c then x else y) := by
  split
  · exact hx
  · exact hy

theorem run {xs : List (StateM S α)} (h : ∀ x ∈ xs, Respects R x) {s t : S} (hst : R s t) :
    R (xs.foldl (fun s x => (x s).2) s) (xs.foldl (fun s x => (x s).2) t) := by
  induction xs generalizing s t with
  | nil => exact hst
  | cons x xs ih =>
    obtain ⟨hx, hxs⟩ := List.forall_mem_cons.1 h
    exact ih hxs (hx s t hst).2

end Respects

/-- From a state that satisfies `P` the program answers `a`, and leaves one that satisfies `Q`. -/
def Yields {S α : Type u} (P : S → Prop) (x : StateM S α) (a : α) (Q : S → Prop) : Prop :=
  ∀ s, P s → (x s).1 = a ∧ Q (x s).2

namespace Yields

variable {S α β : Type u} {P Q R : S → Prop}

theorem pure (a : α) : Yields P (Pure.pure a : StateM S α) a P := fun _ h => ⟨rfl, h⟩

theorem bind {x : StateM S α} {k : α → StateM S β} {a : α} {b : β} (hx : Yields P x a Q)
    (hk : Yields Q (k a) b R) : Yields P (x >>= k) b R := by
  intro s h
  obtain ⟨hval, hrel⟩ := hx s h
  have := hk _ hrel
  rw [← hval] at this
  exact this

end Yields

end Okws.Lib

import Mathlib.Data.Set.Finite.Basic
import Mathlib.Order.Filter.AtTopBot.Basic
import Mathlib.Order.Filter.Finite

/-! What holds from some depth of calls on. -/

namespace Okws.Lib

open Filter

theorem eventually_succ {P : Nat → Prop} (h : ∀ᶠ n in atTop, P (n + 1)) :
    ∀ᶠ n in atTop, P n := by
  rw [← map_add_atTop_eq_nat 1]
  exact h

theorem eventually_mem {α : Type} {P : Nat → α → Prop} {xs : List α}
    (h : ∀ x ∈ xs, ∀ᶠ n in atTop, P n x) : ∀ᶠ n in atTop, ∀ x ∈ xs, P n x :=
  (eventually_all_finite xs.finite_toSet).2 h

end Okws.Lib

import Mathlib.Data.List.TakeWhile

/-! Lists cut at the first place where an element stands. -/

universe u

namespace Okws.Lib

variable {α : Type u} [DecidableEq α] {c : α} {a s : List α}

theorem ne_of_not_mem (h : c ∉ a) : ∀ b ∈ a, decide (b ≠ c) = true :=
  fun _ hb => decide_eq_true fun he => h (he ▸ hb)

theorem takeWhile_first (ha : c ∉ a) : (a ++ c :: s).takeWhile (· ≠ c) = a := by
  rw [List.takeWhile_append_of_pos (ne_of_not_mem ha)]
  simp

theorem dropWhile_first (ha : c ∉ a) : (a ++ c :: s).dropWhile (· ≠ c) = c :: s := by
  rw [List.dropWhile_append_of_pos (ne_of_not_mem ha)]
  simp

theorem takeWhile_none (h : c ∉ s) : s.takeWhile (· ≠ c) = s :=
  List.takeWhile_eq_self_iff.2 (ne_of_not_mem h)

theorem dropWhile_none (h : c ∉ s) : s.dropWhile (· ≠ c) = [] :=
  List.dropWhile_eq_nil_iff.2 (ne_of_not_mem h)

end Okws.Lib

import Mathlib.Tactic.Common

/-! A block of memory as a list of cells: ranges of it, and writing a string into it. -/

universe u

namespace Okws.Lib

variable {α : Type u}

/-- The cells from `i` up to `j`. -/
def slice (mem : List α) (i j : Nat) : List α := (mem.take j).drop i

/-- Writes `s` from cell `i` on. -/
def poke (mem : List α) (i : Nat) (s : List α) : List α :=
  mem.take i ++ s ++ mem.drop (i + s.length)

variable {mem s : List α} {i j k : Nat}

theorem slice_length (hj : j ≤ mem.length) : (slice mem i j).length = j - i := by
  simp [slice, hj]

@[simp] theorem slice_self : slice mem i i = [] := by
  simp [slice]

theorem slice_drop : (slice mem i j).drop k = slice mem (i + k) j := by
  simp [slice, List.drop_drop]

@[simp] theorem poke_nil : poke mem i [] = mem := by simp [poke]

theorem poke_length (h : i + s.length ≤ mem.length) : (poke mem i s).length = mem.length := by
  simp only [poke, List.length_append, List.length_take, List.length_drop]
  omega

theorem le_poke_length (hi : i ≤ mem.length) : i + s.length ≤ (poke mem i s).length := by
  simp only [poke, List.length_append, List.length_take, List.length_drop]
  omega

theorem take_poke (hi : i ≤ mem.length) (hk : k ≤ s.length) :
    (poke mem i s).take (i + k) = mem.take i ++ s.take k := by
  have hlen : (mem.take i).length = i := List.length_take_of_le hi
  rw [poke, List.append_assoc, List.take_append, hlen, List.take_of_length_le (by omega),
    Nat.add_sub_cancel_left, List.take_append_of_le_length hk]

theorem slice_poke_before (h : j ≤ i) (hi : i ≤ mem.length) :
    slice (poke mem i s) k j = slice mem k j := by
  have hlen : (mem.take i).length = i := by simp [hi]
  unfold slice poke
  rw [List.append_assoc, List.take_append_of_le_length (by omega), List.take_take,
    Nat.min_eq_left h]

theorem slice_poke_after (h : i + s.length ≤ k) (hi : i ≤ mem.length) :
    slice (poke mem i s) k j = slice mem k j := by
  have hlen : (mem.take i ++ s).length = i + s.length := by simp [hi]
  unfold slice poke
  rw [List.drop_take, List.drop_take, List.drop_append, List.drop_of_length_le (by omega), hlen,
    List.drop_drop, List.nil_append]
  congr 2
  omega

theorem slice_poke (hk : k ≤ i) (h : i + s.length ≤ mem.length) :
    slice (poke mem i s) k (i + s.length) = slice mem k i ++ s := by
  have hlen : (mem.take i).length = i := List.length_take_of_le (by omega)
  have hlen' : (mem.take i ++ s).length = i + s.length := by simp [hlen]
  unfold slice poke
  rw [← hlen', List.take_left, List.drop_append_of_le_length (by omega)]

end Okws.Lib

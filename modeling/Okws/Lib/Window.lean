import Mathlib.Data.List.Basic
import Mathlib.Data.List.TakeWhile

/-! Limits on how much may happen in a window of time: a log of times that is pruned from the front,
whose length is compared with the limit. -/

namespace Okws.Lib.Window

variable {w n s t a : Nat} {all log xs : List Nat}

/-- The test for the window that begins at `a`. -/
def inside (w a s : Nat) : Bool := decide (a ≤ s ∧ s ≤ a + w)

/-- No window has more than `n` of the times. -/
def AtMost (w n : Nat) (xs : List Nat) : Prop := ∀ a, xs.countP (inside w a) ≤ n

/-- Every time is more than `w` later than those before it. -/
def Apart (w : Nat) (xs : List Nat) : Prop := xs.Pairwise fun s t => s + w < t

/-- The log after something at `t`, where `old` tells which times are too old. -/
def push (old : Nat → Nat → Bool) (log : List Nat) (t : Nat) : List Nat :=
  log.dropWhile (old · t) ++ [t]

/-- Until `t`, the log has lost only what was too old. -/
structure Recent (w : Nat) (all log : List Nat) (t : Nat) : Prop where
  le : ∀ s ∈ all, s ≤ t
  dropped : ∃ lost, all = lost ++ log ∧ ∀ s ∈ lost, s + w < t

theorem Recent.nil : Recent w [] [] t := ⟨nofun, [], rfl, nofun⟩

theorem Recent.mono (h : Recent w all log s) (hle : s ≤ t) : Recent w all log t := by
  obtain ⟨lost, hall, hlost⟩ := h.dropped
  exact ⟨fun r hr => Nat.le_trans (h.le r hr) hle, lost, hall, fun r hr =>
    Nat.lt_of_lt_of_le (hlost r hr) hle⟩

theorem Recent.log_le (h : Recent w all log t) : ∀ s ∈ log, s ≤ t := by
  obtain ⟨lost, hall, -⟩ := h.dropped
  exact fun s hs => h.le s (hall ▸ List.mem_append_right lost hs)

theorem Recent.push {old : Nat → Nat → Bool} (h : Recent w all log t)
    (hold : ∀ s ≤ t, old s t = true → s + w < t) :
    Recent w (all ++ [t]) (push old log t) t := by
  obtain ⟨lost, hall, hlost⟩ := h.dropped
  refine ⟨fun r hr => ?_, lost ++ log.takeWhile (old · t), ?_, fun r hr => ?_⟩
  · obtain hr | hr := List.mem_append.1 hr
    · exact h.le r hr
    · exact Nat.le_of_eq (List.mem_singleton.1 hr)
  · rw [Window.push, List.append_assoc, ← List.append_assoc (log.takeWhile _),
      List.takeWhile_append_dropWhile, hall, List.append_assoc]
  · obtain hr | hr := List.mem_append.1 hr
    · exact hlost r hr
    · have hlog := (List.takeWhile_sublist _).mem hr
      exact hold r (h.log_le r hlog) (List.all_eq_true.1 List.all_takeWhile r hr)

theorem Recent.countP_le (h : Recent w all log t) (hxs : xs.Sublist all) (ha : t ≤ a + w) :
    xs.countP (inside w a) ≤ log.length := by
  obtain ⟨lost, rfl, hlost⟩ := h.dropped
  have hnone : lost.countP (inside w a) = 0 := by
    rw [List.countP_eq_zero]
    intro s hs hin
    have hlt := hlost s hs
    have hle := (of_decide_eq_true hin).1
    omega
  calc xs.countP (inside w a) ≤ (lost ++ log).countP (inside w a) := hxs.countP_le
    _ = log.countP (inside w a) := by rw [List.countP_append, hnone, Nat.zero_add]
    _ ≤ log.length := List.countP_le_length

theorem AtMost.concat (hxs : AtMost w n xs) (hsub : (xs ++ [t]).Sublist all)
    (h : Recent w all log t) (hn : log.length ≤ n) : AtMost w n (xs ++ [t]) := by
  intro a
  by_cases hin : inside w a t = true
  · exact Nat.le_trans (h.countP_le hsub (of_decide_eq_true hin).2) hn
  · rw [List.countP_append, List.countP_singleton, if_neg hin, Nat.add_zero]
    exact hxs a

theorem Apart.of_concat (h : Apart w (xs ++ [t])) : Apart w xs ∧ ∀ s ∈ xs, s + w < t := by
  obtain ⟨hxs, -, hlt⟩ := List.pairwise_append.1 h
  exact ⟨hxs, fun s hs => hlt s hs t (.head _)⟩

theorem length_push_le_two {old : Nat → Nat → Bool} (h : ∀ s ∈ log.dropLast, old s t = true) :
    (push old log t).length ≤ 2 := by
  have hlog : (log.dropWhile (old · t)).length ≤ 1 := by
    cases hne : log.getLast? with
    | none => rw [List.getLast?_eq_none_iff.1 hne]; exact Nat.zero_le 1
    | some r =>
      rw [← List.dropLast_append_getLast? r hne, List.dropWhile_append_of_pos h]
      exact (List.dropWhile_sublist _).length_le
  rw [push, List.length_append]
  exact Nat.succ_le_succ hlog

theorem length_push_of_old {old : Nat → Nat → Bool} (h : ∀ s ∈ log, old s t = true) :
    (push old log t).length = 1 := by
  rw [push, List.dropWhile_eq_nil_iff.2 h]
  rfl

end Okws.Lib.Window

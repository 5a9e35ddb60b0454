import Mathlib.Tactic.Common

/-! Items that say how many more have to follow, as in a tree that is written root first. -/

namespace Okws.Lib

variable {α : Type}

/-- No item is the beginning of another one, and each says one number. -/
def PrefixFree (tok : List α → Nat → Prop) : Prop := ∀ {t t' k k' s s'},
  tok t k → tok t' k' → t ++ s = t' ++ s' → t = t' ∧ k = k'

/-- Where `m` items are to come: these are read, and then `n` are to come. -/
inductive Reads (tok : List α → Nat → Prop) : Nat → List α → Nat → Prop
  | nil {m} : Reads tok m [] m
  | tok {m n k t s} : tok t k → Reads tok (k + m) s n → Reads tok (m + 1) (t ++ s) n

variable {tok : List α → Nat → Prop} {m n k : Nat} {s t : List α}

theorem Reads.add (h : Reads tok m s n) (k : Nat) : Reads tok (m + k) s (n + k) := by
  induction h with
  | nil => exact .nil
  | tok ht _ ih =>
    rw [Nat.add_right_comm]
    refine .tok ht ?_
    rwa [← Nat.add_assoc]

theorem Reads.trans (h : Reads tok m s n) (ht : Reads tok n t k) : Reads tok m (s ++ t) k := by
  induction h with
  | nil => exact ht
  | tok hs _ ih =>
    rw [List.append_assoc]
    exact .tok hs (ih ht)

theorem Reads.one (ht : tok t k) : Reads tok (m + 1) t (k + m) :=
  List.append_nil t ▸ .tok ht .nil

theorem Reads.linear (hfree : PrefixFree tok) {p p' q q' : List α} {n' : Nat}
    (h : Reads tok m p n) (h' : Reads tok m p' n') (heq : p ++ q = p' ++ q') :
    (∃ c, p' = p ++ c ∧ Reads tok n c n') ∨ ∃ c, p = p' ++ c ∧ Reads tok n' c n := by
  induction h generalizing p' n' with
  | nil => exact .inl ⟨p', rfl, h'⟩
  | tok ht hs ih =>
    cases h' with
    | nil => exact .inr ⟨_, rfl, .tok ht hs⟩
    | tok ht' hs' =>
      rw [List.append_assoc, List.append_assoc] at heq
      obtain ⟨rfl, rfl⟩ := hfree ht ht' heq
      obtain ⟨c, rfl, hc⟩ | ⟨c, rfl, hc⟩ := ih hs' (List.append_cancel_left heq)
      · exact .inl ⟨c, (List.append_assoc ..).symm, hc⟩
      · exact .inr ⟨c, (List.append_assoc ..).symm, hc⟩

end Okws.Lib

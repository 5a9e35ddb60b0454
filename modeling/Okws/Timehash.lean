import Mathlib.Data.List.Nodup
import Mathlib.Data.List.TakeWhile

universe u v

namespace Okws

/-- `keyfn`. -/
class Keyfn (V : Type u) (K : outParam (Type v)) where
  key : V → K

export Keyfn (key)

structure TimehashNode (V : Type u) where
  val : V
  ctime : Nat

/-- The nodes in the order of the queue, the oldest first.  A key is there at most once. -/
structure Timehash (V : Type u) {K : Type v} [Keyfn V K] where
  q : List (TimehashNode V)
  timeout : Nat
  rejuvenates : Bool
  nodup : (q.map fun n => key n.val).Nodup

namespace Timehash

variable {V : Type u} {K : Type v} [Keyfn V K]

def empty (timeout : Nat) (rejuvenates : Bool) : Timehash V := ⟨[], timeout, rejuvenates, .nil⟩

variable (t : Timehash V) (now : Nat) (k : K)

def vals : List V := t.q.map TimehashNode.val

def keys : List K := t.q.map fun n => key n.val

def expireBefore (deadline : Nat) : Timehash V := { t with
  q := t.q.dropWhile fun n => n.ctime < deadline
  nodup := t.nodup.sublist ((List.dropWhile_sublist _).map _) }

def expire : Timehash V := if t.timeout = 0 then t else t.expireBefore (now - t.timeout)

variable [DecidableEq K]

def removeNode : Timehash V := { t with
  q := t.q.filter fun n => key n.val ≠ k
  nodup := t.nodup.sublist (List.filter_sublist.map _) }

def remove : Timehash V := (t.expire now).removeNode k

theorem not_mem_keys_removeNode : k ∉ (t.removeNode k).keys := by
  simp [keys, removeNode]

theorem not_mem_keys_remove : k ∉ (t.remove now k).keys := not_mem_keys_removeNode _ _

/-- The node that `_h` has for the key. -/
def node : Option (TimehashNode V) := t.q.find? fun n => key n.val = k

theorem node_eq_some {n : TimehashNode V} (h : t.node k = some n) : n ∈ t.q ∧ key n.val = k := by
  have hk := List.find?_some (p := fun n : TimehashNode V => decide (key n.val = k)) h
  exact ⟨List.mem_of_find?_eq_some h, of_decide_eq_true hk⟩

def append (v : V) (h : key v ∉ t.keys) : Timehash V := { t with
  q := t.q ++ [⟨v, now⟩]
  nodup := by
    rw [List.map_append]
    exact t.nodup.append (List.nodup_singleton _) (List.disjoint_singleton.mpr h) }

def insert (v : V) : Timehash V :=
  (t.remove now (key v)).append now v (t.not_mem_keys_remove now (key v))

theorem not_mem_keys_of_node {n : TimehashNode V} (h : t.node k = some n) :
    key n.val ∉ (t.removeNode k).keys := by
  rw [(t.node_eq_some k h).2]
  exact t.not_mem_keys_removeNode k

def rejuvenate : Bool × Timehash V := match h : t.node k with
  | none => (false, t)
  | some n => (true, (t.removeNode k).append now n.val (t.not_mem_keys_of_node k h))

def find : Option V := (t.node k).map TimehashNode.val

/-- `operator[]`. -/
def get : Option V × Timehash V :=
  let t := if t.rejuvenates then (t.rejuvenate now k).2 else t
  let t := t.expire now
  (t.find k, t)

theorem map_key_modify (f : V → V) (hf : ∀ v, key (f v) = key v) :
    (t.q.map fun n => if key n.val = k then { n with val := f n.val } else n).map
      (fun n => key n.val) = t.keys := by
  rw [List.map_map]
  apply List.map_congr_left
  intro n _
  change key (if key n.val = k then { n with val := f n.val } else n : TimehashNode V).val = _
  split
  · exact hf n.val
  · rfl

def modify (f : V → V) (hf : ∀ v, key (f v) = key v) : Timehash V := { t with
  q := t.q.map fun n => if key n.val = k then { n with val := f n.val } else n
  nodup := t.map_key_modify k f hf ▸ t.nodup }

variable {t : Timehash V} {now : Nat} {k : K} {v w : V}

omit [DecidableEq K] in
theorem mem_keys : k ∈ t.keys ↔ ∃ v ∈ t.vals, key v = k := by
  simp [keys, vals]

omit [DecidableEq K] in
theorem keys_subset {t' : Timehash V} (h : t'.vals ⊆ t.vals) : t'.keys ⊆ t.keys := by
  intro k hk
  obtain ⟨v, hv, rfl⟩ := mem_keys.mp hk
  exact mem_keys.mpr ⟨v, h hv, rfl⟩

omit [DecidableEq K] in
theorem eq_of_key_eq (hv : v ∈ t.vals) (hw : w ∈ t.vals) (h : key v = key w) : v = w := by
  obtain ⟨n, hn, rfl⟩ := List.mem_map.mp hv
  obtain ⟨m, hm, rfl⟩ := List.mem_map.mp hw
  rw [List.inj_on_of_nodup_map t.nodup hn hm h]

theorem find_eq_some : t.find k = some v ↔ v ∈ t.vals ∧ key v = k := by
  constructor
  · intro h
    obtain ⟨n, hn, rfl⟩ := Option.map_eq_some_iff.mp h
    exact ⟨List.mem_map_of_mem (t.node_eq_some k hn).1, (t.node_eq_some k hn).2⟩
  · rintro ⟨hv, hk⟩
    cases h : t.find k with
    | none =>
      obtain ⟨n, hn, rfl⟩ := List.mem_map.mp hv
      have := List.find?_eq_none.mp (Option.map_eq_none_iff.mp h) n hn
      exact absurd (decide_eq_true hk) this
    | some w =>
      obtain ⟨n, hn, rfl⟩ := Option.map_eq_some_iff.mp h
      obtain ⟨hmem, hkey⟩ := t.node_eq_some k hn
      rw [eq_of_key_eq (List.mem_map_of_mem hmem) hv (hkey.trans hk.symm)]

theorem find_eq_none : t.find k = none ↔ k ∉ t.keys := by
  simp [find, node, keys]

theorem mem_vals_removeNode : v ∈ (t.removeNode k).vals ↔ v ∈ t.vals ∧ key v ≠ k := by
  simp only [vals, removeNode, List.mem_map, List.mem_filter, decide_eq_true_eq]
  grind

omit [DecidableEq K] in
theorem mem_vals_append {h : key w ∉ t.keys} :
    v ∈ (t.append now w h).vals ↔ v ∈ t.vals ∨ v = w := by
  simp [vals, append]

omit [DecidableEq K] in
theorem vals_expire_subset : (t.expire now).vals ⊆ t.vals := by
  unfold expire
  split
  · exact List.Subset.refl _
  · exact ((List.dropWhile_sublist _).map _).subset

omit [DecidableEq K] in
theorem expire_of_timeout (h : t.timeout = 0) : t.expire now = t := if_pos h

theorem mem_vals_remove (h : t.timeout = 0) :
    v ∈ (t.remove now k).vals ↔ v ∈ t.vals ∧ key v ≠ k := by
  rw [remove, expire_of_timeout h, mem_vals_removeNode]

theorem vals_insert_subset (h : w ∈ (t.insert now v).vals) : w = v ∨ w ∈ t.vals := by
  obtain h | h := mem_vals_append.mp h
  · exact .inr (vals_expire_subset (mem_vals_removeNode.mp h).1)
  · exact .inl h

theorem get_of_timeout (h : t.timeout = 0) (hr : t.rejuvenates = false) :
    t.get now k = (t.find k, t) := by
  simp [get, hr, expire_of_timeout h]

theorem get_snd (hr : t.rejuvenates = false) : (t.get now k).2 = t.expire now := by
  simp [get, hr]

theorem rejuvenate_fst : (t.rejuvenate now k).1 = true ↔ k ∈ t.keys := by
  have hnone := find_eq_none (t := t) (k := k)
  unfold find at hnone
  unfold rejuvenate
  split
  · next h =>
    rw [h] at hnone
    simpa using hnone
  · next n h =>
    rw [h] at hnone
    simpa using hnone

theorem vals_rejuvenate_subset : (t.rejuvenate now k).2.vals ⊆ t.vals := by
  unfold rejuvenate
  split
  · exact List.Subset.refl _
  · next n h =>
    intro v hv
    obtain hv | rfl := (mem_vals_append (h := t.not_mem_keys_of_node k h)).mp hv
    · exact (mem_vals_removeNode.mp hv).1
    · exact List.mem_map_of_mem (t.node_eq_some k h).1

theorem mem_vals_modify {f : V → V} {hf : ∀ v, key (f v) = key v} :
    w ∈ (t.modify k f hf).vals ↔ ∃ v ∈ t.vals, w = if key v = k then f v else v := by
  simp only [vals, modify, List.mem_map]
  grind

@[simp] theorem keys_modify {f : V → V} {hf : ∀ v, key (f v) = key v} :
    (t.modify k f hf).keys = t.keys := t.map_key_modify k f hf

theorem find_modify_of_ne {f : V → V} {k' : K} (h : ∀ v, key (f v) = key v) (hne : k' ≠ k) :
    (t.modify k f h).find k' = t.find k' := by
  ext w
  rw [find_eq_some, find_eq_some, mem_vals_modify]
  grind

theorem find_remove_of_ne (h : t.timeout = 0) {k' : K} (hne : k' ≠ k) :
    (t.remove now k).find k' = t.find k' := by
  ext w
  rw [find_eq_some, find_eq_some, mem_vals_remove h]
  grind

theorem keys_remove_subset : (t.remove now k).keys ⊆ t.keys :=
  keys_subset fun _ hv => vals_expire_subset (mem_vals_removeNode.mp hv).1

theorem keys_insert_subset : (t.insert now v).keys ⊆ key v :: t.keys := by
  intro k hk
  obtain ⟨w, hw, rfl⟩ := mem_keys.mp hk
  obtain rfl | hw := vals_insert_subset hw
  · exact List.mem_cons_self
  · exact List.mem_cons_of_mem _ (mem_keys.mpr ⟨w, hw, rfl⟩)

structure Ordered (t : Timehash V) (now : Nat) : Prop where
  pairwise : t.q.Pairwise fun n m => n.ctime ≤ m.ctime
  le : ∀ n ∈ t.q, n.ctime ≤ now

def Unexpired (t : Timehash V) (now : Nat) : Prop :=
  ∀ n ∈ t.q, t.timeout ≠ 0 → now - t.timeout ≤ n.ctime

section Ordered

variable {now' : Nat}

omit [DecidableEq K]

theorem Ordered.mono (h : t.Ordered now) (hle : now ≤ now') : t.Ordered now' :=
  ⟨h.pairwise, fun n hn => Nat.le_trans (h.le n hn) hle⟩

theorem Ordered.sublist {t' : Timehash V} (h : t.Ordered now) (hsub : t'.q.Sublist t.q) :
    t'.Ordered now :=
  ⟨h.pairwise.sublist hsub, fun n hn => h.le n (hsub.subset hn)⟩

theorem Ordered.append {h : key v ∉ t.keys} (ht : t.Ordered now) :
    (t.append now v h).Ordered now := by
  constructor
  · refine List.pairwise_append.mpr ⟨ht.pairwise, List.pairwise_singleton _ _, ?_⟩
    intro n hn m hm
    rw [List.mem_singleton.mp hm]
    exact ht.le n hn
  · intro n hn
    obtain hn | hn := List.mem_append.mp hn
    · exact ht.le n hn
    · cases List.mem_singleton.mp hn
      exact Nat.le_refl now

theorem expire_sublist : (t.expire now).q.Sublist t.q := by
  unfold expire
  split
  · exact List.Sublist.refl _
  · exact List.dropWhile_sublist _

@[simp] theorem expire_timeout : (t.expire now).timeout = t.timeout := by
  unfold expire
  split <;> rfl

@[simp] theorem expire_rejuvenates : (t.expire now).rejuvenates = t.rejuvenates := by
  unfold expire
  split <;> rfl

theorem Unexpired.expire_eq (h : t.Unexpired now) : t.expire now = t := by
  unfold expire
  split
  · rfl
  · next htimeout =>
    have hq : t.q.dropWhile (fun n => n.ctime < now - t.timeout) = t.q := by
      cases hq : t.q with
      | nil => rfl
      | cons n q =>
        have := h n (by rw [hq]; exact List.mem_cons_self) htimeout
        rw [List.dropWhile_cons_of_neg]
        simpa using this
    obtain ⟨q, timeout, rejuvenates, nodup⟩ := t
    simp only [expireBefore, Timehash.mk.injEq, and_self, and_true]
    exact hq

theorem Unexpired.sublist {t' : Timehash V} (h : t.Unexpired now) (hsub : t'.q.Sublist t.q)
    (htimeout : t'.timeout = t.timeout) : t'.Unexpired now := by
  intro n hn
  rw [htimeout]
  exact h n (hsub.subset hn)

omit [Keyfn V K] in
theorem le_of_mem_dropWhile {q : List (TimehashNode V)} {n : TimehashNode V} {deadline : Nat}
    (h : q.Pairwise fun n m => n.ctime ≤ m.ctime)
    (hn : n ∈ q.dropWhile fun n => n.ctime < deadline) : deadline ≤ n.ctime := by
  induction q with
  | nil => cases hn
  | cons m q ih =>
    obtain ⟨hm, hq⟩ := List.pairwise_cons.mp h
    by_cases hlt : m.ctime < deadline
    · rw [List.dropWhile_cons_of_pos (by simpa using hlt)] at hn
      exact ih hq hn
    · rw [List.dropWhile_cons_of_neg (by simpa using hlt)] at hn
      obtain rfl | hn := List.mem_cons.mp hn
      · exact Nat.not_lt.mp hlt
      · exact Nat.le_trans (Nat.not_lt.mp hlt) (hm n hn)

theorem Ordered.unexpired_expire (h : t.Ordered now) : (t.expire now).Unexpired now := by
  intro n hn htimeout
  rw [expire_timeout] at htimeout ⊢
  rw [expire, if_neg htimeout] at hn
  exact le_of_mem_dropWhile h.pairwise hn

theorem Ordered.expire (h : t.Ordered now) : (t.expire now).Ordered now :=
  h.sublist expire_sublist

variable [DecidableEq K]

@[simp] theorem remove_timeout : (t.remove now k).timeout = t.timeout := expire_timeout

@[simp] theorem remove_rejuvenates : (t.remove now k).rejuvenates = t.rejuvenates :=
  expire_rejuvenates

@[simp] theorem insert_timeout : (t.insert now v).timeout = t.timeout :=
  remove_timeout (k := key v)

@[simp] theorem insert_rejuvenates : (t.insert now v).rejuvenates = t.rejuvenates :=
  remove_rejuvenates (k := key v)

@[simp] theorem rejuvenate_rejuvenates :
    (t.rejuvenate now k).2.rejuvenates = t.rejuvenates := by
  unfold Timehash.rejuvenate
  split <;> rfl

theorem removeNode_sublist : (t.removeNode k).q.Sublist t.q := List.filter_sublist

theorem Ordered.remove (h : t.Ordered now) : (t.remove now k).Ordered now :=
  h.expire.sublist removeNode_sublist

theorem Ordered.insert (h : t.Ordered now) : (t.insert now v).Ordered now := h.remove.append

theorem Ordered.rejuvenate (h : t.Ordered now) : (t.rejuvenate now k).2.Ordered now := by
  unfold Timehash.rejuvenate
  split
  · exact h
  · next n hn =>
    exact Ordered.append (h := t.not_mem_keys_of_node k hn) (h.sublist removeNode_sublist)

theorem Unexpired.remove (h : t.Unexpired now) : (t.remove now k).Unexpired now := by
  rw [Timehash.remove, h.expire_eq]
  exact h.sublist removeNode_sublist rfl

end Ordered

theorem Unexpired.get_eq (h : t.Unexpired now) (hr : t.rejuvenates = false) :
    t.get now k = (t.find k, t) := by
  simp [get, hr, h.expire_eq]

/-- The table has an entry of this kind, which came or was asked for at `τ` or later. -/
def Held (t : Timehash V) (P : V → Prop) (τ : Nat) : Prop := ∃ n ∈ t.q, P n.val ∧ τ ≤ n.ctime

section Held

variable {P Q : V → Prop} {τ : Nat}

omit [DecidableEq K]

theorem Held.expire (h : t.Held P τ) (hτ : t.timeout = 0 ∨ now ≤ τ + t.timeout) :
    (t.expire now).Held P τ := by
  obtain ⟨n, hn, hP, hle⟩ := h
  unfold Timehash.expire
  split
  · exact ⟨n, hn, hP, hle⟩
  · next htimeout =>
    refine ⟨n, ?_, hP, hle⟩
    have hstay : ¬ n.ctime < now - t.timeout := by omega
    have hmem : n ∈ t.q.takeWhile (fun n => n.ctime < now - t.timeout) ++
        t.q.dropWhile (fun n => n.ctime < now - t.timeout) := by
      rw [List.takeWhile_append_dropWhile]
      exact hn
    refine (List.mem_append.mp hmem).resolve_left fun htake => hstay ?_
    simpa using List.mem_takeWhile_imp htake

theorem held_append {h : key v ∉ t.keys} (hv : P v) : (t.append now v h).Held P now :=
  ⟨⟨v, now⟩, List.mem_append_right _ List.mem_cons_self, hv, Nat.le_refl now⟩

variable [DecidableEq K]

theorem held_insert (hv : P v) : (t.insert now v).Held P now := held_append hv

theorem Held.insert (h : t.Held P τ) (hτ : t.timeout = 0 ∨ now ≤ τ + t.timeout) (hnow : τ ≤ now)
    (hv : P v ∨ ∀ w, P w → key w ≠ key v) : (t.insert now v).Held P τ := by
  obtain hv | hv := hv
  · exact ⟨_, List.mem_append_right _ List.mem_cons_self, hv, hnow⟩
  · obtain ⟨n, hn, hP, hle⟩ := h.expire hτ
    exact ⟨n, List.mem_append_left _ (List.mem_filter.mpr ⟨hn, decide_eq_true (hv _ hP)⟩), hP, hle⟩

theorem Held.rejuvenate (h : t.Held P τ) (hnow : τ ≤ now) : (t.rejuvenate now k).2.Held P τ := by
  unfold Timehash.rejuvenate
  split
  · exact h
  · next m hm =>
    obtain ⟨n, hn, hP, hle⟩ := h
    by_cases hk : key n.val = k
    · have hmem := t.node_eq_some k hm
      have heq : m.val = n.val := eq_of_key_eq (List.mem_map_of_mem hmem.1)
        (List.mem_map_of_mem hn) (hmem.2.trans hk.symm)
      exact ⟨⟨m.val, now⟩, List.mem_append_right _ List.mem_cons_self, heq ▸ hP, hnow⟩
    · exact ⟨n, List.mem_append_left _ (List.mem_filter.mpr ⟨hn, decide_eq_true hk⟩), hP, hle⟩

theorem rejuvenate_timeout : (t.rejuvenate now k).2.timeout = t.timeout := by
  unfold Timehash.rejuvenate
  split <;> rfl

theorem Held.get (h : t.Held P τ) (hτ : t.timeout = 0 ∨ now ≤ τ + t.timeout) (hnow : τ ≤ now) :
    (t.get now k).2.Held P τ := by
  unfold Timehash.get
  split
  · exact (h.rejuvenate hnow).expire (by rwa [rejuvenate_timeout])
  · exact h.expire hτ

theorem Held.find (h : t.Held P τ) (hk : ∀ w, P w → key w = k) :
    ∃ v, t.find k = some v ∧ P v := by
  obtain ⟨n, hn, hP, -⟩ := h
  exact ⟨n.val, find_eq_some.mpr ⟨List.mem_map_of_mem hn, hk _ hP⟩, hP⟩

theorem Held.get_fst (h : t.Held P τ) (hτ : t.timeout = 0 ∨ now ≤ τ + t.timeout) (hnow : τ ≤ now)
    (hk : ∀ w, P w → key w = k) : ∃ v, (t.get now k).1 = some v ∧ P v :=
  (h.get hτ hnow).find hk

theorem vals_get_subset : (t.get now k).2.vals ⊆ t.vals := by
  unfold Timehash.get
  split
  · exact List.Subset.trans vals_expire_subset vals_rejuvenate_subset
  · exact vals_expire_subset

@[simp] theorem get_timeout : (t.get now k).2.timeout = t.timeout := by
  unfold Timehash.get
  split
  · rw [expire_timeout, rejuvenate_timeout]
  · exact expire_timeout

@[simp] theorem get_rejuvenates : (t.get now k).2.rejuvenates = t.rejuvenates := by
  unfold Timehash.get
  split
  · rw [expire_rejuvenates, rejuvenate_rejuvenates]
  · exact expire_rejuvenates

theorem held_rejuvenate (h : t.find k = some v) : (t.rejuvenate now k).2.Held (· = v) now := by
  obtain ⟨hmem, hk⟩ := find_eq_some.mp h
  unfold Timehash.rejuvenate
  split
  · next hnone =>
    have hnot := find_eq_none.mp (Option.map_eq_none_iff.mpr hnone)
    exact absurd (mem_keys.mpr ⟨v, hmem, hk⟩) hnot
  · next m hm =>
    have hm' := t.node_eq_some k hm
    exact held_append (h := t.not_mem_keys_of_node k hm)
      (eq_of_key_eq (List.mem_map_of_mem hm'.1) hmem (hm'.2.trans hk.symm))

theorem held_get (hr : t.rejuvenates = true) (h : (t.get now k).1 = some v) :
    (t.get now k).2.Held (· = v) now := by
  unfold Timehash.get at h ⊢
  rw [if_pos hr] at h ⊢
  obtain ⟨hv, hk⟩ := find_eq_some.mp h
  have hmem := vals_rejuvenate_subset (vals_expire_subset hv)
  exact (held_rejuvenate (find_eq_some.mpr ⟨hmem, hk⟩)).expire (.inr (Nat.le_add_right now _))

theorem get_of_rejuvenates (hr : t.rejuvenates = true) : (t.get now k).1 = t.find k := by
  cases h : t.find k with
  | none =>
    refine find_eq_none.mpr fun hk => find_eq_none.mp h ?_
    exact keys_subset vals_get_subset hk
  | some v =>
    have hheld : (t.get now k).2.Held (· = v) now := by
      unfold Timehash.get
      rw [if_pos hr]
      exact (held_rejuvenate h).expire (.inr (Nat.le_add_right now _))
    obtain ⟨n, hn, hv, -⟩ := hheld
    exact find_eq_some.mpr ⟨List.mem_map.mpr ⟨n, hn, hv⟩, (find_eq_some.mp h).2⟩

theorem Held.modify {f : V → V} (hf : ∀ v, key (f v) = key v) (h : t.Held P τ)
    (hP : ∀ v, P v → Q (if key v = k then f v else v)) : (t.modify k f hf).Held Q τ := by
  obtain ⟨n, hn, hPn, hle⟩ := h
  have hQ := hP _ hPn
  refine ⟨_, List.mem_map_of_mem hn, ?_⟩
  split at hQ
  · next hk => rw [if_pos hk]; exact ⟨hQ, hle⟩
  · next hk => rw [if_neg hk]; exact ⟨hQ, hle⟩

end Held

end Timehash

end Okws

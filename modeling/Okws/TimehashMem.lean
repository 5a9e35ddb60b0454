import Okws.Lib.Transition
import Okws.Byte
import Okws.Timehash

/-! `timehash_t` with its nodes in memory, to which a hash table and a queue point. -/

universe u v

namespace Okws

open Lib

/-- `_h`, `_q` and the nodes, with a log of the insertions and of the rejuvenations. -/
structure TimehashMem (V : Type u) where
  mem : Nat → Option (TimehashNode V) := fun _ => none
  next : Nat := 0
  h : List Nat := []
  q : List Nat := []
  timeout : Nat
  rejuvenates : Bool
  now : Nat := 0
  inserted : List (Nat × Nat) := []
  renewed : List (Nat × Nat) := []

inductive TimehashOp (V : Type u) (K : Type v)
  | insert (v : V)
  | lookup (k : K)
  | lookupConst (k : K)
  | rejuvenate (k : K)
  | remove (k : K)
  | expire
  | expireBefore (deadline : Int)
  | clear
  | tick (dt : Nat)

namespace TimehashMem

variable {V : Type u} {K : Type v} (s : TimehashMem V)

def poke (n : Nat) (m : Option (TimehashNode V)) : Nat → Option (TimehashNode V) :=
  fun i => if i = n then m else s.mem i

def removeNode (n : Nat) : TimehashMem V :=
  { s with h := s.h.erase n, q := s.q.erase n, mem := s.poke n none }

/-- The loop of `expire`; there are no more rounds than nodes. -/
def expireLoop (deadline : Int) : Nat → TimehashMem V → TimehashMem V
  | 0, s => s
  | k + 1, s => match s.q with
    | [] => s
    | n :: _ => match s.mem n with
      | some m => if m.ctime < deadline then expireLoop deadline k (s.removeNode n) else s
      | none => s

def expireBefore (deadline : Int) : TimehashMem V := expireLoop deadline s.q.length s

def expire : TimehashMem V :=
  if s.timeout = 0 then s else s.expireBefore (s.now - s.timeout)

def clearLoop : Nat → TimehashMem V → TimehashMem V
  | 0, s => s
  | k + 1, s => match s.q with
    | [] => s
    | n :: _ => clearLoop k (s.removeNode n)

def clear : TimehashMem V := clearLoop s.q.length s

/-- `rejuvenate` of a node. -/
def rejuvenateNode (n : Nat) : TimehashMem V := { s with
  mem := s.poke n ((s.mem n).map fun m => { m with ctime := s.now })
  q := s.q.erase n ++ [n]
  renewed := s.renewed ++ [(n, s.now)] }

section Keys

variable [Keyfn V K] [DecidableEq K] (k : K)

/-- What `_h` has for the key. -/
def find : Option Nat := s.h.find? fun n => (s.mem n).any fun m => key m.val = k

def remove : Bool × TimehashMem V :=
  let s := s.expire
  match s.find k with
  | some n => (true, s.removeNode n)
  | none => (false, s)

def insert (v : V) : TimehashMem V :=
  let s := (s.remove (key v)).2
  { s with
    mem := s.poke s.next (some ⟨v, s.now⟩)
    next := s.next + 1
    h := s.next :: s.h
    q := s.q ++ [s.next]
    inserted := s.inserted ++ [(s.next, s.now)] }

def rejuvenate : Bool × TimehashMem V := match s.find k with
  | some n => (true, s.rejuvenateNode n)
  | none => (false, s)

/-- `operator[]`, with the node for its value. -/
def get : Option Nat × TimehashMem V :=
  let s := if s.rejuvenates then (s.rejuvenate k).2 else s
  let s := s.expire
  (s.find k, s)

def step : TimehashOp V K → TimehashMem V
  | .insert v => s.insert v
  | .lookup k => (s.get k).2
  | .lookupConst _ => s
  | .rejuvenate k => (s.rejuvenate k).2
  | .remove k => (s.remove k).2
  | .expire => s.expire
  | .expireBefore deadline => s.expireBefore deadline
  | .clear => s.clear
  | .tick dt => { s with now := s.now + dt }

variable (V K) in
def system : System (TimehashMem V) (TimehashOp V K) where
  init s := ∃ timeout rejuvenates, s = { timeout, rejuvenates }
  step s op := some (s.step op)

end Keys

def nodes : List (TimehashNode V) := s.q.filterMap s.mem

section Claims

variable [Keyfn V K] [DecidableEq K]

/-- The table and the queue hold the same nodes, with different keys, in the order of `_ctime`. -/
structure Consistent : Prop where
  same : s.h.Perm s.q
  nodup : s.q.Nodup
  valid : ∀ n ∈ s.q, (s.mem n).isSome
  keys : (s.nodes.map fun m => key m.val).Nodup
  ordered : s.nodes.Pairwise fun m m' => m.ctime ≤ m'.ctime

/-- `expire (deadline)` removes the older nodes from both, and nothing else. -/
def ExpiresExactly : Prop := ∀ (deadline : Int) n,
  (n ∈ (s.expireBefore deadline).q ↔ ∃ m, n ∈ s.q ∧ s.mem n = some m ∧ deadline ≤ m.ctime) ∧
    (n ∈ (s.expireBefore deadline).h ↔ n ∈ (s.expireBefore deadline).q)

/-- What a lookup finds was inserted, or rejuvenated, within the time-out. -/
def Fresh : Prop := s.timeout ≠ 0 → s.rejuvenates = false → ∀ (k : K) n, (s.get k).1 = some n →
  ∃ τ, ((n, τ) ∈ s.inserted ∨ (n, τ) ∈ s.renewed) ∧ s.now ≤ τ + s.timeout

end Claims

/-- The queue is that of the abstract table, the hash table has the same nodes, and every node was
inserted or rejuvenated at its `_ctime`. -/
structure Refines [Keyfn V K] (s : TimehashMem V) (t : Timehash V) : Prop where
  q : t.q = s.nodes
  timeout : t.timeout = s.timeout
  rejuvenates : t.rejuvenates = s.rejuvenates
  same : s.h.Perm s.q
  nodup : s.q.Nodup
  valid : ∀ n ∈ s.q, (s.mem n).isSome
  lt : ∀ n ∈ s.q, n < s.next
  ordered : t.Ordered s.now
  touched : ∀ n ∈ s.q, ∀ m, s.mem n = some m →
    (n, m.ctime) ∈ s.inserted ∨ (n, m.ctime) ∈ s.renewed

section Nodes

variable {s} {n : Nat} {m : TimehashNode V} {o : Option (TimehashNode V)} {q : List Nat}

theorem filterMap_poke (hn : n ∉ q) : q.filterMap (s.poke n o) = q.filterMap s.mem := by
  refine List.filterMap_congr fun i hi => if_neg ?_
  rintro rfl
  exact hn hi

theorem exists_split (hnodup : s.q.Nodup) (hn : n ∈ s.q) (hm : s.mem n = some m) :
    ∃ a b, s.q = a ++ n :: b ∧ n ∉ a ∧ n ∉ b ∧ s.q.erase n = a ++ b ∧
      s.nodes = a.filterMap s.mem ++ m :: b.filterMap s.mem := by
  obtain ⟨a, b, hq⟩ := List.append_of_mem hn
  rw [hq] at hnodup
  obtain ⟨-, hb, hab⟩ := List.nodup_append.1 hnodup
  have hna : n ∉ a := fun h => hab n h n (.head _) rfl
  refine ⟨a, b, hq, hna, (List.nodup_cons.1 hb).1, ?_, ?_⟩
  · rw [hq, List.erase_append_right _ hna, List.erase_cons_head]
  · rw [nodes, hq, List.filterMap_append, List.filterMap_cons_some hm]

end Nodes

section Refines

variable [Keyfn V K] {s} {t : Timehash V} {n : Nat} {m : TimehashNode V}

theorem Refines.congr (h : Refines s t) {t' : Timehash V} (hq : t'.q = t.q)
    (htimeout : t'.timeout = t.timeout) (hrej : t'.rejuvenates = t.rejuvenates) :
    Refines s t' where
  q := hq.trans h.q
  timeout := htimeout.trans h.timeout
  rejuvenates := hrej.trans h.rejuvenates
  same := h.same
  nodup := h.nodup
  valid := h.valid
  lt := h.lt
  ordered := ⟨hq ▸ h.ordered.pairwise, hq ▸ h.ordered.le⟩
  touched := h.touched

theorem Refines.consistent (h : Refines s t) : s.Consistent where
  same := h.same
  nodup := h.nodup
  valid := h.valid
  keys := h.q ▸ t.nodup
  ordered := h.q ▸ h.ordered.pairwise

theorem Refines.nil (h : Refines s t) (hq : s.q = []) : t.q = [] := by
  rw [h.q, nodes, hq]
  rfl

variable [DecidableEq K]

theorem Refines.filter_nodes (h : Refines s t) (hn : n ∈ s.q) (hm : s.mem n = some m) :
    (s.q.erase n).filterMap (s.poke n none) =
      t.q.filter fun m' => key m'.val ≠ key m.val := by
  obtain ⟨a, b, -, hna, hnb, herase, hnodes⟩ := exists_split h.nodup hn hm
  have hkeys := t.nodup
  rw [h.q, hnodes, List.map_append, List.map_cons] at hkeys
  obtain ⟨-, hb, hab⟩ := List.nodup_append.1 hkeys
  have hstay {l : List (TimehashNode V)} (hl : ∀ m' ∈ l, key m'.val ≠ key m.val) :
      l.filter (fun m' => key m'.val ≠ key m.val) = l :=
    List.filter_eq_self.2 fun m' hm' => decide_eq_true (hl m' hm')
  rw [herase, List.filterMap_append, filterMap_poke hna, filterMap_poke hnb, h.q, hnodes,
    List.filter_append, List.filter_cons_of_neg (by simp), hstay, hstay]
  · intro m' hm' heq
    exact (List.nodup_cons.1 hb).1 (heq ▸ List.mem_map_of_mem hm')
  · intro m' hm' heq
    exact hab _ (List.mem_map_of_mem hm') _ (.head _) heq

theorem Refines.removeNode (h : Refines s t) (hn : n ∈ s.q) (hm : s.mem n = some m) :
    Refines (s.removeNode n) (t.removeNode (key m.val)) where
  q := (h.filter_nodes hn hm).symm
  timeout := h.timeout
  rejuvenates := h.rejuvenates
  same := h.same.erase n
  nodup := h.nodup.erase n
  valid i hi := by
    obtain ⟨hne, hi⟩ := (h.nodup.mem_erase_iff).1 hi
    rw [show (s.removeNode n).mem i = s.mem i from if_neg hne]
    exact h.valid i hi
  lt i hi := h.lt i (List.mem_of_mem_erase hi)
  ordered := h.ordered.sublist List.filter_sublist
  touched i hi m' hm' := by
    obtain ⟨hne, hi⟩ := (h.nodup.mem_erase_iff).1 hi
    exact h.touched i hi m' ((if_neg hne).symm.trans hm')

theorem Refines.head (h : Refines s t) {q : List Nat} (hq : s.q = n :: q) : ∃ m,
    s.mem n = some m ∧ t.q = m :: q.filterMap s.mem ∧
      (t.removeNode (key m.val)).q = q.filterMap s.mem := by
  have hn : n ∈ s.q := hq ▸ .head _
  obtain ⟨m, hm⟩ := Option.isSome_iff_exists.1 (h.valid n hn)
  have hnq : n ∉ q := (List.nodup_cons.1 (hq ▸ h.nodup)).1
  refine ⟨m, hm, ?_, ?_⟩
  · rw [h.q, nodes, hq, List.filterMap_cons_some hm]
  · rw [show (t.removeNode (key m.val)).q = _ from (h.filter_nodes hn hm).symm, hq,
      List.erase_cons_head, filterMap_poke hnq]

theorem Refines.expireLoop (h : Refines s t) (deadline : Int) {k : Nat} (hk : s.q.length ≤ k) :
    Refines (expireLoop deadline k s) (t.expireBefore deadline.toNat) := by
  induction k generalizing s t with
  | zero =>
    have hq : s.q = [] := List.eq_nil_of_length_eq_zero (Nat.le_zero.1 hk)
    refine h.congr ?_ rfl rfl
    show t.q.dropWhile _ = t.q
    rw [h.nil hq, List.dropWhile_nil]
  | succ k ih =>
    unfold TimehashMem.expireLoop
    match hq : s.q with
    | [] =>
      refine h.congr ?_ rfl rfl
      show t.q.dropWhile _ = t.q
      rw [h.nil hq, List.dropWhile_nil]
    | n :: q =>
      obtain ⟨m, hm, htq, hrem⟩ := h.head hq
      have hn : n ∈ s.q := hq ▸ .head _
      simp only [hm]
      by_cases hlt : (m.ctime : Int) < deadline
      · rw [if_pos hlt]
        have hlen : (s.removeNode n).q.length ≤ k := by
          rw [show (s.removeNode n).q = s.q.erase n from rfl, hq, List.erase_cons_head]
          rw [hq] at hk
          exact Nat.le_of_succ_le_succ hk
        refine (ih (h.removeNode hn hm) hlen).congr ?_ rfl rfl
        have hold : m.ctime < deadline.toNat := by omega
        show t.q.dropWhile _ = (t.removeNode (key m.val)).q.dropWhile _
        rw [htq, hrem, List.dropWhile_cons, if_pos (decide_eq_true hold)]
      · rw [if_neg hlt]
        have hyoung : ¬m.ctime < deadline.toNat := by omega
        refine h.congr ?_ rfl rfl
        show t.q.dropWhile _ = t.q
        rw [htq, List.dropWhile_cons_of_neg (by simpa using hyoung)]

theorem Refines.expireBefore (h : Refines s t) (deadline : Int) :
    Refines (s.expireBefore deadline) (t.expireBefore deadline.toNat) :=
  h.expireLoop deadline (Nat.le_refl _)

theorem expireLoop_frame (deadline : Int) (k : Nat) (s : TimehashMem V) :
    (TimehashMem.expireLoop deadline k s).now = s.now ∧
      (TimehashMem.expireLoop deadline k s).inserted = s.inserted ∧
      (TimehashMem.expireLoop deadline k s).renewed = s.renewed := by
  induction k generalizing s with
  | zero => exact ⟨rfl, rfl, rfl⟩
  | succ k ih =>
    unfold TimehashMem.expireLoop
    split
    · exact ⟨rfl, rfl, rfl⟩
    · split
      · split
        · exact ih _
        · exact ⟨rfl, rfl, rfl⟩
      · exact ⟨rfl, rfl, rfl⟩

theorem expire_frame (s : TimehashMem V) : s.expire.now = s.now ∧
    s.expire.inserted = s.inserted ∧ s.expire.renewed = s.renewed := by
  unfold TimehashMem.expire
  split
  · exact ⟨rfl, rfl, rfl⟩
  · exact expireLoop_frame _ _ _

theorem Refines.expire (h : Refines s t) : Refines s.expire (t.expire s.now) := by
  unfold TimehashMem.expire Timehash.expire
  rw [h.timeout]
  split
  · exact h
  · have hdeadline : ((s.now : Int) - s.timeout).toNat = s.now - s.timeout := by omega
    exact hdeadline ▸ h.expireBefore _

theorem Refines.find_some (h : Refines s t) {k : K} (hk : s.find k = some n) :
    n ∈ s.q ∧ ∃ m, s.mem n = some m ∧ key m.val = k := by
  have hn := h.same.mem_iff.1 (List.mem_of_find?_eq_some hk)
  have hkey := List.find?_some hk
  obtain ⟨m, hm⟩ := Option.isSome_iff_exists.1 (h.valid n hn)
  rw [hm] at hkey
  exact ⟨hn, m, hm, of_decide_eq_true hkey⟩

theorem Refines.find_none (h : Refines s t) {k : K} (hk : s.find k = none) :
    ∀ m ∈ t.q, key m.val ≠ k := by
  intro m hm heq
  rw [h.q] at hm
  obtain ⟨n, hn, hmem⟩ := List.mem_filterMap.1 hm
  refine List.find?_eq_none.1 hk n (h.same.mem_iff.2 hn) ?_
  rw [hmem]
  exact decide_eq_true heq

theorem Refines.remove (h : Refines s t) (k : K) : Refines (s.remove k).2 (t.remove s.now k) := by
  have he := h.expire
  unfold TimehashMem.remove Timehash.remove
  dsimp only
  split
  · next n hk =>
    obtain ⟨hn, m, hm, rfl⟩ := he.find_some hk
    exact he.removeNode hn hm
  · next hk =>
    refine he.congr ?_ rfl rfl
    exact List.filter_eq_self.2 fun m hm => decide_eq_true (he.find_none hk m hm)

theorem remove_frame (s : TimehashMem V) (k : K) : (s.remove k).2.now = s.now := by
  unfold TimehashMem.remove
  dsimp only
  split <;> exact (expire_frame s).1

omit [DecidableEq K] in
theorem Refines.push (h : Refines s t) {v : V} (hv : key v ∉ t.keys) :
    Refines { s with
      mem := s.poke s.next (some ⟨v, s.now⟩)
      next := s.next + 1
      h := s.next :: s.h
      q := s.q ++ [s.next]
      inserted := s.inserted ++ [(s.next, s.now)] } (t.append s.now v hv) where
  q := by
    have hnew : s.next ∉ s.q := fun hn => Nat.lt_irrefl _ (h.lt _ hn)
    have hlast : [s.next].filterMap (s.poke s.next (some ⟨v, s.now⟩)) = [⟨v, s.now⟩] :=
      List.filterMap_cons_some (if_pos rfl)
    show t.q ++ _ = (s.q ++ [s.next]).filterMap _
    rw [List.filterMap_append, filterMap_poke hnew, hlast, h.q]
    rfl
  timeout := h.timeout
  rejuvenates := h.rejuvenates
  same := (h.same.cons s.next).trans (List.perm_append_singleton s.next s.q).symm
  nodup := List.nodup_append.2 ⟨h.nodup, List.nodup_singleton _, fun i hi j hj hij =>
    Nat.lt_irrefl _ (List.mem_singleton.1 hj ▸ hij ▸ h.lt i hi)⟩
  valid i hi := by
    by_cases hin : i = s.next
    · exact congrArg Option.isSome (if_pos hin)
    · have hi := (List.mem_append.1 hi).resolve_right fun hj => hin (List.mem_singleton.1 hj)
      exact (congrArg Option.isSome (if_neg hin)).trans (h.valid i hi)
  lt i hi := by
    obtain hi | hi := List.mem_append.1 hi
    · exact Nat.lt_succ_of_lt (h.lt i hi)
    · exact List.mem_singleton.1 hi ▸ Nat.lt_succ_self _
  ordered := h.ordered.append
  touched i hi m hm := by
    by_cases hin : i = s.next
    · subst hin
      cases (if_pos rfl).symm.trans hm
      exact .inl (List.mem_append_right _ (.head _))
    · have hi := (List.mem_append.1 hi).resolve_right fun hj => hin (List.mem_singleton.1 hj)
      exact (h.touched i hi m ((if_neg hin).symm.trans hm)).imp_left (List.mem_append_left _)

theorem Refines.insert (h : Refines s t) (v : V) : Refines (s.insert v) (t.insert s.now v) := by
  have hr := h.remove (key v)
  have hpush := hr.push (t.not_mem_keys_remove s.now (key v))
  rw [remove_frame] at hpush
  unfold TimehashMem.insert Timehash.insert
  dsimp only
  rw [remove_frame]
  exact hpush

theorem Refines.rejuvenateNode (h : Refines s t) (hn : n ∈ s.q) (hm : s.mem n = some m)
    (hv : key m.val ∉ (t.removeNode (key m.val)).keys) :
    Refines (s.rejuvenateNode n) ((t.removeNode (key m.val)).append s.now m.val hv) := by
  have hnew : n ∉ s.q.erase n := fun hmem => ((h.nodup.mem_erase_iff).1 hmem).1 rfl
  have hmem {i : Nat} (hi : i ∈ s.q.erase n) : i ≠ n ∧ i ∈ s.q := (h.nodup.mem_erase_iff).1 hi
  have hother {i : Nat} (hne : i ≠ n) : (s.rejuvenateNode n).mem i = s.mem i := if_neg hne
  have hself : (s.rejuvenateNode n).mem n = some ⟨m.val, s.now⟩ := by
    refine (if_pos rfl).trans ?_
    rw [hm]
    rfl
  refine ⟨?_, h.timeout, h.rejuvenates, ?_, ?_, fun i hi => ?_, fun i hi => ?_,
    (h.ordered.sublist List.filter_sublist).append, fun i hi m' hm' => ?_⟩
  · have hq := h.filter_nodes hn hm
    rw [filterMap_poke hnew] at hq
    show t.q.filter _ ++ _ = (s.q.erase n ++ [n]).filterMap (s.rejuvenateNode n).mem
    rw [← hq, List.filterMap_append, List.filterMap_cons_some hself]
    exact congrArg (· ++ _) (filterMap_poke hnew).symm
  · exact h.same.trans (((List.perm_cons_erase hn).trans
      (List.perm_append_singleton n (s.q.erase n)).symm))
  · refine List.nodup_append.2 ⟨h.nodup.erase n, List.nodup_singleton _, fun i hi j hj hij => ?_⟩
    rw [List.mem_singleton.1 hj] at hij
    exact (hmem hi).1 hij
  · obtain hi | hi := List.mem_append.1 hi
    · rw [hother (hmem hi).1]
      exact h.valid i (hmem hi).2
    · rw [List.mem_singleton.1 hi, hself]
      rfl
  · obtain hi | hi := List.mem_append.1 hi
    · exact h.lt i (hmem hi).2
    · exact List.mem_singleton.1 hi ▸ h.lt n hn
  · obtain hi | hi := List.mem_append.1 hi
    · exact (h.touched i (hmem hi).2 m' ((hother (hmem hi).1).symm.trans hm')).imp_right
        (List.mem_append_left _)
    · rw [List.mem_singleton.1 hi, hself] at hm'
      cases hm'
      rw [List.mem_singleton.1 hi]
      exact .inr (List.mem_append_right _ (.head _))

theorem Refines.rejuvenate (h : Refines s t) (k : K) :
    ∃ t', Refines (s.rejuvenate k).2 t' := by
  unfold TimehashMem.rejuvenate
  split
  · next n hk =>
    obtain ⟨hn, m, hm, -⟩ := h.find_some hk
    exact ⟨_, h.rejuvenateNode hn hm (t.not_mem_keys_removeNode _)⟩
  · exact ⟨t, h⟩

theorem Refines.get (h : Refines s t) (k : K) : ∃ t', Refines (s.get k).2 t' := by
  unfold TimehashMem.get
  dsimp only
  split
  · obtain ⟨t', h'⟩ := h.rejuvenate k
    exact ⟨_, h'.expire⟩
  · exact ⟨_, h.expire⟩

theorem Refines.clearLoop (h : Refines s t) (k : Nat) :
    ∃ t', Refines (TimehashMem.clearLoop k s) t' := by
  induction k generalizing s t with
  | zero => exact ⟨t, h⟩
  | succ k ih =>
    unfold TimehashMem.clearLoop
    match hq : s.q with
    | [] => exact ⟨t, h⟩
    | n :: q =>
      obtain ⟨m, hm, -, -⟩ := h.head hq
      exact ih (h.removeNode (hq ▸ .head _) hm)

omit [DecidableEq K] in
theorem Refines.tick (h : Refines s t) (dt : Nat) : Refines { s with now := s.now + dt } t where
  q := h.q
  timeout := h.timeout
  rejuvenates := h.rejuvenates
  same := h.same
  nodup := h.nodup
  valid := h.valid
  lt := h.lt
  ordered := h.ordered.mono (Nat.le_add_right s.now dt)
  touched := h.touched

theorem Refines.step (h : Refines s t) (op : TimehashOp V K) : ∃ t', Refines (s.step op) t' := by
  cases op with
  | insert v => exact ⟨_, h.insert v⟩
  | lookup k => exact h.get k
  | lookupConst => exact ⟨t, h⟩
  | rejuvenate k => exact h.rejuvenate k
  | remove k => exact ⟨_, h.remove k⟩
  | expire => exact ⟨_, h.expire⟩
  | expireBefore deadline => exact ⟨_, h.expireBefore deadline⟩
  | clear => exact h.clearLoop _
  | tick dt => exact ⟨t, h.tick dt⟩

theorem refines_reachable (h : (system V K).Reachable s) : ∃ t : Timehash V, Refines s t := by
  refine h.invariant (I := fun s => ∃ t, Refines s t) (fun s hs => ?_)
    fun s op s' _ ⟨t, ht⟩ _ hstep => ?_
  · obtain ⟨timeout, rejuvenates, rfl⟩ := hs
    exact ⟨.empty timeout rejuvenates, rfl, rfl, rfl, .nil, .nil, nofun, nofun, ⟨.nil, nofun⟩, nofun⟩
  · cases hstep
    exact ht.step op

theorem Refines.expireLoop_gone (h : Refines s t) (deadline : Int) (k : Nat) : ∃ gone,
    s.q = gone ++ (TimehashMem.expireLoop deadline k s).q ∧
      (∀ n ∈ gone, ∃ m, s.mem n = some m ∧ m.ctime < deadline) ∧
      ∀ n ∈ (TimehashMem.expireLoop deadline k s).q,
        (TimehashMem.expireLoop deadline k s).mem n = s.mem n := by
  induction k generalizing s t with
  | zero => exact ⟨[], rfl, nofun, fun _ _ => rfl⟩
  | succ k ih =>
    unfold TimehashMem.expireLoop
    match hq : s.q with
    | [] => exact ⟨[], hq.symm, nofun, fun _ _ => rfl⟩
    | n :: q =>
      obtain ⟨m, hm, -, -⟩ := h.head hq
      have hn : n ∈ s.q := hq ▸ .head _
      simp only [hm]
      by_cases hlt : (m.ctime : Int) < deadline
      · rw [if_pos hlt]
        obtain ⟨gone, hgone, hold, hsame⟩ := ih (h.removeNode hn hm)
        have hrest : q = gone ++ (TimehashMem.expireLoop deadline k (s.removeNode n)).q := by
          rw [← hgone, show (s.removeNode n).q = s.q.erase n from rfl, hq, List.erase_cons_head]
        have hnq : n ∉ q := (List.nodup_cons.1 (hq ▸ h.nodup)).1
        have hmem {i : Nat} (hi : i ∈ q) : (s.removeNode n).mem i = s.mem i :=
          if_neg (by rintro rfl; exact hnq hi)
        refine ⟨n :: gone, congrArg (n :: ·) hrest, ?_, fun i hi => ?_⟩
        · refine List.forall_mem_cons.2 ⟨⟨m, hm, hlt⟩, fun i hi => ?_⟩
          rw [← hmem (hrest ▸ List.mem_append_left _ hi)]
          exact hold i hi
        · rw [hsame i hi, hmem (hrest ▸ List.mem_append_right _ hi)]
      · rw [if_neg hlt]
        exact ⟨[], hq.symm, nofun, fun _ _ => rfl⟩

theorem Refines.expiresExactly (h : Refines s t) : s.ExpiresExactly := by
  intro deadline n
  have he := h.expireBefore deadline
  obtain ⟨gone, hq, hold, hsame⟩ := h.expireLoop_gone deadline s.q.length
  refine ⟨⟨fun hn => ?_, ?_⟩, he.same.mem_iff⟩
  · obtain ⟨m, hm⟩ := Option.isSome_iff_exists.1 (he.valid n hn)
    have hmem : m ∈ (t.expireBefore deadline.toNat).q := by
      rw [he.q]
      exact List.mem_filterMap.2 ⟨n, hn, hm⟩
    have hle := Timehash.le_of_mem_dropWhile h.ordered.pairwise hmem
    exact ⟨m, hq ▸ List.mem_append_right _ hn, (hsame n hn).symm.trans hm, by omega⟩
  · rintro ⟨m, hn, hm, hle⟩
    rw [hq] at hn
    refine (List.mem_append.1 hn).resolve_left fun hgone => ?_
    obtain ⟨m', hm', hlt⟩ := hold n hgone
    cases hm.symm.trans hm'
    omega

theorem Refines.fresh (h : Refines s t) : s.Fresh (K := K) := by
  intro htimeout hrej k n hget
  have he := h.expire
  unfold TimehashMem.get at hget
  simp only [hrej, Bool.false_eq_true, if_false] at hget
  obtain ⟨hn, m, hm, -⟩ := he.find_some hget
  obtain ⟨hnow, hins, hren⟩ := expire_frame s
  refine ⟨m.ctime, ?_, ?_⟩
  · have ht := he.touched n hn m hm
    rwa [hins, hren] at ht
  · have hmem : m ∈ (t.expire s.now).q := by
      rw [he.q]
      exact List.mem_filterMap.2 ⟨n, hn, hm⟩
    have hyoung := h.ordered.unexpired_expire m hmem
    rw [Timehash.expire_timeout, h.timeout] at hyoung
    have := hyoung htimeout
    omega

/-- Every run keeps the table and the queue in step, and in order. -/
theorem consistent_of_reachable (h : (system V K).Reachable s) :
    s.Consistent ∧ s.ExpiresExactly ∧ s.Fresh (K := K) := by
  obtain ⟨t, ht⟩ := refines_reachable h
  exact ⟨ht.consistent, ht.expiresExactly, ht.fresh⟩

end Refines

instance : Keyfn Str Str := ⟨id⟩

/-- Of two names, the first one is too old when the second one comes. -/
theorem consistent_of_two : ∃ s : TimehashMem Str, s.q = [1] ∧
    s.Consistent ∧ s.ExpiresExactly ∧ s.Fresh (K := Str) :=
  ⟨_, rfl, consistent_of_reachable (System.reachable_exec (M := system Str Str)
    [.insert [97], .tick 11, .insert [98]] ⟨10, false, rfl⟩ rfl)⟩

/-- An entry that is rejuvenated stays, also in a table whose lookups do not do that. -/
theorem not_fresh_renewed : ¬∀ s : TimehashMem Str, (system Str Str).Reachable s → s.timeout ≠ 0 →
    s.rejuvenates = false → ∀ (k : Str) n, (s.get k).1 = some n →
      ∃ τ, (n, τ) ∈ s.inserted ∧ s.now ≤ τ + s.timeout := by
  intro h
  have hrun : ∃ s, (system Str Str).exec { timeout := 10, rejuvenates := false }
      [.insert [97], .tick 10, .rejuvenate [97], .tick 1] = some s ∧ s.timeout = 10 ∧
      s.rejuvenates = false ∧ (s.get ([97] : Str)).1 = some 0 ∧ s.inserted = [(0, 0)] ∧
      s.now = 11 := ⟨_, rfl, rfl, rfl, rfl, rfl, rfl⟩
  obtain ⟨s, hs, htimeout, hrej, hget, hins, hnow⟩ := hrun
  have hreach := System.reachable_exec (M := system Str Str) _ ⟨10, false, rfl⟩ hs
  obtain ⟨τ, hτ, hle⟩ := h s hreach (by rw [htimeout]; decide) hrej [97] 0 hget
  rw [hins] at hτ
  cases List.mem_singleton.1 hτ
  omega

end TimehashMem

end Okws

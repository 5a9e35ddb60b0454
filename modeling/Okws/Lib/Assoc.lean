import Mathlib.Data.List.Nodup

/-! Lists of keys and values, sorted by their keys. -/

namespace Okws.Lib

variable {K V W O : Type} {key : K → O} {l l' : List (K × V)}

def Apart (key : K → O) (l : List (K × V)) : Prop := (l.map fun b => key b.1).Nodup

theorem Apart.nodup (h : Apart key l) : l.Nodup := List.Nodup.of_map _ h

theorem Apart.unique (h : Apart key l) {a b : K × V} (ha : a ∈ l) (hb : b ∈ l)
    (hab : key a.1 = key b.1) : a = b :=
  List.inj_on_of_nodup_map h ha hb hab

section Lookup

variable [BEq K]

theorem lookup_map (f : V → W) (l : List (K × V)) (k : K) :
    (l.map fun b => (b.1, f b.2)).lookup k = (l.lookup k).map f := by
  induction l with
  | nil => rfl
  | cons b l ih =>
    rw [List.map_cons, List.lookup_cons, List.lookup_cons, ih]
    cases k == b.1 <;> rfl

variable [LawfulBEq K]

theorem Apart.lookup (h : Apart key l) {k : K} {v : V} : l.lookup k = some v ↔ (k, v) ∈ l := by
  rw [List.lookup_eq_some_iff]
  constructor
  · rintro ⟨l₁, l₂, rfl, -⟩
    exact List.mem_append_right _ List.mem_cons_self
  · intro hmem
    obtain ⟨l₁, l₂, rfl⟩ := List.append_of_mem hmem
    refine ⟨l₁, l₂, rfl, fun b hb => ?_⟩
    rw [bne_iff_ne]
    intro heq
    have hbv := h.unique (List.mem_append_left _ hb) hmem (congrArg key heq.symm)
    exact List.disjoint_of_nodup_append h.nodup hb (hbv ▸ List.mem_cons_self)

end Lookup

variable [LE O] [DecidableLE O]

def sortBy (key : K → O) (l : List (K × V)) : List (K × V) :=
  l.mergeSort fun a b => key a.1 ≤ key b.1

theorem map_sortBy (key : K → O) (f : V → W) (l : List (K × V)) :
    (sortBy key l).map (fun b => (b.1, f b.2)) = sortBy key (l.map fun b => (b.1, f b.2)) :=
  List.map_mergeSort fun _ _ _ _ => rfl

theorem sortBy_perm (l : List (K × V)) : (sortBy key l).Perm l := List.mergeSort_perm l _

variable [Std.IsLinearOrder O]

theorem Apart.sortBy_eq (h : Apart key l) (hp : l.Perm l') : sortBy key l = sortBy key l' := by
  have htrans (a b c : K × V) (hab : decide (key a.1 ≤ key b.1) = true)
      (hbc : decide (key b.1 ≤ key c.1) = true) : decide (key a.1 ≤ key c.1) = true :=
    decide_eq_true (Std.le_trans (of_decide_eq_true hab) (of_decide_eq_true hbc))
  have htotal (a b : K × V) : (decide (key a.1 ≤ key b.1) || decide (key b.1 ≤ key a.1)) = true := by
    rw [Bool.or_eq_true, decide_eq_true_eq, decide_eq_true_eq]
    exact Std.le_total
  refine List.Perm.eq_of_pairwise ?_ (List.pairwise_mergeSort htrans htotal l)
    (List.pairwise_mergeSort htrans htotal l') ?_
  · intro a b ha hb hab hba
    refine h.unique (List.mem_mergeSort.1 ha) (hp.mem_iff.2 (List.mem_mergeSort.1 hb)) ?_
    exact Std.le_antisymm (of_decide_eq_true hab) (of_decide_eq_true hba)
  · exact (sortBy_perm l).trans (hp.trans (sortBy_perm l').symm)

variable [BEq K] [LawfulBEq K]

theorem sortBy_eq_iff (h : Apart key l) (h' : Apart key l') :
    sortBy key l = sortBy key l' ↔ ∀ k, l.lookup k = l'.lookup k := by
  constructor
  · intro heq k
    have hp : l.Perm l' := (sortBy_perm l).symm.trans (heq ▸ sortBy_perm l')
    refine Option.ext fun v => ?_
    rw [h.lookup, h'.lookup, hp.mem_iff]
  · intro hk
    refine h.sortBy_eq ((List.perm_ext_iff_of_nodup h.nodup h'.nodup).2 fun b => ?_)
    rw [← h.lookup, ← h'.lookup, hk]

end Okws.Lib

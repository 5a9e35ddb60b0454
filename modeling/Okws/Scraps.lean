import Okws.HandOff

namespace Okws

open Lib

/-- `rpc_bytes::setsize`.  The bytes that are new are what the memory holds. -/
def setsize (mem : Nat → UInt8) (o : Str) (n : Nat) : Str := (o ++ fresh mem n).take n

theorem setsize_length (mem : Nat → UInt8) (o : Str) (n : Nat) :
    (setsize mem o n).length = n := by simp [setsize, fresh]

namespace Suiolite

/-- `load_into_xdr<n>`, into an array that may hold something already. -/
def loadIntoXdrN (mem : Nat → UInt8) (n : Nat) (o : Str) (s : Suiolite) :
    Option (Str × Suiolite) :=
  let nbytes := min n s.resid
  xdrLoop nbytes nbytes (setsize mem o nbytes) s

def clear (s : Suiolite) : Suiolite :=
  { s with scb := false, bep := s.len, rp := 0, bytesRead := 0, dep0 := 0, dep1 := 0 }

/-- The states of a buffer between the calls of its functions. -/
inductive Reachable : Suiolite → Prop
  | alloc (l : Nat) (scb : Bool) : Reachable (alloc l scb)
  | clear {s : Suiolite} : Reachable s → Reachable s.clear
  | setscb {s : Suiolite} (scb : Bool) : Reachable s → Reachable { s with scb := scb }
  | input {s : Suiolite} {bs : Str} : Reachable s → bs.length ≤ s.free →
    Reachable ((s.loadIov.readv bs).accountForNewBytes bs.length)
  | load {s s' : Suiolite} {bs : Str} {n : Nat} : Reachable s →
    s.loadFromBuffer bs = some (n, s') → Reachable s'
  | rembytes {s s' : Suiolite} {n : Nat} {docall : Bool} : Reachable s →
    s.rembytes n = some (docall, s') → Reachable s'

structure Void (s : Suiolite) : Prop where
  len : s.len = 0
  mem : s.mem = []
  bep : s.bep = 0
  rp : s.rp = 0
  dep0 : s.dep0 = 0
  dep1 : s.dep1 = 0

variable {s s' : Suiolite}

theorem Void.resid (h : s.Void) : s.resid = 0 := by simp [Suiolite.resid, h.rp, h.dep0, h.dep1]

theorem Void.contents (h : s.Void) : s.contents = [] := by simp [Suiolite.contents, slice, h.mem]

theorem Void.load (h : s.Void) {bs : Str} {n : Nat} (hl : s.loadFromBuffer bs = some (n, s')) :
    s'.Inv ∨ s'.Void := by
  have hres : s.resid ≤ s.len := by simp [h.resid]
  have hcap : s.capacity = some 0 := by simp [capacity, h.resid, h.len]
  cases bs with
  | nil =>
    simp [loadFromBuffer, hcap] at hl
    rw [← hl.2]
    exact .inr ⟨h.len, h.mem, h.bep, h.rp, h.dep0, h.dep1⟩
  | cons b bs =>
    have hfit : s.len - s.resid < (b :: bs).length := by simp [h.len]
    cases hg : s.grow ((b :: bs).length + 10) with
    | none =>
      rw [List.length_cons] at hg
      simp [loadFromBuffer, hcap, hg] at hl
    | some s₁ =>
      obtain ⟨hi, -, hz⟩ := grow_inv (Nat.succ_pos _) hg
      obtain ⟨_, s₂, hs, hf⟩ := grow_filled hfit hres hg
      cases hs.symm.trans hl
      refine .inl (hi.filled ?_ hf).1
      rw [hz, Nat.sub_zero, List.length_take]
      exact Nat.min_le_left _ _

theorem Reachable.cases (h : s.Reachable) : s.Inv ∨ s.Void := by
  induction h with
  | alloc l scb =>
    cases l with
    | zero => exact .inr ⟨rfl, rfl, rfl, rfl, rfl, rfl⟩
    | succ l => exact .inl (Inv.alloc l.succ_pos scb)
  | clear _ ih =>
    refine ih.imp (fun h => ?_) fun h => ⟨h.len, h.mem, h.len, rfl, rfl, rfl⟩
    have hpos : 0 < _ := Nat.lt_of_le_of_lt (Nat.zero_le _) (h.bep ▸ h.rp)
    exact ⟨h.mem, rfl, hpos, Nat.le_refl 0, ⟨Nat.le_refl 0, Nat.zero_le _⟩, .inr rfl⟩
  | setscb _ _ ih =>
    exact ih.imp (fun h => ⟨h.mem, h.bep, h.rp, h.dep0, h.dep1, h.config⟩)
      fun h => ⟨h.len, h.mem, h.bep, h.rp, h.dep0, h.dep1⟩
  | @input s bs _ hbs ih =>
    refine ih.imp (fun h => ?_) fun h => ?_
    · exact (h.filled (h.free_eq ▸ hbs) (readv_filled hbs)).1
    · obtain rfl : bs = [] := List.length_eq_zero_iff.1
        (by simpa [free, loadIov, h.bep, h.rp, h.dep0, h.dep1] using hbs)
      exact ⟨h.len, by simp [accountForNewBytes, readv, loadIov, h.mem], h.bep, h.rp,
        by simp [accountForNewBytes, readv, loadIov, h.dep0],
        by simp [accountForNewBytes, readv, loadIov, h.dep1]⟩
  | load _ hl ih => exact ih.elim (fun h => .inl (h.load hl)) (·.load hl)
  | @rembytes s s' n docall _ hr ih =>
    refine ih.imp (fun h => ?_) fun h => ?_
    · have hn : n ≤ s.resid := by
        rw [Suiolite.rembytes] at hr
        split at hr
        · assumption
        · cases hr
      obtain ⟨_, s₁, hs, hi, -⟩ := h.rembytes hn
      cases hs.symm.trans hr
      exact hi
    · simp only [Suiolite.rembytes, h.resid, Nat.le_zero, Option.ite_none_right_eq_some] at hr
      obtain ⟨rfl, hr⟩ := hr
      simp [h.bep, h.rp] at hr
      rw [← hr.2]
      exact ⟨h.len, h.mem, rfl, rfl, rfl, h.dep0⟩

theorem Inv.rembytes_wrap (h : s.Inv) (hlt : s.dep1 - s.rp < s.resid) {docall : Bool}
    (hr : s.rembytes (s.dep1 - s.rp) = some (docall, s')) :
    s'.dep1 - s'.rp = s.resid - (s.dep1 - s.rp) := by
  have hdep0 : s.dep0 ≠ 0 := by
    simp only [Suiolite.resid] at hlt
    omega
  have hbep : s.dep1 = s.bep := h.config.resolve_right hdep0
  rw [hbep] at hlt hr
  simp only [Suiolite.rembytes, if_pos (Nat.le_of_lt hlt), if_pos (Nat.le_refl _)] at hr
  cases hr
  simp [Suiolite.resid, hbep]

theorem Inv.getdata_take (h : s.Inv) : s.getdata = s.contents.take (s.dep1 - s.rp) := by
  have hlen : s.getdata.length = s.dep1 - s.rp :=
    slice_length (by rw [h.mem, ← h.bep]; exact h.dep1.2)
  rw [contents, ← hlen]
  exact List.take_left.symm

theorem Inv.upper_pos (h : s.Inv) (hr : 0 < s.resid) : 0 < s.dep1 - s.rp := by
  refine Nat.pos_of_ne_zero fun h0 => h.getdata_ne_nil hr ?_
  rw [h.getdata_take, h0, List.take_zero]

theorem Inv.xdrLoop_succ (h : s.Inv) (fuel : Nat) {n : Nat} (hpos : 0 < n)
    (hle : n ≤ s.resid) (o : Str) :
    ∃ docall s', s.rembytes (min n (s.dep1 - s.rp)) = some (docall, s') ∧ s'.Inv ∧
      s'.contents = s.contents.drop (min n (s.dep1 - s.rp)) ∧
      xdrLoop (fuel + 1) n o s = xdrLoop fuel (n - (s.dep1 - s.rp))
        (poke o 0 (s.contents.take (min n (s.dep1 - s.rp)))) s' := by
  obtain ⟨docall, s', hr, hi, -, hc⟩ := h.rembytes
    (Nat.le_trans (Nat.min_le_left n (s.dep1 - s.rp)) hle)
  refine ⟨docall, s', hr, hi, hc, ?_⟩
  have hip : s.getdata.take n = s.contents.take (min n (s.dep1 - s.rp)) := by
    rw [h.getdata_take, List.take_take]
  have hlen : (s.contents.take (min n (s.dep1 - s.rp))).length =
      min n (s.dep1 - s.rp) := by
    rw [List.length_take, h.resid_eq]
    omega
  have hsub : n - min n (s.dep1 - s.rp) = n - (s.dep1 - s.rp) := by omega
  obtain ⟨m, rfl⟩ := Nat.exists_eq_succ_of_ne_zero (Nat.ne_of_gt hpos)
  rw [xdrLoop]
  simp only [Nat.succ_eq_add_one] at hip hlen hr hsub ⊢
  simp only [hip, hlen, hr, hsub, Option.bind_some]

theorem Inv.loadIntoXdrN (h : s.Inv) (mem : Nat → UInt8) (n : Nat) (o : Str) :
    ∃ s', loadIntoXdrN mem n o s = some (poke (poke (setsize mem o (min n s.resid)) 0
          (s.contents.take (min (min n s.resid) (s.dep1 - s.rp)))) 0
          ((s.contents.drop (s.dep1 - s.rp)).take (min n s.resid - (s.dep1 - s.rp))), s') ∧
      s'.contents = s.contents.drop (min n s.resid) := by
  rw [Suiolite.loadIntoXdrN]
  generalize hk : min n s.resid = k
  generalize setsize mem o k = o'
  have hle : k ≤ s.resid := hk ▸ Nat.min_le_right _ _
  obtain rfl | hpos := Nat.eq_zero_or_pos k
  · exact ⟨s, by simp [xdrLoop_zero], rfl⟩
  obtain ⟨docall, s₁, hr, hi, hc, hloop⟩ := h.xdrLoop_succ (k - 1) hpos hle o'
  rw [Nat.sub_add_cancel hpos] at hloop
  by_cases hk : k ≤ s.dep1 - s.rp
  · rw [Nat.min_eq_left hk] at hloop hc
    rw [Nat.sub_eq_zero_of_le hk, xdrLoop_zero] at hloop
    refine ⟨s₁, hloop.trans ?_, hc⟩
    rw [Nat.min_eq_left hk, Nat.sub_eq_zero_of_le hk, List.take_zero, poke_nil]
  · -- the second round: all that is left lies in one region
    have hlt : s.dep1 - s.rp < k := by omega
    rw [Nat.min_eq_right (Nat.le_of_lt hlt)] at hr hc hloop ⊢
    have hup := h.rembytes_wrap (Nat.lt_of_lt_of_le hlt hle) hr
    have hupper := h.upper_pos (Nat.lt_of_lt_of_le hpos hle)
    have hres := hi.resid_eq
    rw [hc, List.length_drop, h.resid_eq] at hres
    obtain ⟨docall', s₂, -, -, hc₂, hloop₂⟩ := hi.xdrLoop_succ (k - 2)
      (n := k - (s.dep1 - s.rp)) (Nat.sub_pos_of_lt hlt) (hres ▸ Nat.sub_le_sub_right hle _)
      (poke o' 0 (s.contents.take (s.dep1 - s.rp)))
    have hrounds : k - 2 + 1 = k - 1 := by omega
    have hlast : k - (s.dep1 - s.rp) ≤ s.resid - (s.dep1 - s.rp) := Nat.sub_le_sub_right hle _
    rw [hup, Nat.min_eq_left hlast, Nat.sub_eq_zero_of_le hlast, xdrLoop_zero, hc, hrounds]
      at hloop₂
    rw [hup, Nat.min_eq_left hlast, hc, List.drop_drop, Nat.add_sub_of_le (Nat.le_of_lt hlt)]
      at hc₂
    exact ⟨s₂, hloop.trans hloop₂, hc₂⟩

/-- What the receiver of a connection relies on: it gets what was waiting, up to `n` bytes, and the
buffer keeps the rest. -/
def HandsOn (s : Suiolite) (n : Nat) : Prop :=
  ∀ mem o, ∃ s', s.loadIntoXdrN mem n o = some (s.contents.take (min n s.resid), s') ∧
    s'.contents = s.contents.drop (min n s.resid)

theorem getElem?_poke {o t : Str} {i : Nat} (hi : t.length ≤ i) : (poke o 0 t)[i]? = o[i]? := by
  simp only [poke, List.take_zero, List.nil_append, Nat.zero_add]
  rw [List.getElem?_append_right hi, List.getElem?_drop, Nat.add_sub_of_le hi]

theorem Inv.handsOn (h : s.Inv) {n : Nat} (hn : min n s.resid ≤ s.dep1 - s.rp) :
    s.HandsOn n := by
  intro mem o
  obtain ⟨s', hrun, hc⟩ := h.loadIntoXdrN mem n o
  refine ⟨s', hrun.trans ?_, hc⟩
  rw [Nat.min_eq_left hn, Nat.sub_eq_zero_of_le hn, List.take_zero, poke_nil, poke_all]
  rw [setsize_length, List.length_take, h.resid_eq]
  omega

theorem Inv.not_handsOn (h : s.Inv) {n : Nat} (hn : s.dep1 - s.rp < min n s.resid) :
    ¬ s.HandsOn n := by
  intro hall
  obtain ⟨k, hk⟩ : ∃ k, min n s.resid = k + 1 :=
    Nat.exists_eq_succ_of_ne_zero (Nat.ne_of_gt (Nat.lt_of_le_of_lt (Nat.zero_le _) hn))
  have hlen : k < s.contents.length := by
    rw [h.resid_eq]
    omega
  -- memory that does not hold the last byte that is to be handed on
  let mem : Nat → UInt8 := fun _ => s.contents[k] + 1
  obtain ⟨s', hrun, -⟩ := hall mem []
  obtain ⟨s'', hrun', -⟩ := h.loadIntoXdrN mem n []
  have heq := congrArg (fun r : Str × Suiolite => r.1[k]?)
    (Option.some.inj (hrun.symm.trans hrun'))
  have hupper : 0 < s.dep1 - s.rp := h.upper_pos (by omega)
  have hfirst : (s.contents.take (min (k + 1) (s.dep1 - s.rp))).length ≤ k := by
    rw [List.length_take]
    omega
  have hsecond : ((s.contents.drop (s.dep1 - s.rp)).take (k + 1 - (s.dep1 - s.rp))).length ≤ k := by
    rw [List.length_take]
    omega
  have hmem : (setsize mem [] (k + 1))[k]? = some (s.contents[k] + 1) := by
    simp [setsize, fresh, mem]
  simp only [hk, getElem?_poke hsecond, getElem?_poke hfirst, hmem] at heq
  simp [hlen] at heq

theorem handsOn_iff (h : s.Reachable) (n : Nat) :
    s.HandsOn n ↔ min n s.resid ≤ s.dep1 - s.rp := by
  cases h.cases with
  | inl h =>
    refine ⟨fun hall => ?_, h.handsOn⟩
    by_contra hn
    exact h.not_handsOn (Nat.lt_of_not_le hn) hall
  | inr h =>
    simp only [h.resid, Nat.min_zero, Nat.zero_le, iff_true]
    exact fun mem o => ⟨s, by simp [loadIntoXdrN, h.resid, setsize, xdrLoop_zero],
      by simp [h.resid]⟩

theorem handsOn_straight : ∃ s : Suiolite, s.Reachable ∧ s.contents = [1, 2, 3] ∧ s.HandsOn 2 :=
  have h : Reachable _ := @Reachable.input _ [1, 2, 3] (.alloc 4 true) (by decide)
  ⟨_, h, rfl, (handsOn_iff h 2).2 (by decide)⟩

/-- Four bytes of buffer, and four bytes of data that begin in the middle of it. -/
theorem handsOn_wrapped : ∃ s : Suiolite, s.Reachable ∧ s.contents = [3, 4, 5, 6] ∧
    ¬ s.HandsOn 4 ∧ ∃ s', s.loadIntoXdrN (fun _ => 0) 4 [] = some ([5, 6, 0, 0], s') := by
  have h₁ : Reachable _ := @Reachable.input _ [1, 2, 3] (.alloc 4 true) (by decide)
  have h₂ : Reachable _ := @Reachable.load _ _ [4, 5, 6] _ (.rembytes h₁ (n := 2) rfl) rfl
  refine ⟨_, h₂, rfl, fun hall => ?_, _, rfl⟩
  obtain ⟨s', hrun, -⟩ := hall (fun _ => 0) []
  have hout : some ([5, 6, 0, 0] : Str) = some [3, 4, 5, 6] := congrArg (·.map (·.1)) hrun
  exact absurd hout (by decide)

end Suiolite

end Okws

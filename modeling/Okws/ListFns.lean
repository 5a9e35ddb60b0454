import Mathlib
import Okws.Heap
import Okws.ScalarArith

/-! The functions on lists that count positions: `range`, `slice` and `splice`. -/

namespace Okws.Pub3

/-- A list with as many elements as fit into memory. -/
structure Els where
  els : List (Option Ptr)
  length_lt : els.length < 2 ^ 63

/-- The sum of two numbers, which is not defined if it overflows. -/
def addInt64 (x y : Int64) : Option Int64 :=
  if -2 ^ 63 ≤ x.toInt + y.toInt ∧ x.toInt + y.toInt < 2 ^ 63 then
    some (.ofInt (x.toInt + y.toInt)) else none

/-- A sum of 64 bits that becomes an `int`. -/
def toInt32 (u : UInt64) : Int := (u.toNat : Int).bmod (2 ^ 32)

section Range

/-- The loop of `range`; it may run out of steps, and end in a sum that is not defined. -/
def rangeLoop (h s : Int64) : Nat → Int64 → List (Option Ptr) → Option (Option (List (Option Ptr)))
  | 0, _, _ => none
  | n + 1, i, el =>
    if i.toInt < h.toInt then match addInt64 i s with
      | none => some none
      | some i' => rangeLoop h s n i' (el ++ [some (.const (.int i))])
    else some (some el)

/-- `range_t::v_eval_2`. -/
def range (steps : Nat) : List Int64 → Option (Option (List (Option Ptr)))
  | [h] => rangeLoop h 1 steps 0 []
  | [l, h] => rangeLoop h 1 steps l []
  | l :: h :: s :: _ => rangeLoop h s steps l []
  | [] => some none

end Range

section Slice

variable (l : Els)

/-- `slice_t::v_eval_2`; there is no result if something outside the list is read. -/
def slice (args : List Int64) : Option (List (Option Ptr)) :=
  let size := l.els.length
  let pos (x : Int64) : Int := toInt32 ((if x < 0 then .ofNat size else 0) + x.toUInt64)
  let start := (args[0]?.map pos).getD 0
  let stop := (args[1]?.map pos).getD (toInt32 (.ofNat size))
  let start := if start < 0 then 0 else start
  let stop := if 0 < stop ∧ size < stop.toNat then toInt32 (.ofNat size) else stop
  (List.range' start.toNat (stop - start).toNat).mapM fun j => l.els[j]?

end Slice

section Splice

/-- `safe_push`, less the push. -/
def safePush : Option Ptr → Mem (Option Ptr)
  | none => pure (some .null)
  | some p => some <$> copy p

/-- `splice_t::v_eval_1`, on arguments of the right kinds. -/
def splice (l : Els) (i r : Int64) (objs : List (Option Ptr)) : Mem (List (Option Ptr)) := do
  let lim := min l.els.length i.toUInt64.toNat
  let a ← (l.els.take lim).mapM safePush
  let b ← objs.mapM safePush
  match addInt64 i r with
  | none => Mem.stuck
  | some j => do
    let c ← (l.els.drop j.toUInt64.toNat).mapM safePush
    pure (a ++ b ++ c)

end Splice

namespace Js

/-- A position, counted from the end if it is negative, and clamped. -/
def position (size : Nat) (x : Int) : Nat := if x < 0 then (size + x).toNat else min size x.toNat

/-- `Array.slice`. -/
def slice {α : Type} (l : List α) (s e : Int) : List α :=
  (l.take (position l.length e)).drop (position l.length s)

/-- The array that `Array.splice` leaves. -/
def splice {α : Type} (l : List α) (i r : Int) (objs : List α) : List α :=
  let start := position l.length i
  let count := min r.toNat (l.length - start)
  l.take start ++ objs ++ l.drop (start + count)

end Js

/-- A position behind a list, or counted from its end. -/
def fromEnd (size : Nat) (x : Int) : Int := if x < 0 then size + x else x

def clamp (size : Nat) (x : Int) : Nat := min size x.toNat

/-- What is left of a position is an `int`. -/
def narrow (size : Nat) (x : Int64) : Int := (fromEnd size x.toInt).bmod (2 ^ 32)

/-- The positions stay where they are when they become `int`s, or nothing is selected either way. -/
def SliceFits (size : Nat) (s e : Int64) : Prop :=
  clamp size (narrow size s) = clamp size (fromEnd size s.toInt) ∧
    clamp size (narrow size e) = clamp size (fromEnd size e.toInt) ∨
  clamp size (narrow size e) ≤ clamp size (narrow size s) ∧
    clamp size (fromEnd size e.toInt) ≤ clamp size (fromEnd size s.toInt)

/-- The index and the number are not negative, or nothing is left to be copied or removed. -/
def SpliceFits (size objs : Nat) (i r : Int) : Prop :=
  (-2 ^ 63 ≤ i + r ∧ i + r < 2 ^ 63) ∧
    (0 ≤ i ∧ 0 ≤ r ∨ size ≤ i ∧ (size ≤ i + r ∨ i + r < 0) ∨
      i < 0 ∧ (size = 0 ∨ r ≤ 0 ∧ objs = 0))

/-- There is nothing in the range, or the first number behind it is one of 64 bits. -/
def RangeFits (a b s : Int) : Prop :=
  b ≤ a ∨ 0 < s ∧ a + s * ((b - 1 - a) / s + 1) < 2 ^ 63

/-- The numbers `a`, `a + s`, `a + 2 s` and so on that lie in the range. -/
def IsRange (a b s : Int) (out : List (Option Ptr)) : Prop :=
  ∃ c : Nat, (∀ k : Nat, a ≤ a + k * s ∧ a + k * s < b ↔ k < c) ∧
    out = (List.range c).map fun k => some (.const (.int (.ofInt (a + k * s))))

section Positions

variable {n : Nat}

theorem toNat_toUInt64 (x : Int64) : (x.toUInt64.toNat : Int) = x.toInt % 2 ^ 64 := by
  have hlt := Int.emod_lt_of_pos x.toInt (b := 2 ^ 64) (by decide)
  have hle := Int.emod_nonneg x.toInt (b := 2 ^ 64) (by decide)
  rw [← ofInt_toInt, UInt64.ofInt, UInt64.toNat_ofNat_of_lt' (by simp only [UInt64.size]; omega),
    Int.toNat_of_nonneg hle]

theorem toInt32_narrow (hn : n < 2 ^ 63) (x : Int64) :
    toInt32 ((if x < 0 then .ofNat n else 0) + x.toUInt64) = narrow n x := by
  have hmod (z : Int) : (z % 2 ^ 64).bmod (2 ^ 32) = z.bmod (2 ^ 32) := by
    unfold Int.bmod
    rw [Int.emod_emod_of_dvd z (by decide)]
  have hneg : x < 0 ↔ x.toInt < 0 := Int64.lt_iff_toInt_lt
  have hsize : (UInt64.ofNat n).toNat = n :=
    UInt64.toNat_ofNat_of_lt' (by simp only [UInt64.size]; omega)
  unfold toInt32 narrow fromEnd
  rw [← hmod (if x.toInt < 0 then (n : Int) + x.toInt else x.toInt), UInt64.toNat_add]
  congr 1
  have hx := toNat_toUInt64 x
  by_cases h : x.toInt < 0
  · rw [if_pos (hneg.2 h), if_pos h, hsize]
    omega
  · rw [if_neg (fun h' => h (hneg.1 h')), if_neg h]
    simp only [UInt64.toNat_zero]
    omega

theorem toInt32_size (hn : n < 2 ^ 31) : toInt32 (.ofNat n) = n := by
  have hsize : (UInt64.ofNat n).toNat = n :=
    UInt64.toNat_ofNat_of_lt' (by simp only [UInt64.size]; omega)
  unfold toInt32
  rw [hsize]
  exact Int.bmod_eq_of_le (by omega) (by omega)

theorem position_eq (x : Int) : Js.position n x = clamp n (fromEnd n x) := by
  unfold Js.position clamp fromEnd
  split <;> omega

theorem narrow_lt (x : Int64) : narrow n x < 2 ^ 31 := by
  have hlt := Int.bmod_lt (x := fromEnd n x.toInt) (m := 2 ^ 32) (by decide)
  unfold narrow
  omega

end Positions

section Slice

theorem mapM_range' {α : Type} {l : List α} {a k : Nat} (h : a + k ≤ l.length) :
    (List.range' a k).mapM (fun j => l[j]?) = some ((l.drop a).take k) := by
  induction k generalizing a with
  | zero => rfl
  | succ k ih =>
    have ha : a < l.length := by omega
    rw [List.range'_succ, List.mapM_cons, ih (by omega), List.getElem?_eq_getElem ha,
      List.drop_eq_getElem_cons ha]
    rfl

theorem slice_eq (l : Els) (s e : Int64) : slice l [s, e] = some ((l.els.take
    (clamp l.els.length (narrow l.els.length e))).drop
      (clamp l.els.length (narrow l.els.length s))) := by
  have hn := l.length_lt
  have hs := narrow_lt (n := l.els.length) s
  have he := narrow_lt (n := l.els.length) e
  simp only [slice, List.getElem?_cons_zero, List.getElem?_cons_succ, Option.map_some,
    Option.getD_some, toInt32_narrow hn]
  generalize narrow l.els.length s = a at hs
  generalize narrow l.els.length e = b at he
  have hstart : (if a < 0 then 0 else a) = (a.toNat : Int) := by
    split <;> omega
  have hstop : (if 0 < b ∧ l.els.length < b.toNat then toInt32 (.ofNat l.els.length) else b).toNat =
      min l.els.length b.toNat := by
    split
    · next h =>
      rw [toInt32_size (by omega)]
      omega
    · omega
  generalize (if 0 < b ∧ l.els.length < b.toNat then toInt32 (.ofNat l.els.length) else b) = stop
    at hstop
  rw [hstart, Int.toNat_natCast]
  by_cases hle : a.toNat ≤ min l.els.length b.toNat
  · have hk : (stop - a.toNat).toNat = min l.els.length b.toNat - a.toNat := by omega
    have ha : min l.els.length a.toNat = a.toNat := by omega
    rw [hk, mapM_range' (by omega), clamp, clamp, ha, List.drop_take]
  · have hk : (stop - a.toNat).toNat = 0 := by omega
    have hnil : ((l.els.take (clamp l.els.length b)).drop (clamp l.els.length a)) = [] := by
      rw [List.drop_eq_nil_iff, List.length_take]
      unfold clamp
      omega
    rw [hk, hnil]
    rfl

/-- A list of `n` values that all differ. -/
def distinct (n : Nat) : List (Option Ptr) :=
  (List.range n).map fun i => some (.const (.str (List.replicate i 0)))

theorem distinct_length (n : Nat) : (distinct n).length = n := by
  rw [distinct, List.length_map, List.length_range]

theorem distinct_positions {n a b a' b' : Nat} (hb : b ≤ n) (hb' : b' ≤ n)
    (h : ((distinct n).take b).drop a = ((distinct n).take b').drop a') :
    a = a' ∧ b = b' ∨ b ≤ a ∧ b' ≤ a' := by
  have hinj : Function.Injective fun i : Nat =>
      some (Ptr.const (.str (List.replicate i (0 : UInt8)))) := by
    intro i j hij
    simp only [Ptr.const, Option.some.injEq, Ptr.node.injEq, Expr.constant.injEq,
      Constant.str.injEq] at hij
    simpa using congrArg List.length hij
  have hrange (a b : Nat) (hb : b ≤ n) :
      ((List.range n).take b).drop a = List.range' a (b - a) := by
    rw [List.take_range, Nat.min_eq_left hb, List.range_eq_range', List.drop_range']
    congr 1
    omega
  simp only [distinct, ← List.map_take, ← List.map_drop, hrange a b hb, hrange a' b' hb'] at h
  have hpos := List.map_injective_iff.2 hinj h
  have hlen : b - a = b' - a' := by simpa using congrArg List.length hpos
  by_cases hempty : b ≤ a
  · exact .inr ⟨hempty, by omega⟩
  · have hhead := congrArg List.head? hpos
    rw [List.head?_range', List.head?_range', if_neg (by omega), if_neg (by omega),
      Option.some.injEq] at hhead
    exact .inl ⟨hhead, by omega⟩

theorem slice_iff {n : Nat} (hn : n < 2 ^ 63) (s e : Int64) :
    (∀ l : Els, l.els.length = n → slice l [s, e] = some (Js.slice l.els s.toInt e.toInt)) ↔
      SliceFits n s e := by
  constructor
  · intro h
    have heq := h ⟨distinct n, by rwa [distinct_length]⟩ (distinct_length n)
    rw [slice_eq, Js.slice, position_eq, position_eq, Option.some.injEq] at heq
    simp only [distinct_length] at heq
    exact distinct_positions (Nat.min_le_left ..) (Nat.min_le_left ..) heq
  · rintro (⟨hs, he⟩ | ⟨hc, hj⟩) l rfl
    · rw [slice_eq, Js.slice, position_eq, position_eq, hs, he]
    · rw [slice_eq, Js.slice, position_eq, position_eq, List.drop_eq_nil_of_le,
        List.drop_eq_nil_of_le]
      · rw [List.length_take]
        omega
      · rw [List.length_take]
        omega

end Slice

section Splice

variable {xs ys : List (Option Ptr)}

theorem mapM_stuck {α β : Type} (m : Mem α) : (m >>= fun _ => (Mem.stuck : Mem β)) = Mem.stuck := by
  funext h
  simp only [Bind.bind, StateT.bind]
  cases m h <;> rfl

theorem splice_eq (l : Els) (i r : Int64) (objs : List (Option Ptr)) :
    splice l i r objs = match addInt64 i r with
      | none => Mem.stuck
      | some j => (l.els.take (min l.els.length i.toUInt64.toNat) ++ objs ++
          l.els.drop j.toUInt64.toNat).mapM safePush := by
  unfold splice
  cases addInt64 i r with
  | none => simp only [mapM_stuck]
  | some j => simp only [List.mapM_append, bind_assoc, pure_bind]

theorem mapM_safePush {cs : List Constant} :
    (cs.map fun c => some (Ptr.const c)).mapM safePush =
      (pure (cs.map fun c => some (Ptr.const c)) : Mem _) := by
  induction cs with
  | nil => rfl
  | cons c cs ih =>
    rw [List.map_cons, List.mapM_cons, ih]
    rfl

theorem addInt64_eq_some {x y j : Int64} (h : addInt64 x y = some j) :
    j.toInt = x.toInt + y.toInt ∧ -2 ^ 63 ≤ x.toInt + y.toInt ∧ x.toInt + y.toInt < 2 ^ 63 := by
  unfold addInt64 at h
  split at h
  · next hr =>
    cases h
    exact ⟨Int64.toInt_ofInt_of_le (by simpa using hr.1) (by simpa using hr.2), hr⟩
  · cases h

theorem addInt64_isSome {x y : Int64}
    (h : -2 ^ 63 ≤ x.toInt + y.toInt ∧ x.toInt + y.toInt < 2 ^ 63) :
    ∃ j, addInt64 x y = some j := ⟨_, if_pos h⟩

theorem min_toUInt64 {n : Nat} (hn : n < 2 ^ 63) (x : Int64) :
    min n x.toUInt64.toNat = if 0 ≤ x.toInt then min n x.toInt.toNat else n := by
  have hx := toNat_toUInt64 x
  have hlo := x.le_toInt
  have hhi := x.toInt_lt
  generalize x.toUInt64.toNat = u at hx ⊢
  generalize x.toInt = z at hx hlo hhi ⊢
  split
  · next hz =>
    have hu : (u : Int) = z := by
      rw [hx]
      exact Int.emod_eq_of_lt hz (by omega)
    rw [← hu, Int.toNat_natCast]
  · next hz =>
    have hu : (u : Int) = z + 2 ^ 64 := by
      rw [hx, ← Int.add_emod_right]
      exact Int.emod_eq_of_lt (by omega) (by omega)
    exact Nat.min_eq_left (by omega)

theorem drop_min {α : Type} (l : List α) (k : Nat) : l.drop (min l.length k) = l.drop k := by
  by_cases h : l.length ≤ k
  · rw [Nat.min_eq_left h, List.drop_length, List.drop_eq_nil_of_le h]
  · rw [Nat.min_eq_right (by omega)]

/-- The list that `splice` copies the elements of, if the sum does not overflow. -/
def spliced {α : Type} (l : List α) (i r : Int) (objs : List α) : List α :=
  l.take (if 0 ≤ i then min l.length i.toNat else l.length) ++ objs ++
    l.drop (if 0 ≤ i + r then min l.length (i + r).toNat else l.length)

theorem splice_spliced (l : Els) {i r j : Int64} (objs : List (Option Ptr))
    (h : addInt64 i r = some j) :
    splice l i r objs = (spliced l.els i.toInt r.toInt objs).mapM safePush := by
  obtain ⟨hj, -⟩ := addInt64_eq_some h
  rw [splice_eq, h, spliced, ← hj, ← min_toUInt64 l.length_lt, ← min_toUInt64 l.length_lt, drop_min]

theorem mapM_safePush_inj {cs ds : List Constant}
    (h : (cs.map fun c => some (Ptr.const c)).mapM safePush =
      ((ds.map fun c => some (Ptr.const c)).mapM safePush : Mem _)) : cs = ds := by
  rw [mapM_safePush, mapM_safePush] at h
  have hnil := congrFun h []
  simp only [pure, StateT.pure, Option.some.injEq, Prod.mk.injEq, and_true] at hnil
  refine List.map_injective_iff.2 (fun c d hcd => ?_) hnil
  simpa [Ptr.const] using hcd

/-- Copies of the elements that JavaScript's `splice` leaves, for all lists and objects of given
numbers. -/
def SpliceRight (size objs : Nat) (i r : Int64) : Prop :=
  ∀ (l : Els) (os : List (Option Ptr)), l.els.length = size → os.length = objs →
    splice l i r os = (Js.splice l.els i.toInt r.toInt os).mapM safePush

theorem min_add_min (n a b : Nat) : min n (a + b) = min n a + min b (n - min n a) := by
  obtain h | h := Nat.le_total n a
  · rw [Nat.min_eq_left h, Nat.min_eq_left (Nat.le_add_right_of_le h), Nat.sub_self, Nat.min_zero,
      Nat.add_zero]
  · rw [Nat.min_eq_right h]
    omega

theorem splice_of_fits {n m : Nat} {i r : Int64} (h : SpliceFits n m i.toInt r.toInt) :
    SpliceRight n m i r := by
  obtain ⟨hsum, h⟩ := h
  obtain ⟨j, hj⟩ := addInt64_isSome hsum
  rintro l os rfl rfl
  rw [splice_spliced l os hj]
  generalize i.toInt = i at *
  generalize r.toInt = r at *
  congr 1
  unfold spliced Js.splice Js.position
  obtain ⟨hi, hr⟩ | ⟨hi, hr⟩ | ⟨hi, hn | ⟨hr, hm⟩⟩ := h
  · have hneg : ¬ i < 0 := by omega
    have hk : min l.els.length (i + r).toNat = min l.els.length i.toNat +
        min r.toNat (l.els.length - min l.els.length i.toNat) := by
      rw [Int.toNat_add hi hr, min_add_min]
    rw [if_pos hi, if_pos (by omega : 0 ≤ i + r), if_neg hneg, hk]
  · have hneg : ¬ i < 0 := by omega
    have hk : (if 0 ≤ i + r then min l.els.length (i + r).toNat else l.els.length) =
        min l.els.length i.toNat +
        min r.toNat (l.els.length - min l.els.length i.toNat) := by
      rw [Nat.min_eq_left (Int.le_toNat (by omega) |>.2 hi), Nat.sub_self, Nat.min_zero]
      split
      · exact Nat.min_eq_left (by omega)
      · rfl
    rw [if_pos (by omega : 0 ≤ i), if_neg hneg, hk]
  · rw [List.length_eq_zero_iff.1 hn]
    simp
  · have hk : min r.toNat (l.els.length - ((l.els.length : Int) + i).toNat) = 0 := by omega
    dsimp only
    rw [List.length_eq_zero_iff.1 hm, if_neg (by omega), if_neg (by omega), if_pos hi, hk]
    simp

/-- The constants that `distinct` is made of. -/
def labels (n : Nat) : List Constant := (List.range n).map fun i => .str (List.replicate i 0)

theorem labels_length (n : Nat) : (labels n).length = n := by
  rw [labels, List.length_map, List.length_range]

theorem fits_of_splice {n m : Nat} {i r : Int64} (hn : n < 2 ^ 63) (h : SpliceRight n m i r) :
    SpliceFits n m i.toInt r.toInt := by
  have heq := h ⟨(labels n).map fun c => some (.const c), by rwa [List.length_map, labels_length]⟩
    ((List.replicate m .null).map fun c => some (.const c)) (by rw [List.length_map, labels_length])
    (by rw [List.length_map, List.length_replicate])
  have hjs (a b : Int) : Js.splice ((labels n).map fun c => some (Ptr.const c)) a b
      ((List.replicate m .null).map fun c => some (Ptr.const c)) =
      (Js.splice (labels n) a b (List.replicate m .null)).map fun c => some (Ptr.const c) := by
    simp [Js.splice, List.map_take, List.map_drop]
  rw [hjs] at heq
  cases hj : addInt64 i r with
  | none =>
    rw [splice_eq, hj, mapM_safePush] at heq
    cases congrFun heq []
  | some j =>
    obtain ⟨-, hsum⟩ := addInt64_eq_some hj
    have hcode (a b : Int) : spliced ((labels n).map fun c => some (Ptr.const c)) a b
        ((List.replicate m .null).map fun c => some (Ptr.const c)) =
        (spliced (labels n) a b (List.replicate m .null)).map fun c => some (Ptr.const c) := by
      simp [spliced, List.map_take, List.map_drop]
    rw [splice_spliced _ _ hj, hcode] at heq
    replace heq := mapM_safePush_inj heq
    refine ⟨hsum, ?_⟩
    have hlen := congrArg List.length heq
    simp only [spliced, Js.splice, Js.position, List.length_append, List.length_take,
      List.length_drop, labels_length, List.length_replicate] at hlen
    generalize i.toInt = i at *
    generalize r.toInt = r at *
    by_cases hi : 0 ≤ i
    · by_cases hr : 0 ≤ r
      · exact .inl ⟨hi, hr⟩
      · refine .inr (.inl ?_)
        have hzero : r.toNat = 0 := Int.toNat_of_nonpos (by omega)
        rw [if_pos hi, if_neg (by omega : ¬ i < 0), hzero, Nat.zero_min, Nat.add_zero] at hlen
        replace hlen := Nat.add_left_cancel hlen
        clear hj hjs hcode heq hn hsum hzero
        split at hlen <;> omega
    · refine .inr (.inr ⟨by omega, ?_⟩)
      rw [if_neg hi, if_pos (by omega : i < 0)] at hlen
      by_cases hsize : n = 0
      · exact .inl hsize
      have hr : r ≤ 0 := by
        have hstart : ((n : Int) + i).toNat < n := by omega
        generalize ((n : Int) + i).toNat = start at hlen hstart
        generalize (if 0 ≤ i + r then _ else n) = stop at hlen
        rw [Nat.min_self, Nat.min_eq_left (Nat.le_of_lt hstart)] at hlen
        have hcount : min r.toNat (n - start) = 0 := by omega
        omega
      refine .inr ⟨hr, ?_⟩
      by_contra hm
      -- the element where JavaScript puts the first object
      have hat := congrArg (fun cs => cs[((n : Int) + i).toNat]?) heq
      have hlt : ((n : Int) + i).toNat < n := by omega
      simp only [spliced, Js.splice, Js.position, if_neg hi, if_pos (by omega : i < 0),
        labels_length] at hat
      rw [List.append_assoc, List.append_assoc, List.getElem?_append_left (by
        rw [List.length_take, labels_length]; omega), List.getElem?_append_right (by
        rw [List.length_take, labels_length]; omega), List.length_take, labels_length,
        Nat.min_eq_left (Nat.le_of_lt hlt), Nat.sub_self, List.getElem?_append_left (by
        rw [List.length_replicate]; omega)] at hat
      simp [labels, List.getElem?_replicate, hlt] at hat

theorem splice_iff (l : Els) (objs : Nat) (i r : Int64) :
    SpliceRight l.els.length objs i r ↔ SpliceFits l.els.length objs i.toInt r.toInt :=
  ⟨fits_of_splice l.length_lt, splice_of_fits⟩

end Splice

section Range

variable {h s : Int64}

theorem rangeLoop_runs (c : Nat) {i : Int64} (el : List (Option Ptr))
    (hc : ∀ k : Nat, i.toInt + k * s.toInt < h.toInt ↔ k < c) (hs : 0 < s.toInt)
    (hfit : i.toInt + c * s.toInt < 2 ^ 63) :
    rangeLoop h s (c + 1) i el = some (some (el ++ (List.range c).map fun (k : Nat) =>
      some (.const (.int (.ofInt (i.toInt + k * s.toInt)))))) := by
  induction c generalizing i el with
  | zero =>
    have hi : ¬ i.toInt < h.toInt := by simpa using hc 0
    simp [rangeLoop, hi]
  | succ c ih =>
    have hi : i.toInt < h.toInt := by simpa using hc 0
    have hpos : 0 ≤ (c : Int) * s.toInt := Int.mul_nonneg (by omega) (by omega)
    have hexp : ((c + 1 : Nat) : Int) * s.toInt = c * s.toInt + s.toInt := by
      rw [Int.natCast_add, Int.add_mul, Int.natCast_one, Int.one_mul]
    have hlo := i.le_toInt
    obtain ⟨j, hj⟩ := addInt64_isSome (x := i) (y := s) ⟨by omega, by omega⟩
    obtain ⟨hj', -⟩ := addInt64_eq_some hj
    have hnext (k : Nat) : j.toInt + k * s.toInt = i.toInt + ((k + 1 : Nat) : Int) * s.toInt := by
      rw [hj', Int.natCast_add, Int.add_mul, Int.natCast_one, Int.one_mul]
      omega
    have hrec := ih (i := j) (el ++ [some (.const (.int i))])
      (fun k => by rw [hnext, hc (k + 1)]; omega) (by omega)
    have hlist : (List.range (c + 1)).map (fun k : Nat =>
        some (Ptr.const (.int (.ofInt (i.toInt + k * s.toInt))))) =
        some (.const (.int i)) :: (List.range c).map fun k : Nat =>
          some (Ptr.const (.int (.ofInt (j.toInt + k * s.toInt)))) := by
      rw [List.range_succ_eq_map, List.map_cons, List.map_map]
      congr 1
      · simp
      · refine List.map_congr_left fun k _ => ?_
        rw [hnext k]
        rfl
    rw [rangeLoop, if_pos hi, hj, hlist]
    exact hrec.trans (by rw [List.append_assoc, List.singleton_append])

theorem rangeLoop_never (n : Nat) {i : Int64} (el : List (Option Ptr)) (hs : s.toInt ≤ 0)
    (hi : i.toInt < h.toInt) {out : List (Option Ptr)} :
    rangeLoop h s n i el ≠ some (some out) := by
  induction n generalizing i el with
  | zero => exact nofun
  | succ n ih =>
    rw [rangeLoop, if_pos hi]
    cases hj : addInt64 i s with
    | none => exact nofun
    | some j =>
      obtain ⟨hj', -⟩ := addInt64_eq_some hj
      exact ih _ (by omega)

theorem rangeLoop_fits (n : Nat) {i : Int64} (el : List (Option Ptr)) (hs : 0 < s.toInt)
    (hi : i.toInt < h.toInt) {out : List (Option Ptr)}
    (hend : rangeLoop h s n i el = some (some out)) :
    i.toInt + s.toInt * ((h.toInt - 1 - i.toInt) / s.toInt + 1) < 2 ^ 63 := by
  induction n generalizing i el with
  | zero => cases hend
  | succ n ih =>
    rw [rangeLoop, if_pos hi] at hend
    cases hj : addInt64 i s with
    | none =>
      rw [hj] at hend
      cases hend
    | some j =>
      rw [hj] at hend
      obtain ⟨hj', -, hlt⟩ := addInt64_eq_some hj
      by_cases hji : j.toInt < h.toInt
      · have hrec := ih _ hji hend
        have hdiv : (h.toInt - 1 - i.toInt) / s.toInt =
            (h.toInt - 1 - j.toInt) / s.toInt + 1 := by
          have hsplit : h.toInt - 1 - i.toInt = h.toInt - 1 - j.toInt + 1 * s.toInt := by omega
          rw [hsplit, Int.add_mul_ediv_right _ _ (by omega)]
        rw [hdiv, Int.mul_add _ _ 1, Int.mul_one]
        omega
      · have hdiv : (h.toInt - 1 - i.toInt) / s.toInt = 0 :=
          Int.ediv_eq_zero_of_lt (by omega) (by omega)
        rw [hdiv]
        omega

/-- `range (a, b, s)` ends, with the numbers that it says. -/
def RangeRight (a b s : Int64) : Prop :=
  ∃ steps out, range steps [a, b, s] = some (some out) ∧ IsRange a.toInt b.toInt s.toInt out

theorem range_iff (a b s : Int64) : RangeRight a b s ↔ RangeFits a.toInt b.toInt s.toInt := by
  constructor
  · rintro ⟨steps, out, hend, -⟩
    by_cases hab : b.toInt ≤ a.toInt
    · exact .inl hab
    · by_cases hs : 0 < s.toInt
      · exact .inr ⟨hs, rangeLoop_fits steps [] hs (by omega) hend⟩
      · exact absurd hend (rangeLoop_never steps [] (by omega) (by omega))
  · rintro (hab | ⟨hs, hfit⟩)
    · refine ⟨1, [], ?_, 0, fun k => ?_, rfl⟩
      · exact if_neg (by omega)
      · constructor <;> omega
    · by_cases hab : b.toInt ≤ a.toInt
      · exact ⟨1, [], if_neg (by omega), 0, fun k => by constructor <;> omega, rfl⟩
      obtain ⟨c, hc⟩ := Int.eq_ofNat_of_zero_le
        (Int.ediv_nonneg (a := b.toInt - 1 - a.toInt) (b := s.toInt) (by omega) (by omega))
      have hmem (k : Nat) : a.toInt + k * s.toInt < b.toInt ↔ k < c + 1 := by
        have hle : (k : Int) ≤ (b.toInt - 1 - a.toInt) / s.toInt ↔
            k * s.toInt ≤ b.toInt - 1 - a.toInt := Int.le_ediv_iff_mul_le hs
        rw [hc] at hle
        omega
      rw [hc, Int.mul_comm] at hfit
      refine ⟨c + 1 + 1, _, rangeLoop_runs (c + 1) [] hmem hs hfit, c + 1, fun k => ?_, rfl⟩
      rw [← hmem k]
      have hpos : 0 ≤ (k : Int) * s.toInt := Int.mul_nonneg (by omega) (by omega)
      omega

end Range

/-- The selection that JavaScript's `slice` makes, for all lists of a given size. -/
def SliceRight (size : Nat) (s e : Int64) : Prop :=
  ∀ l : Els, l.els.length = size → slice l [s, e] = some (Js.slice l.els s.toInt e.toInt)

/-- Where the functions do what they say. -/
theorem positions_iff (l : Els) (objs : Nat) (s e i r a b d : Int64) :
    (SliceRight l.els.length s e ↔ SliceFits l.els.length s e) ∧
    (SpliceRight l.els.length objs i r ↔ SpliceFits l.els.length objs i.toInt r.toInt) ∧
    (RangeRight a b d ↔ RangeFits a.toInt b.toInt d.toInt) :=
  ⟨slice_iff l.length_lt s e, splice_iff l objs i r, range_iff a b d⟩

/-- The list of one element from 2^32 on, the same list with its last element taken out, and the
range from 0 to 1 in steps of zero. -/
theorem not_positions :
    ¬ SliceRight 1 (2 ^ 32) 1 ∧ ¬ SpliceRight 1 0 (-1) 1 ∧ ¬ RangeRight 0 1 0 := by
  refine ⟨fun h => ?_, fun h => ?_, fun h => ?_⟩
  · have hfits := (slice_iff (by decide) _ _).1 h
    unfold SliceFits at hfits
    exact absurd hfits (by decide)
  · have hfits := fits_of_splice (by decide) h
    unfold SpliceFits at hfits
    exact absurd hfits (by decide)
  · have hfits := (range_iff _ _ _).1 h
    unfold RangeFits at hfits
    exact absurd hfits (by decide)

end Okws.Pub3

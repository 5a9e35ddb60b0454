import Okws.ScalarObj

namespace Okws

open Zbuf

/-- An object that was set to an integer, and the integer. -/
inductive Natural (F : Fp) : ScalarObj → Int → Prop
  | int (p : ScalarObj) (i : Int64) : Natural F (p.setI F i) i.toInt
  | uint (p : ScalarObj) (u : UInt64) : Natural F (p.setU F u) u.toNat

section Words

theorem toInt64_ofInt (z : Int) : (UInt64.ofInt z).toInt64 = .ofInt z := by
  rw [UInt64.ofInt, UInt64.toInt64_ofNat', ← Int64.ofInt_eq_ofNat]
  apply Int64.toInt.inj
  rw [Int64.toInt_ofInt, Int64.toInt_ofInt, Int.toNat_of_nonneg (Int.emod_nonneg z (by decide))]
  exact Int.emod_bmod (x := z) (n := 2 ^ 64)

theorem ofInt_toNat (u : UInt64) : UInt64.ofInt u.toNat = u := by
  have hlt := u.toNat_lt
  rw [UInt64.ofInt, Int.emod_eq_of_lt (by omega) (by omega), Int.toNat_natCast, UInt64.ofNat_toNat]

theorem ofInt_toInt (i : Int64) : UInt64.ofInt i.toInt = i.toUInt64 := by
  rw [← UInt64.toUInt64_toInt64 (UInt64.ofInt i.toInt), toInt64_ofInt, Int64.ofInt_toInt]

theorem toNat_ofInt {z : Int} (h0 : 0 ≤ z) (h : z < 2 ^ 64) : ((UInt64.ofInt z).toNat : Int) = z := by
  rw [UInt64.ofInt, Int.emod_eq_of_lt h0 h, UInt64.toNat_ofNat_of_lt' (by simp; omega)]
  exact Int.toNat_of_nonneg h0

theorem toUInt64_ofInt (z : Int) : (Int64.ofInt z).toUInt64 = .ofInt z := by
  rw [← toInt64_ofInt, UInt64.toUInt64_toInt64]

theorem ofInt_sub (x y : Int) : UInt64.ofInt (x - y) = UInt64.ofInt x - UInt64.ofInt y := by
  rw [Int.sub_eq_add_neg, UInt64.ofInt_add, UInt64.ofInt_neg, UInt64.sub_eq_add_neg]

end Words

namespace Natural

variable {F : Fp} {p : ScalarObj} {v w : Int}

theorem range (h : Natural F p v) : -2 ^ 63 ≤ v ∧ v < 2 ^ 64 := by
  cases h with
  | int p i =>
    have := i.le_toInt
    have := i.toInt_lt
    omega
  | uint p u =>
    have := u.toNat_lt
    omega

theorem toInt64 (h : Natural F p v) : p.toInt64 = p := by
  cases h with
  | int p i => rfl
  | uint p u =>
    unfold ScalarObj.setU
    split <;> rfl

theorem toUint64 (h : Natural F p v) : p.toUint64 = p := by
  cases h with
  | int p i =>
    unfold ScalarObj.setI
    split <;> rfl
  | uint p u => rfl

theorem int? (h : Natural F p v) : p.int? = if v < 2 ^ 63 then some (.ofInt v) else none := by
  cases h with
  | int p i =>
    have := i.toInt_lt
    rw [if_pos (by omega), Int64.ofInt_toInt]
    unfold ScalarObj.setI
    split <;> rfl
  | uint p u =>
    have hu : u.toInt64 = .ofInt u.toNat := by rw [← toInt64_ofInt, ofInt_toNat]
    unfold ScalarObj.setU
    split
    · rw [if_pos (by omega), ← hu]
      rfl
    · rw [if_neg (by omega)]
      rfl

theorem uint? (h : Natural F p v) : p.uint? = if 0 ≤ v then some (.ofInt v) else none := by
  cases h with
  | int p i =>
    unfold ScalarObj.setI
    split
    · rw [ofInt_toInt]
      rfl
    · rfl
  | uint p u =>
    rw [if_pos (by omega), ofInt_toNat]
    unfold ScalarObj.setU
    split <;> rfl

theorem naturalType (h : Natural F p v) : p.naturalType ≠ .str ∧ p.naturalType ≠ .double := by
  cases h with
  | int p i => exact ⟨nofun, nofun⟩
  | uint p u => exact ⟨nofun, nofun⟩

theorem not_isInf (h : Natural F p v) : p.isInf = false := by
  cases h with
  | int p i => rfl
  | uint p u => rfl

theorem unique (h : Natural F p v) (h' : Natural F p w) : v = w := by
  have hv := h.range
  have hw := h'.range
  have hint := h.int?.symm.trans h'.int?
  have huint := h.uint?.symm.trans h'.uint?
  by_cases hv0 : 0 ≤ v
  · rw [if_pos hv0] at huint
    split at huint
    · next hw0 =>
      have heq := congrArg (fun u : UInt64 => (u.toNat : Int)) (Option.some.inj huint)
      simpa only [toNat_ofInt hv0 hv.2, toNat_ofInt hw0 hw.2] using heq
    · cases huint
  · rw [if_pos (by omega)] at hint
    split at hint
    · next hw1 =>
      have heq := congrArg Int64.toInt (Option.some.inj hint)
      rwa [Int64.toInt_ofInt_of_le hv.1 (by omega), Int64.toInt_ofInt_of_le hw.1 hw1] at heq
    · cases hint

variable (F p) in
theorem setI_iff (z : Int) : Natural F (p.setI F (.ofInt z)) z ↔ -2 ^ 63 ≤ z ∧ z < 2 ^ 63 := by
  have hset := Natural.int (F := F) p (.ofInt z)
  constructor
  · intro h
    rw [h.unique hset]
    exact ⟨Int64.le_toInt _, Int64.toInt_lt _⟩
  · rintro ⟨hlo, hhi⟩
    rwa [Int64.toInt_ofInt_of_le hlo hhi] at hset

variable (F p) in
theorem setU_iff (z : Int) : Natural F (p.setU F (.ofInt z)) z ↔ 0 ≤ z ∧ z < 2 ^ 64 := by
  have hset := Natural.uint (F := F) p (.ofInt z)
  constructor
  · intro h
    have := (UInt64.ofInt z).toNat_lt
    rw [h.unique hset]
    omega
  · rintro ⟨hlo, hhi⟩
    rwa [toNat_ofInt hlo hhi] at hset

end Natural

namespace ScalarM

theorem both_eq {α β : Type} {x : ScalarM (Option α)} {y : ScalarM (Option β)} {st : Scalars}
    {o : Option α} {o' : Option β} (hx : x st = (o, st)) (hy : y st = (o', st)) :
    both x y st = (o.bind fun a => o'.map fun b => (a, b), st) := by
  simp only [both, bind, StateT.bind, hx]
  cases o with
  | none => rfl
  | some a =>
    simp only [bind, StateT.bind, hy]
    rfl

section Operands

open ScalarObj

variable {F : Fp} {st : Scalars} {a b : Nat} {v w : Int}

theorem int64_small (h : Natural F (st a) v) (hv : v < 2 ^ 63) :
    int64 a st = (some (.ofInt v), st) := by
  rw [int64, on, h.toInt64, h.int?, Function.update_eq_self, if_pos hv]

theorem int64_big (h : Natural F (st a) v) (hv : 2 ^ 63 ≤ v) : int64 a st = (none, st) := by
  rw [int64, on, h.toInt64, h.int?, Function.update_eq_self, if_neg (by omega)]

theorem uint64_nonneg (h : Natural F (st a) v) (hv : 0 ≤ v) :
    uint64 a st = (some (.ofInt v), st) := by
  rw [uint64, on, h.toUint64, h.uint?, Function.update_eq_self, if_pos hv]

theorem uint64_neg (h : Natural F (st a) v) (hv : v < 0) : uint64 a st = (none, st) := by
  rw [uint64, on, h.toUint64, h.uint?, Function.update_eq_self, if_neg (by omega)]

variable (ha : Natural F (st a) v) (hb : Natural F (st b) w)

include ha hb

theorem not_str : ¬ ((st a).naturalType = .str ∨ (st b).naturalType = .str) :=
  not_or.2 ⟨ha.naturalType.1, hb.naturalType.1⟩

theorem not_double : ¬ ((st a).naturalType = .double ∨ (st b).naturalType = .double) :=
  not_or.2 ⟨ha.naturalType.2, hb.naturalType.2⟩

variable {ii : Int64 → Int64 → Option ScalarObj} {uu : UInt64 → UInt64 → ScalarObj}
  {iu : Int64 → UInt64 → ScalarObj} {ui : UInt64 → Int64 → ScalarObj}

theorem both_signed (hv : v < 2 ^ 63) (hw : w < 2 ^ 63) :
    both (int64 a) (int64 b) st = (some (.ofInt v, .ofInt w), st) :=
  both_eq (int64_small ha hv) (int64_small hb hw)

theorem both_unsigned (hv : 0 ≤ v) (hw : 0 ≤ w) :
    both (uint64 a) (uint64 b) st = (some (.ofInt v, .ofInt w), st) :=
  both_eq (uint64_nonneg ha hv) (uint64_nonneg hb hw)

theorem not_both_signed (h : ¬ (v < 2 ^ 63 ∧ w < 2 ^ 63)) :
    both (int64 a) (int64 b) st = (none, st) := by
  by_cases hv : v < 2 ^ 63
  · exact both_eq (int64_small ha hv) (int64_big hb (by omega))
  · by_cases hw : w < 2 ^ 63
    · exact both_eq (int64_big ha (by omega)) (int64_small hb hw)
    · exact both_eq (int64_big ha (by omega)) (int64_big hb (by omega))

theorem not_both_unsigned (h : ¬ (0 ≤ v ∧ 0 ≤ w)) :
    both (uint64 a) (uint64 b) st = (none, st) := by
  by_cases hv : 0 ≤ v
  · exact both_eq (uint64_nonneg ha hv) (uint64_neg hb (by omega))
  · by_cases hw : 0 ≤ w
    · exact both_eq (uint64_neg ha (by omega)) (uint64_nonneg hb hw)
    · exact both_eq (uint64_neg ha (by omega)) (uint64_neg hb (by omega))

theorem left_signed (hv : v < 0) (hw : 2 ^ 63 ≤ w) :
    both (int64 a) (uint64 b) st = (some (.ofInt v, .ofInt w), st) :=
  both_eq (int64_small ha (by omega)) (uint64_nonneg hb (by omega))

theorem left_unsigned (hv : 2 ^ 63 ≤ v) (hw : w < 0) :
    both (int64 a) (uint64 b) st = (none, st) :=
  both_eq (int64_big ha hv) (uint64_neg hb hw)

theorem right_signed (hv : 2 ^ 63 ≤ v) (hw : w < 0) :
    both (uint64 a) (int64 b) st = (some (.ofInt v, .ofInt w), st) :=
  both_eq (uint64_nonneg ha (by omega)) (int64_small hb (by omega))

theorem integers_natural {o : Option ScalarObj} {r r' : ScalarObj}
    (hii : v < 2 ^ 63 → w < 2 ^ 63 → ii (.ofInt v) (.ofInt w) = o)
    (huu : uu (.ofInt v) (.ofInt w) = r) (hiu : iu (.ofInt v) (.ofInt w) = r')
    (hui : ui (.ofInt v) (.ofInt w) = r') :
    integers a b ii uu iu ui st = (if v < 2 ^ 63 ∧ w < 2 ^ 63 then o
      else if 0 ≤ v ∧ 0 ≤ w then some r else some r', st) := by
  by_cases hs : v < 2 ^ 63 ∧ w < 2 ^ 63
  · rw [if_pos hs, ← hii hs.1 hs.2]
    simp only [integers, bind, StateT.bind, both_signed ha hb hs.1 hs.2]
    rfl
  · have hi := not_both_signed ha hb hs
    rw [if_neg hs]
    by_cases hu : 0 ≤ v ∧ 0 ≤ w
    · rw [if_pos hu, ← huu]
      simp only [integers, bind, StateT.bind, hi, both_unsigned ha hb hu.1 hu.2]
      rfl
    · have hn := not_both_unsigned ha hb hu
      rw [if_neg hu]
      by_cases hv : v < 0
      · rw [← hiu]
        simp only [integers, bind, StateT.bind, hi, hn, left_signed ha hb hv (by omega)]
        rfl
      · have hl := left_unsigned ha hb (by omega) (by omega)
        rw [← hui]
        simp only [integers, bind, StateT.bind, hi, hn, hl,
          right_signed ha hb (by omega) (by omega)]
        rfl

end Operands

end ScalarM

/-- The operators on integers, but for the division. -/
inductive ArithOp
  | plus
  | minus
  | times
  deriving DecidableEq

namespace ArithOp

open ScalarObj ScalarM

def run (F : Fp) : ArithOp → Nat → Nat → ScalarM (Option ScalarObj)
  | .plus => ScalarM.plus F
  | .minus => ScalarM.minus F
  | .times => ScalarM.times F

def math : ArithOp → Int → Int → Int
  | .plus => (· + ·)
  | .minus => (· - ·)
  | .times => (· * ·)

def store (F : Fp) : ArithOp → Int → ScalarObj
  | .minus, z => setI F {} (.ofInt z)
  | _, z => setU F {} (.ofInt z)

/-- No signed arithmetic overflows, and the result is the exact one if there is a type for it. -/
def Exact (F : Fp) (op : ArithOp) (st : Scalars) (a b : Nat) (z : Int) : Prop :=
  ∃ r, (op.run F a b st).1 = some r ∧ (-2 ^ 63 ≤ z ∧ z < 2 ^ 64 → Natural F r z)

/-- Two operands that are both below `2 ^ 63` have a result that is an `int64_t`; of two others the
result is not between `2 ^ 63` and `2 ^ 64`, or it is the sum or the product of two unsigned ones. -/
def Right (op : ArithOp) (v w : Int) : Prop :=
  if v < 2 ^ 63 ∧ w < 2 ^ 63 then -2 ^ 63 ≤ op.math v w ∧ op.math v w < 2 ^ 63
  else op.math v w < 2 ^ 63 ∨ 2 ^ 64 ≤ op.math v w ∨ op ≠ .minus ∧ 0 ≤ v ∧ 0 ≤ w

variable {F : Fp} {st : Scalars} {a b : Nat} {v w : Int}

theorem run_natural (op : ArithOp) (ha : Natural F (st a) v) (hb : Natural F (st b) w) :
    op.run F a b st = (if v < 2 ^ 63 ∧ w < 2 ^ 63 then (signed (op.math v w)).map (setI F {})
      else if 0 ≤ v ∧ 0 ≤ w then some (op.store F (op.math v w))
      else some (setI F {} (.ofInt (op.math v w))), st) := by
  have hstr := not_str ha hb
  have hdouble := not_double ha hb
  have hv (h : v < 2 ^ 63) : (Int64.ofInt v).toInt = v := Int64.toInt_ofInt_of_le ha.range.1 h
  have hw (h : w < 2 ^ 63) : (Int64.ofInt w).toInt = w := Int64.toInt_ofInt_of_le hb.range.1 h
  cases op with
  | plus =>
    simp only [run, ScalarM.plus, bind, StateT.bind, ScalarM.naturalType, if_neg hstr, if_neg hdouble]
    refine integers_natural ha hb (fun h h' => ?_) ?_ ?_ ?_
    · rw [hv h, hw h']
      rfl
    · exact congrArg (setU F {}) (UInt64.ofInt_add v w).symm
    · rw [toUInt64_ofInt, ← UInt64.ofInt_add, toInt64_ofInt]
      rfl
    · rw [toUInt64_ofInt, ← UInt64.ofInt_add, toInt64_ofInt]
      rfl
  | minus =>
    simp only [run, ScalarM.minus, bind, StateT.bind, ScalarM.naturalType, if_neg hstr, if_neg hdouble]
    refine integers_natural ha hb (fun h h' => ?_) ?_ ?_ ?_
    · rw [hv h, hw h']
      rfl
    · rw [← ofInt_sub, toInt64_ofInt]
      rfl
    · rw [toUInt64_ofInt, ← ofInt_sub, toInt64_ofInt]
      rfl
    · rw [toUInt64_ofInt, ← ofInt_sub, toInt64_ofInt]
      rfl
  | times =>
    have hrep : repeats a b st = (none, st) := by
      simp only [repeats, bind, StateT.bind, ScalarM.naturalType, if_neg ha.naturalType.1]
      rfl
    simp only [run, ScalarM.times, bind, StateT.bind, ScalarM.naturalType, hrep, if_neg hstr,
      if_neg hdouble]
    refine integers_natural ha hb (fun h h' => ?_) ?_ ?_ ?_
    · rw [hv h, hw h']
      rfl
    · exact congrArg (setU F {}) (UInt64.ofInt_mul v w).symm
    · rw [toUInt64_ofInt, ← UInt64.ofInt_mul, toInt64_ofInt]
      rfl
    · rw [toUInt64_ofInt, ← UInt64.ofInt_mul, toInt64_ofInt]
      rfl

theorem natural_store {op : ArithOp} (z : Int) :
    Natural F (op.store F z) z ↔
      if op = .minus then -2 ^ 63 ≤ z ∧ z < 2 ^ 63 else 0 ≤ z ∧ z < 2 ^ 64 := by
  cases op with
  | plus => exact Natural.setU_iff F {} z
  | minus => exact Natural.setI_iff F {} z
  | times => exact Natural.setU_iff F {} z

/-- Whether the result is exact. -/
theorem exact_iff_right (F : Fp) (op : ArithOp) {st : Scalars} {a b : Nat} {v w : Int}
    (ha : Natural F (st a) v) (hb : Natural F (st b) w) :
    op.Exact F st a b (op.math v w) ↔ op.Right v w := by
  have hv := ha.range
  have hw := hb.range
  unfold Exact Right
  rw [run_natural op ha hb]
  by_cases hs : v < 2 ^ 63 ∧ w < 2 ^ 63
  · rw [if_pos hs, if_pos hs, signed]
    constructor
    · rintro ⟨r, hr, -⟩
      by_contra hz
      rw [if_neg hz] at hr
      cases hr
    · intro hz
      rw [if_pos hz]
      exact ⟨_, rfl, fun _ => (Natural.setI_iff F {} _).2 hz⟩
  · rw [if_neg hs, if_neg hs]
    have hsome (r : ScalarObj) (z : Int) : (∃ r', some r = some r' ∧
        (-2 ^ 63 ≤ z ∧ z < 2 ^ 64 → Natural F r' z)) ↔
          (-2 ^ 63 ≤ z ∧ z < 2 ^ 64 → Natural F r z) := by
      simp only [Option.some.injEq, exists_eq_left']
    by_cases hu : 0 ≤ v ∧ 0 ≤ w
    · rw [if_pos hu, hsome, natural_store]
      cases op with
      | plus =>
        have hz : 0 ≤ plus.math v w := Int.add_nonneg hu.1 hu.2
        exact iff_of_true (fun hfit => ⟨hz, hfit.2⟩) (.inr (.inr ⟨nofun, hu⟩))
      | minus =>
        simp only [if_true, ne_eq, not_true_eq_false, false_and, or_false]
        omega
      | times =>
        have hz : 0 ≤ times.math v w := Int.mul_nonneg hu.1 hu.2
        exact iff_of_true (fun hfit => ⟨hz, hfit.2⟩) (.inr (.inr ⟨nofun, hu⟩))
    · rw [if_neg hu, hsome, Natural.setI_iff]
      omega

end ArithOp

namespace ArithOp

open ScalarObj

/-- `3 - 5`. -/
theorem exact_iff_right_minus :
    minus.Exact .small (fun n => if n = 0 then setI .small {} 3 else setU .small {} 5) 0 1 (-2) ↔
      minus.Right 3 5 :=
  exact_iff_right .small .minus (v := 3) (w := 5) (Natural.int {} 3) (Natural.uint {} 5)

/-- `INT64_MAX + 1` overflows, although it is an `uint64_t`. -/
theorem not_exact_max : ¬ ∀ (F : Fp) (op : ArithOp) (st : Scalars) (a b : Nat) (v w : Int),
    Natural F (st a) v → Natural F (st b) w → op.Exact F st a b (op.math v w) := by
  intro h
  have ha : Natural .small (setI .small {} .maxValue) (2 ^ 63 - 1) :=
    Int64.toInt_maxValue ▸ Natural.int {} .maxValue
  have hb : Natural .small (setI .small {} 1) 1 := Natural.int {} 1
  obtain ⟨r, hr, -⟩ := h .small .plus
    (fun n => if n = 0 then setI .small {} .maxValue else setI .small {} 1) 0 1 _ _ ha hb
  have hnone : ScalarM.signed (plus.math (2 ^ 63 - 1) 1) = none := by decide
  rw [run_natural .plus ha hb, if_pos (by decide), hnone] at hr
  cases hr

end ArithOp

end Okws

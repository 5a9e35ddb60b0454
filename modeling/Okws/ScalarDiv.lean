import Okws.ScalarArith

namespace Okws

namespace ScalarM

open ScalarObj

variable {F : Fp} {st : Scalars} {a b : Nat} {v w : Int}

theorem branch_eq {α β : Type} (isZero : β → Bool) (ok : Bool) {x : ScalarM (Option (α × β))}
    {o : Option (α × β)} (hx : x st = (o, st)) :
    branch isZero ok x st = (match o with
      | none => (ok, none)
      | some (a, b) => if isZero b then (false, none) else (true, some (a, b)), st) := by
  simp only [branch, bind, StateT.bind, hx]
  cases o with
  | none => rfl
  | some x =>
    dsimp only
    split <;> rfl

theorem branch_none {α β : Type} (isZero : β → Bool) (ok : Bool) {x : ScalarM (Option (α × β))}
    (hx : x st = (none, st)) : branch isZero ok x st = ((ok, none), st) :=
  branch_eq isZero ok hx

theorem branch_zero {α β : Type} (isZero : β → Bool) (ok : Bool) {x : ScalarM (Option α)}
    {y : ScalarM (Option β)} {o : Option α} {j : β} (hx : x st = (o, st)) (hy : y st = (some j, st))
    (hj : isZero j = true) : branch isZero ok (both x y) st = ((ok && o.isNone, none), st) := by
  rw [branch_eq isZero ok (both_eq hx hy)]
  cases o with
  | none => simp
  | some i => simp [hj]

theorem branch_some {α β : Type} (isZero : β → Bool) (ok : Bool) {x : ScalarM (Option (α × β))}
    {i : α} {j : β} (hx : x st = (some (i, j), st)) (hj : isZero j = false) :
    branch isZero ok x st = ((true, some (i, j)), st) := by
  rw [branch_eq isZero ok hx]
  simp only [hj, Bool.false_eq_true, if_false]

theorem int64_eq_zero (hw : -2 ^ 63 ≤ w ∧ w < 2 ^ 63) : Int64.ofInt w = 0 ↔ w = 0 := by
  rw [← Int64.toInt_inj, Int64.toInt_ofInt_of_le hw.1 hw.2]
  rfl

theorem uint64_eq_zero (hw : 0 ≤ w ∧ w < 2 ^ 64) : UInt64.ofInt w = 0 ↔ w = 0 := by
  rw [← UInt64.toNat_inj, ← Int.natCast_inj, toNat_ofInt hw.1 hw.2]
  rfl

def op (div : Bool) (v w : Int) : Int := if div then v.tdiv w else v.tmod w

theorem opUnsigned_ofInt (div : Bool) (hv : 0 ≤ v ∧ v < 2 ^ 64) (hw : 0 ≤ w ∧ w < 2 ^ 64)
    (h0 : w ≠ 0) : opUnsigned div (.ofInt v) (.ofInt w) = some (.ofInt (op div v w)) := by
  have hne : UInt64.ofInt w ≠ 0 := fun h => h0 ((uint64_eq_zero hw).1 h)
  rw [opUnsigned, if_neg hne, op]
  congr 1
  have hv' := toNat_ofInt hv.1 hv.2
  have hw' := toNat_ofInt hw.1 hw.2
  cases div with
  | true =>
    have hle : v.tdiv w ≤ v := Int.tdiv_le_self w hv.1
    have h0 : 0 ≤ v.tdiv w := Int.tdiv_nonneg hv.1 hw.1
    apply UInt64.toNat.inj
    rw [if_pos rfl, if_pos rfl, UInt64.toNat_div, ← Int.natCast_inj, Int.natCast_ediv, hv', hw',
      toNat_ofInt h0 (by omega), Int.tdiv_eq_ediv_of_nonneg hv.1]
  | false =>
    have h0 : 0 ≤ v.tmod w := Int.tmod_nonneg w hv.1
    have hlt : v.tmod w < w := Int.tmod_lt_of_pos v (by omega)
    apply UInt64.toNat.inj
    rw [if_neg nofun, if_neg nofun, UInt64.toNat_mod, ← Int.natCast_inj, Int.natCast_emod, hv', hw',
      toNat_ofInt h0 (by omega), Int.tmod_eq_emod_of_nonneg hv.1]

theorem ofInt_add_size (z : Int) : UInt64.ofInt (z + 2 ^ 64) = .ofInt z := by
  have hsize : UInt64.ofInt (2 ^ 64) = 0 := by decide
  rw [UInt64.ofInt_add, hsize, UInt64.add_zero]

variable (ha : Natural F (st a) v) (hb : Natural F (st b) w)

include ha hb

/-- A divisor that is zero: each branch that has both operands clears `ok`, and there is one. -/
theorem divOrMod_zero (div : Bool) (hw : w = 0) :
    divOrMod F div a b st = (some (setInf {}), st) := by
  subst hw
  have hint : int64 b st = (some 0, st) := int64_small hb (by decide)
  have huint : uint64 b st = (some 0, st) := uint64_nonneg hb (by decide)
  have hv := ha.range
  obtain ⟨o, ho⟩ : ∃ o, int64 a st = (o, st) := by
    by_cases h : v < 2 ^ 63
    · exact ⟨_, int64_small ha h⟩
    · exact ⟨_, int64_big ha (by omega)⟩
  obtain ⟨o', ho'⟩ : ∃ o', uint64 a st = (o', st) := by
    by_cases h : 0 ≤ v
    · exact ⟨_, uint64_nonneg ha h⟩
    · exact ⟨_, uint64_neg ha (by omega)⟩
  have hsome : (o.isNone && o'.isNone) = false := by
    by_cases h : v < 2 ^ 63
    · cases ho.symm.trans (int64_small ha h)
      rfl
    · cases ho'.symm.trans (uint64_nonneg ha (by omega))
      simp
  have hok : ((((true && o.isNone) && o'.isNone) && o.isNone) && o'.isNone) = false := by
    rw [Bool.true_and, hsome, Bool.false_and, Bool.false_and]
  simp only [divOrMod, bind, StateT.bind, ScalarM.naturalType, if_neg (not_str ha hb),
    if_neg (not_double ha hb), branch_zero (· = 0) _ ho hint rfl, branch_zero (· = 0) _ ho' huint rfl,
    branch_zero (· = 0) _ ho huint rfl, branch_zero (· = 0) _ ho' hint rfl, hok]
  rfl

variable (div : Bool) (h0 : w ≠ 0)

include h0

theorem divOrMod_signed (hv : v < 2 ^ 63) (hw : w < 2 ^ 63) :
    divOrMod F div a b st = ((opSigned div (.ofInt v) (.ofInt w)).map (setI F {}), st) := by
  have hne : ¬ Int64.ofInt w = 0 := fun h => h0 ((int64_eq_zero ⟨hb.range.1, hw⟩).1 h)
  have h₁ := branch_some (· = 0) true (both_signed ha hb hv hw) (decide_eq_false hne)
  simp only [divOrMod, bind, StateT.bind, ScalarM.naturalType, if_neg (not_str ha hb),
    if_neg (not_double ha hb), h₁]
  rfl

theorem divOrMod_unsigned (hs : ¬ (v < 2 ^ 63 ∧ w < 2 ^ 63)) (hv : 0 ≤ v) (hw : 0 ≤ w) :
    divOrMod F div a b st = (some (setU F {} (.ofInt (op div v w))), st) := by
  have hne : ¬ UInt64.ofInt w = 0 := fun h => h0 ((uint64_eq_zero ⟨hw, hb.range.2⟩).1 h)
  have h₁ := branch_none (· = 0) true (not_both_signed ha hb hs)
  have h₂ := branch_some (· = 0) true (both_unsigned ha hb hv hw) (decide_eq_false hne)
  simp only [divOrMod, bind, StateT.bind, ScalarM.naturalType, if_neg (not_str ha hb),
    if_neg (not_double ha hb), h₁, h₂,
    opUnsigned_ofInt div ⟨hv, ha.range.2⟩ ⟨hw, hb.range.2⟩ h0]
  rfl

omit h0 in
theorem divOrMod_left (hv : v < 0) (hw : 2 ^ 63 ≤ w) :
    divOrMod F div a b st = (some (setI F {} (.ofInt (op div (v + 2 ^ 64) w))), st) := by
  have hv' := ha.range
  have hw' := hb.range
  have hne : ¬ UInt64.ofInt w = 0 := fun h => by
    have := (uint64_eq_zero ⟨by omega, hw'.2⟩).1 h
    omega
  have h₁ := branch_none (· = 0) true (not_both_signed ha hb (by omega))
  have h₂ := branch_none (· = 0) true (not_both_unsigned ha hb (by omega))
  have h₃ := branch_some (· = 0) true (left_signed ha hb hv hw) (decide_eq_false hne)
  have hop : opUnsigned div (Int64.ofInt v).toUInt64 (.ofInt w) =
      some (.ofInt (op div (v + 2 ^ 64) w)) := by
    rw [toUInt64_ofInt, ← ofInt_add_size,
      opUnsigned_ofInt div (by omega) ⟨by omega, hw'.2⟩ (by omega)]
  simp only [divOrMod, bind, StateT.bind, ScalarM.naturalType, if_neg (not_str ha hb),
    if_neg (not_double ha hb), h₁, h₂, h₃, hop, Option.map_some, toInt64_ofInt]
  rfl

omit h0 in
theorem divOrMod_right (hv : 2 ^ 63 ≤ v) (hw : w < 0) :
    divOrMod F div a b st = (some (setI F {} (.ofInt (op div v (w + 2 ^ 64)))), st) := by
  have hv' := ha.range
  have hw' := hb.range
  have hne : ¬ Int64.ofInt w = 0 := fun h => by
    have := (int64_eq_zero ⟨hw'.1, by omega⟩).1 h
    omega
  have h₁ := branch_none (· = 0) true (not_both_signed ha hb (by omega))
  have h₂ := branch_none (· = 0) true (not_both_unsigned ha hb (by omega))
  have h₃ := branch_none (· = 0) true (left_unsigned ha hb hv hw)
  have h₄ := branch_some (· = 0) true (right_signed ha hb hv hw) (decide_eq_false hne)
  have hop : opUnsigned div (.ofInt v) (Int64.ofInt w).toUInt64 =
      some (.ofInt (op div v (w + 2 ^ 64))) := by
    rw [toUInt64_ofInt, ← ofInt_add_size w,
      opUnsigned_ofInt div ⟨by omega, hv'.2⟩ (by omega) (by omega)]
  simp only [divOrMod, bind, StateT.bind, ScalarM.naturalType, if_neg (not_str ha hb),
    if_neg (not_double ha hb), h₁, h₂, h₃, h₄, hop, Option.map_some, toInt64_ofInt]
  rfl

end ScalarM

open ScalarM ScalarObj

/-- The machine does not trap, the result is infinity if the divisor is zero, and the truncated
quotient or the remainder if it is not. -/
def DivExact (F : Fp) (div : Bool) (st : Scalars) (a b : Nat) (v w : Int) : Prop :=
  ∃ r, (divOrMod F div a b st).1 = some r ∧ (r.isInf = true ↔ w = 0) ∧
    (w ≠ 0 → Natural F r (op div v w))

/-- Operands that are both below `2 ^ 63` are not `INT64_MIN` and -1.  If one of them is at least
`2 ^ 63` and the other negative, then the negative one is taken for a number of 64 bits without
sign: as a dividend that is harmless only if it is still smaller than the divisor (or gives the
remainder zero), and as a divisor only if its absolute value is a power of two, the dividend is not
smaller than it, and the remainder is wanted. -/
def DivRight (div : Bool) (v w : Int) : Prop :=
  if v < 2 ^ 63 ∧ w < 2 ^ 63 then ¬ (v = -2 ^ 63 ∧ w = -1)
  else if v < 0 then v + 2 ^ 64 < w ∨ div = false ∧ v = -2 ^ 63 ∧ w = 2 ^ 63
  else if w < 0 then div = false ∧ w + 2 ^ 64 ≤ v ∧ w ∣ 2 ^ 64
  else True

section Words

variable {v w : Int}

theorem op_of_lt {div : Bool} (h : v.natAbs < w.natAbs) : op div v w = if div then 0 else v := by
  have hq : v.tdiv w = 0 := by
    rw [← Int.natAbs_eq_zero, Int.natAbs_tdiv]
    exact Nat.div_eq_of_lt h
  rw [op, Int.tmod_def, hq, Int.mul_zero, Int.sub_zero]

theorem op_high {div : Bool} (hv : v < 2 ^ 64) (hw : 2 ^ 63 ≤ w) (hle : w ≤ v) :
    op div v w = if div then 1 else v - w := by
  have hone : v / w = 1 ∧ v % w = v - w :=
    (Int.ediv_emod_unique (by omega)).2 ⟨by omega, by omega, by omega⟩
  rw [op, Int.tdiv_eq_ediv_of_nonneg (by omega), Int.tmod_eq_emod_of_nonneg (by omega), hone.1,
    hone.2]

theorem tdiv_fits (hv : -2 ^ 63 ≤ v ∧ v < 2 ^ 63) (h0 : w ≠ 0) :
    -2 ^ 63 ≤ v.tdiv w ∧ v.tdiv w < 2 ^ 63 ↔ ¬ (v = -2 ^ 63 ∧ w = -1) := by
  have hle : (v.tdiv w).natAbs ≤ v.natAbs := Int.natAbs_tdiv_le_natAbs v w
  by_cases hw : w = -1
  · subst hw
    rw [Int.tdiv_neg, Int.tdiv_one]
    omega
  · refine iff_of_true ?_ fun h => hw h.2
    by_cases hw' : w = 1
    · rw [hw', Int.tdiv_one]
      omega
    · have hhalf : (v.tdiv w).natAbs ≤ v.natAbs / 2 := by
        rw [Int.natAbs_tdiv]
        exact Nat.div_le_div_left (by omega) (by decide)
      omega

theorem tmod_fits (hv : -2 ^ 63 ≤ v ∧ v < 2 ^ 63) : -2 ^ 63 ≤ v.tmod w ∧ v.tmod w < 2 ^ 63 := by
  have hle : (v.tmod w).natAbs ≤ v.natAbs := by
    rw [Int.natAbs_tmod]
    exact Nat.mod_le _ _
  by_cases h0 : 0 ≤ v
  · have := Int.tmod_nonneg w h0
    omega
  · have hneg : -(v.tmod w) = (-v).tmod w := (Int.neg_tmod v w).symm
    have := Int.tmod_nonneg w (show 0 ≤ -v by omega)
    omega

theorem op_fits (div : Bool) (hv : -2 ^ 63 ≤ v ∧ v < 2 ^ 63)
    (hq : -2 ^ 63 ≤ v.tdiv w ∧ v.tdiv w < 2 ^ 63) : -2 ^ 63 ≤ op div v w ∧ op div v w < 2 ^ 63 := by
  cases div with
  | true => exact hq
  | false => exact tmod_fits hv

theorem opSigned_ofInt (div : Bool) (hv : -2 ^ 63 ≤ v ∧ v < 2 ^ 63) (hw : -2 ^ 63 ≤ w ∧ w < 2 ^ 63)
    (h0 : w ≠ 0) : opSigned div (.ofInt v) (.ofInt w) =
      if -2 ^ 63 ≤ v.tdiv w ∧ v.tdiv w < 2 ^ 63 then some (.ofInt (op div v w)) else none := by
  have hne : Int64.ofInt w ≠ 0 := fun h => h0 ((int64_eq_zero hw).1 h)
  rw [opSigned, if_neg hne, Int64.toInt_ofInt_of_le hv.1 hv.2, Int64.toInt_ofInt_of_le hw.1 hw.2,
    signed]
  by_cases hq : -2 ^ 63 ≤ v.tdiv w ∧ v.tdiv w < 2 ^ 63
  · rw [if_pos hq, if_pos hq]
    cases div <;> rfl
  · rw [if_neg hq, if_neg hq]
    rfl

theorem op_nonneg (div : Bool) (hv : 0 ≤ v ∧ v < 2 ^ 64) (hw : 0 ≤ w ∧ w < 2 ^ 64) (h0 : w ≠ 0) :
    0 ≤ op div v w ∧ op div v w < 2 ^ 64 := by
  cases div with
  | true =>
    have hle : v.tdiv w ≤ v := Int.tdiv_le_self w hv.1
    have hpos : 0 ≤ v.tdiv w := Int.tdiv_nonneg hv.1 hw.1
    exact ⟨hpos, by simp only [op, if_true]; omega⟩
  | false =>
    have hpos : 0 ≤ v.tmod w := Int.tmod_nonneg w hv.1
    have hlt : v.tmod w < w := Int.tmod_lt_of_pos v (by omega)
    exact ⟨hpos, by simp only [op, Bool.false_eq_true, if_false]; omega⟩

theorem left_exact_iff {div : Bool} (hv : -2 ^ 63 ≤ v ∧ v < 0) (hw : 2 ^ 63 ≤ w ∧ w < 2 ^ 64) :
    (Int64.ofInt (op div (v + 2 ^ 64) w)).toInt = op div v w ↔
      v + 2 ^ 64 < w ∨ div = false ∧ v = -2 ^ 63 ∧ w = 2 ^ 63 := by
  by_cases hmin : v = -2 ^ 63 ∧ w = 2 ^ 63
  · obtain ⟨rfl, rfl⟩ := hmin
    cases div <;> decide
  have hexact : op div v w = if div then 0 else v := op_of_lt (by omega)
  rw [hexact]
  by_cases hlt : v + 2 ^ 64 < w
  · refine iff_of_true ?_ (.inl hlt)
    rw [op_of_lt (by omega)]
    cases div with
    | true => rfl
    | false =>
      rw [if_neg nofun, if_neg nofun, ← toInt64_ofInt, ofInt_add_size, toInt64_ofInt,
        Int64.toInt_ofInt_of_le hv.1 (by omega)]
  · rw [op_high (by omega) hw.1 (by omega)]
    cases div with
    | true =>
      have hone : (Int64.ofInt 1).toInt = 1 := by decide
      rw [if_pos rfl, if_pos rfl, hone]
      refine iff_of_false (by decide) ?_
      rintro (h | h)
      · exact hlt h
      · cases h.1
    | false =>
      rw [if_neg nofun, if_neg nofun, Int64.toInt_ofInt_of_le (by omega) (by omega)]
      omega

theorem right_exact_iff {div : Bool} (hv : 2 ^ 63 ≤ v ∧ v < 2 ^ 64) (hw : -2 ^ 63 ≤ w ∧ w < 0) :
    (Int64.ofInt (op div v (w + 2 ^ 64))).toInt = op div v w ↔
      div = false ∧ w + 2 ^ 64 ≤ v ∧ w ∣ 2 ^ 64 := by
  have hquot : v.tdiv w ≤ -1 := by
    have hpos : 1 ≤ v / -w := (Int.le_ediv_iff_mul_le (by omega)).2 (by omega)
    have hneg : v.tdiv w = -(v / -w) := by
      rw [← Int.tdiv_eq_ediv_of_nonneg (by omega), Int.tdiv_neg, Int.neg_neg]
    omega
  have hrem : v.tmod w = v % w := Int.tmod_eq_emod_of_nonneg (by omega)
  have hrem0 : 0 ≤ v % w := Int.emod_nonneg v (by omega)
  by_cases hlt : v < w + 2 ^ 64
  · refine iff_of_false ?_ (by omega)
    rw [op_of_lt (by omega), op, hrem]
    cases div with
    | true =>
      have hzero : (Int64.ofInt 0).toInt = 0 := by decide
      rw [if_pos rfl, if_pos rfl, hzero]
      omega
    | false =>
      have hv' : v = (v - 2 ^ 64) + 2 ^ 64 := by omega
      rw [if_neg nofun, if_neg nofun, ← toInt64_ofInt, hv', ofInt_add_size, toInt64_ofInt,
        Int64.toInt_ofInt_of_le (by omega) (by omega), ← hv']
      omega
  · rw [op_high hv.2 (by omega) (by omega), op, hrem]
    cases div with
    | true =>
      have hone : (Int64.ofInt 1).toInt = 1 := by decide
      rw [if_pos rfl, if_pos rfl, hone]
      refine iff_of_false (by omega) fun h => ?_
      cases h.1
    | false =>
      rw [if_neg nofun, if_neg nofun, Int64.toInt_ofInt_of_le (by omega) (by omega)]
      constructor
      · intro h
        have hdvd : w ∣ v - v % w := Int.dvd_self_sub_emod
        have hsub : v - v % w = w + 2 ^ 64 := by omega
        rw [hsub] at hdvd
        exact ⟨rfl, by omega, (Int.dvd_add_right (Int.dvd_refl w)).1 hdvd⟩
      · rintro ⟨-, -, hdvd⟩
        obtain ⟨k, hk⟩ : w ∣ w + 2 ^ 64 := (Int.dvd_add_right (Int.dvd_refl w)).2 hdvd
        have hmod : v % w = (v - (w + 2 ^ 64)) % w := by
          rw [hk, Int.sub_mul_emod_self_left]
        rw [hmod, ← Int.emod_neg, Int.emod_eq_of_lt (by omega) (by omega)]

end Words

section Exact

variable {F : Fp} {st : Scalars} {a b : Nat} {v w : Int}

theorem divExact_of_some {div : Bool} {r : ScalarObj} {z : Int} (h0 : w ≠ 0)
    (hr : (divOrMod F div a b st).1 = some r) (hz : Natural F r z) :
    DivExact F div st a b v w ↔ z = op div v w := by
  unfold DivExact
  rw [hr]
  simp only [Option.some.injEq, exists_eq_left', hz.not_isInf, Bool.false_eq_true, h0, ne_eq,
    not_false_eq_true, true_and, forall_const]
  constructor
  · intro h
    exact hz.unique h
  · rintro rfl
    exact hz

/-- Whether the quotient or the remainder is exact. -/
theorem divExact_iff (F : Fp) (div : Bool) {st : Scalars} {a b : Nat} {v w : Int}
    (ha : Natural F (st a) v) (hb : Natural F (st b) w) :
    DivExact F div st a b v w ↔ DivRight div v w := by
  have hv := ha.range
  have hw := hb.range
  unfold DivRight
  by_cases h0 : w = 0
  · subst h0
    have hinf : DivExact F div st a b v 0 :=
      ⟨setInf {}, by rw [divOrMod_zero ha hb div rfl], by decide, fun h => absurd rfl h⟩
    refine iff_of_true hinf ?_
    split
    · exact fun h => absurd h.2 (by decide)
    · rw [if_neg (by omega), if_neg (by decide)]
      trivial
  by_cases hs : v < 2 ^ 63 ∧ w < 2 ^ 63
  · rw [if_pos hs, ← tdiv_fits ⟨hv.1, hs.1⟩ h0]
    have hr := congrArg Prod.fst (divOrMod_signed ha hb div h0 hs.1 hs.2)
    rw [opSigned_ofInt div ⟨hv.1, hs.1⟩ ⟨hw.1, hs.2⟩ h0] at hr
    by_cases hfit : -2 ^ 63 ≤ v.tdiv w ∧ v.tdiv w < 2 ^ 63
    · rw [if_pos hfit] at hr
      have hop := op_fits div ⟨hv.1, hs.1⟩ hfit
      rw [divExact_of_some h0 hr (Natural.int {} _)]
      exact iff_of_true (Int64.toInt_ofInt_of_le hop.1 hop.2) hfit
    · rw [if_neg hfit] at hr
      refine iff_of_false ?_ hfit
      rintro ⟨r, hsome, -⟩
      cases hr.symm.trans hsome
  rw [if_neg hs]
  by_cases hv0 : v < 0
  · rw [if_pos hv0, divExact_of_some h0 (by rw [divOrMod_left ha hb div hv0 (by omega)])
      (Natural.int {} _)]
    exact left_exact_iff ⟨hv.1, hv0⟩ ⟨by omega, hw.2⟩
  rw [if_neg hv0]
  by_cases hw0 : w < 0
  · rw [if_pos hw0, divExact_of_some h0 (by rw [divOrMod_right ha hb div (by omega) hw0])
      (Natural.int {} _)]
    exact right_exact_iff ⟨by omega, hv.2⟩ ⟨hw.1, hw0⟩
  · have hop := op_nonneg div ⟨by omega, hv.2⟩ ⟨by omega, hw.2⟩ h0
    rw [if_neg hw0, divExact_of_some h0
      (by rw [divOrMod_unsigned ha hb div h0 hs (by omega) (by omega)]) (Natural.uint {} _)]
    exact iff_of_true (toNat_ofInt hop.1 hop.2) trivial

/-- `-7 / 2`. -/
theorem divExact_iff_seven :
    DivExact .small true (fun n => if n = 0 then setI .small {} (-7) else setI .small {} 2) 0 1
      (-7) 2 ↔ DivRight true (-7) 2 :=
  divExact_iff .small true (Natural.int {} (-7)) (Natural.int {} 2)

/-- `INT64_MIN / -1`. -/
theorem not_divExact_min : ¬ ∀ (F : Fp) (div : Bool) (st : Scalars) (a b : Nat) (v w : Int),
    Natural F (st a) v → Natural F (st b) w → DivExact F div st a b v w := by
  intro h
  have ha : Natural .small (setI .small {} .minValue) (-2 ^ 63) :=
    Int64.toInt_minValue ▸ Natural.int {} .minValue
  have hb : Natural .small (setI .small {} (-1)) (-1) := Natural.int {} (-1)
  obtain ⟨r, hr, -⟩ := h .small true
    (fun n => if n = 0 then setI .small {} .minValue else setI .small {} (-1)) 0 1 _ _ ha hb
  rw [divOrMod_signed ha hb true (by decide) (by decide) (by decide),
    opSigned_ofInt true (by decide) (by decide) (by decide), if_neg (by decide)] at hr
  cases hr

end Exact

end Okws

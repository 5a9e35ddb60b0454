import Mathlib.Data.Int.Order.Basic
import Okws.Lib.Mixed
import Okws.ScalarCmp

namespace Okws

open Lib Scalar Zbuf

namespace ScalarObj

/-- Strings and integers, with the conversions that were made of them. -/
inductive Reached (F : Fp) : ScalarObj → Prop
  | str (p : ScalarObj) (s : Str) : Reached F (p.set s)
  | int (p : ScalarObj) (i : Int64) : Reached F (p.setI F i)
  | uint (p : ScalarObj) (u : UInt64) : Reached F (p.setU F u)
  | toInt64 {p : ScalarObj} : Reached F p → Reached F p.toInt64
  | toUint64 {p : ScalarObj} : Reached F p → Reached F p.toUint64
  | toDouble {p : ScalarObj} : Reached F p → Reached F (p.toDouble F)

def isNumber (s : Str) : Prop := (convertuint s).isSome ∨ (myConvertint s).isSome

structure Sound (p : ScalarObj) : Prop where
  valid : p.conv.Valid
  naturalType : p.naturalType ≠ .double
  numeric : (p.conv.uint.isSome ∨ p.conv.int.isSome) ↔ isNumber p.toStr

variable {F : Fp} {p q : ScalarObj}

theorem sound_set (p : ScalarObj) (s : Str) : Sound (p.set s) where
  valid := .fresh (reading s)
  naturalType := nofun
  numeric := .rfl

theorem conv_natural {v : Int} (h : Natural F p v) : p.conv =
    .settled (if 0 ≤ v then some (.ofInt v) else none)
      (if v < 2 ^ 63 then some (.ofInt v) else none) := by
  have hcnv : ¬ (p.uintCnv = .none ∧ p.intCnv = .none) := by
    rintro ⟨hu, -⟩
    cases h with
    | int p i =>
      unfold setI at hu
      split at hu <;> cases hu
    | uint p u => cases hu
  rw [conv, if_neg hcnv, h.toUint64, h.toInt64, h.uint?, h.int?]

theorem toStr_natural {v : Int} (h : Natural F p v) : p.toStr = decimal v := by
  cases h with
  | int p i =>
    unfold setI
    split <;> rfl
  | uint p u =>
    unfold setU
    split <;> rfl

theorem isNumber_decimal {v : Int} (h : -2 ^ 63 ≤ v ∧ v < 2 ^ 64) : isNumber (decimal v) := by
  by_cases h0 : 0 ≤ v
  · have hu := convertuint_decimal (.ofInt v)
    rw [toNat_ofInt h0 h.2] at hu
    exact .inl (by rw [hu]; rfl)
  · have hv : (Int64.ofInt v).toInt = v := Int64.toInt_ofInt_of_le h.1 (by omega)
    have hi := myConvertint_decimal (i := .ofInt v) (by omega)
    rw [hv] at hi
    exact .inr (by rw [hi]; rfl)

theorem sound_natural {v : Int} (h : Natural F p v) : Sound p where
  valid := by
    have hrange := h.range
    rw [conv_natural h]
    by_cases h0 : 0 ≤ v
    · have hu := toNat_ofInt h0 hrange.2
      have hint : (if v < 2 ^ 63 then some (.ofInt v) else none) = intOfUint (.ofInt v) := by
        rw [intOfUint, toInt64_ofInt]
        exact if_congr (by omega) rfl rfl
      rw [if_pos h0, hint]
      exact .plain _
    · rw [if_neg h0, if_pos (by omega)]
      exact .minus (by rw [Int64.toInt_ofInt_of_le hrange.1 (by omega)]; omega)
  naturalType := h.naturalType.2
  numeric := by
    refine iff_of_true ?_ ?_
    · rw [conv_natural h]
      by_cases h0 : 0 ≤ v
      · left
        simp [Conv.uint, h0]
      · right
        have hint : (if v < 2 ^ 63 then some (Int64.ofInt v) else none) = some (.ofInt v) :=
          if_pos (by omega)
        rw [hint]
        rfl
    · rw [toStr_natural h]
      exact isNumber_decimal h.range

theorem Sound.toUint64 (h : Sound p) : Sound p.toUint64 where
  valid := p.conv_toUint64 ▸ h.valid.afterUint
  naturalType := p.toUint64_asked.naturalType ▸ h.naturalType
  numeric := by
    rw [conv_toUint64, Conv.afterUint_isSome, h.numeric, toStr, toStr, p.toUint64_asked.s]

theorem Sound.toInt64 (h : Sound p) : Sound p.toInt64 where
  valid := p.conv_toInt64 ▸ h.valid.afterInt
  naturalType := p.toInt64_asked.naturalType ▸ h.naturalType
  numeric := by
    rw [conv_toInt64, Conv.afterInt_isSome, h.numeric, toStr, toStr, p.toInt64_asked.s]

theorem Sound.toDouble (h : Sound p) : Sound (p.toDouble F) := by
  have hd (d : UInt64) (c : Cnv) : Sound { p with d := d, doubleCnv := c } := by
    have hu : (ScalarObj.toUint64 { p with d := d, doubleCnv := c }).uint? = p.toUint64.uint? := by
      unfold ScalarObj.toUint64
      dsimp only
      cases p.s.bind convertuint <;> split_ifs <;> rfl
    have hi : (ScalarObj.toInt64 { p with d := d, doubleCnv := c }).int? = p.toInt64.int? := by
      unfold ScalarObj.toInt64
      dsimp only
      cases p.s.bind myConvertint <;> split_ifs <;> rfl
    have hconv : conv { p with d := d, doubleCnv := c } = p.conv := by
      rw [conv, conv, hu, hi]
    exact ⟨hconv ▸ h.valid, h.naturalType, hconv ▸ h.numeric⟩
  unfold ScalarObj.toDouble
  split
  · cases p.s.bind F.convert with
    | none => exact hd 0 .bad
    | some d => exact hd d .ok
  · exact h

theorem Reached.sound (h : Reached F p) : Sound p := by
  induction h with
  | str p s => exact sound_set p s
  | int p i => exact sound_natural (.int p i)
  | uint p u => exact sound_natural (.uint p u)
  | toInt64 _ ih => exact ih.toInt64
  | toUint64 _ ih => exact ih.toUint64
  | toDouble _ ih => exact ih.toDouble

end ScalarObj

namespace Conv

variable {c d : Conv} {s t : Str} {u : UInt64} {j : Int64}

theorem Valid.both (h : d.Valid) (hu : d.uint = some u) (hj : d.int = some j) :
    j.toInt = u.toNat ∨ j.toInt < 0 ∧ 0 < u.toNat := by
  cases h with
  | fresh h =>
    cases h with
    | plain u =>
      cases hu
      exact .inl (toInt_of_intOfUint hj)
    | blankMinus hi hw =>
      cases hu
      cases hj
      have := Int64.le_toInt j
      exact .inr ⟨hi, by omega⟩
    | wrapped => cases hj
    | neither | negative | minusZero => cases hu
  | plain u =>
    cases hu
    exact .inl (toInt_of_intOfUint hj)
  | wrapped => cases hj
  | neither | minus => cases hu

/-- The one way in which the two orders of conversion make a difference to a comparison. -/
def Apart (c d : Conv) : Prop := ∀ u i j, c.uint = none → c.int = some i → d.uint = some u →
  d.int = some j → j.toInt < 0 → i.toInt < j.toInt

theorem signedNumber_eq (h : d.Valid)
    (hneg : ∀ u j, d.uint = some u → d.int = some j → 0 ≤ j.toInt) : d.signedNumber = d.number := by
  unfold signedNumber number
  cases hdj : d.int with
  | none => cases d.uint <;> rfl
  | some j =>
    cases hdu : d.uint with
    | none => rfl
    | some u =>
      obtain heq | ⟨hlt, -⟩ := h.both hdu hdj
      · exact congrArg some heq
      · exact absurd (hneg u j hdu hdj) (by omega)

theorem cmp_number (hc : c.Valid) (hd : d.Valid) (h : Apart c d) : c.cmp d s t =
    byNumber c.number d.number s t := by
  cases hcu : c.uint with
  | some u => simp only [cmp, beside, hcu]
  | none =>
    by_cases hneg : ∃ u j, d.uint = some u ∧ d.int = some j ∧ j.toInt < 0
    · obtain ⟨u, j, hdu, hdj, hneg⟩ := hneg
      have hn : c.number = c.int.map (·.toInt) := by rw [number, hcu]
      have hs : d.signedNumber = some j.toInt := by rw [signedNumber, hdj]
      have hu : d.number = some (u.toNat : Int) := by rw [number, hdu]
      cases hci : c.int with
      | none => simp only [cmp, byNumber, hn, hci, Option.map_none]
      | some i =>
        have hlt := h u i j hcu hci hdu hdj hneg
        have hi := hc.nonpos hcu hci
        obtain heq | ⟨-, hpos⟩ := hd.both hdu hdj
        · omega
        · have hiu : i.toInt < u.toNat := by omega
          simp only [cmp, byNumber, beside, hcu, hn, hci, hs, hu, Option.map_some,
            order_of_lt hlt, order_of_lt hiu]
    · have hs := signedNumber_eq hd fun u j hu hj => by
        by_contra hlt
        exact hneg ⟨u, j, hu, hj, by omega⟩
      simp only [cmp, beside, hcu, hs]

theorem apart_of_opposite (hc : c.Valid) (hd : d.Valid)
    (h : (c.cmp d s t).sign = -(d.cmp c t s).sign) : Apart c d := by
  intro u i j hcu hci hdu hdj hneg
  have hcd : c.cmp d s t = order i.toInt j.toInt := by
    unfold cmp beside number signedNumber
    rw [hcu, hci, hdj]
    rfl
  have hdc : d.cmp c t s = order u.toNat i.toInt := by
    unfold cmp beside number
    rw [hdu, hcu, hci]
    rfl
  obtain heq | ⟨-, hpos⟩ := hd.both hdu hdj
  · omega
  · have hi := hc.nonpos hcu hci
    rw [hdc, order_of_gt (by omega : i.toInt < u.toNat), hcd] at h
    exact order_lt.1 (Int.sign_eq_neg_one_iff_neg.1 h)

end Conv

namespace ScalarObj

open Conv

variable {F : Fp} {p q : ScalarObj} {A : ScalarObj → Prop}

/-- `cmp` of two objects. -/
def cmpOf (F : Fp) (p q : ScalarObj) : Int := (ScalarM.cmp F 0 1 fun n => if n = 0 then p else q).1

def num (p : ScalarObj) : Option Int := p.conv.number

theorem num_natural {v : Int} (h : Natural F p v) : p.num = some v := by
  have hrange := h.range
  rw [num, conv_natural h]
  by_cases h0 : 0 ≤ v
  · rw [if_pos h0]
    exact congrArg some (toNat_ofInt h0 hrange.2)
  · rw [if_neg h0, if_pos (by omega)]
    exact congrArg some (Int64.toInt_ofInt_of_le hrange.1 (by omega))

theorem cmpOf_conv (hp : Sound p) (hq : Sound q) :
    cmpOf F p q = p.conv.cmp q.conv p.toStr q.toStr := by
  have hint : cmpOf F p q = (ScalarM.cmpIntegers 0 1 fun n => if n = 0 then p else q).1 := by
    have hif : ScalarM.cmp F 0 1 (fun n => if n = 0 then p else q) = (if p.naturalType = .double ∨
        q.naturalType = .double then _ else ScalarM.cmpIntegers 0 1 : ScalarM Int) _ := rfl
    rw [cmpOf, hif, if_neg (not_or.2 ⟨hp.naturalType, hq.naturalType⟩)]
  have h := ScalarM.cmpIntegers_answer (a := 0) (b := 1) (s := p.toStr) (t := q.toStr) (by decide)
    hp.valid hq.valid
  rw [hint]
  exact (h _ ⟨rfl, rfl, rfl, rfl⟩).1

theorem Sound.num_isSome (h : Sound p) : p.num.isSome ↔ isNumber p.toStr := by
  rw [← h.numeric, num, Conv.number]
  cases p.conv.uint with
  | none => simp
  | some u => simp

theorem determined (hA : ∀ p, A p → Reached F p) : Mixed.Determined num toStr A := by
  intro p q hp hq htext
  rw [Bool.eq_iff_iff, (hA p hp).sound.num_isSome, (hA q hq).sound.num_isSome, htext]

theorem strCmp_neg (s t : Str) : ScalarM.strCmp s t < 0 ↔ s < t := by
  simp only [ScalarM.strCmp, ScalarM.compare, decide_eq_true_eq]
  split_ifs with hgt hlt
  · exact iff_of_false (by decide) (List.lt_asymm hgt)
  · exact iff_of_true (by decide) hlt
  · exact iff_of_false (by decide) hlt

theorem strCmp_pos (s t : Str) : 0 < ScalarM.strCmp s t ↔ t < s := by
  simp only [ScalarM.strCmp, ScalarM.compare, decide_eq_true_eq]
  split_ifs with hgt hlt
  · exact iff_of_true (by decide) hgt
  · exact iff_of_false (by decide) hgt
  · exact iff_of_false (by decide) hgt

/-- No object that is a signed integer only is as large as a text with a minus sign behind blanks
that was never asked for a number: that text is a large unsigned integer if it comes first. -/
def MinusApart (A : ScalarObj → Prop) : Prop := ∀ p q, A p → A q → Apart p.conv q.conv

theorem compares (hA : ∀ p, A p → Reached F p) (h : MinusApart A) :
    Compares (cmpOf F) (Mixed.Less num toStr) A := by
  have hcmp {p q : ScalarObj} (hp : A p) (hq : A q) : cmpOf F p q =
      byNumber (num p) (num q) p.toStr q.toStr :=
    (cmpOf_conv (hA p hp).sound (hA q hq).sound).trans
      (cmp_number (hA p hp).sound.valid (hA q hq).sound.valid (h p q hp hq))
  constructor
  · intro p q hp hq
    rw [hcmp hp hq]
    cases hv : num p with
    | none =>
      rw [Mixed.less_left hv]
      exact strCmp_neg _ _
    | some v =>
      cases hw : num q with
      | none =>
        rw [Mixed.less_right hw]
        exact strCmp_neg _ _
      | some w =>
        rw [Mixed.less_some hv hw]
        exact order_lt
  · intro p q hp hq
    rw [hcmp hp hq]
    cases hv : num p with
    | none =>
      rw [Mixed.less_right hv]
      exact strCmp_pos _ _
    | some v =>
      cases hw : num q with
      | none =>
        rw [Mixed.less_left hw]
        exact strCmp_pos _ _
      | some w =>
        rw [Mixed.less_some hw hv]
        exact order_gt

end ScalarObj

open ScalarObj in
theorem cmp_totalPreorder_iff {F : Fp} {A : ScalarObj → Prop} (hA : ∀ p, A p → Reached F p) :
    TotalPreorder (cmpOf F) A ↔ MinusApart A ∧ Mixed.Agree num toStr A := by
  constructor
  · intro h
    have hapart : MinusApart A := by
      intro p q hp hq
      have hopp := h.opposite p q hp hq
      have hps := (hA p hp).sound
      have hqs := (hA q hq).sound
      rw [cmpOf_conv hps hqs, cmpOf_conv hqs hps] at hopp
      exact Conv.apart_of_opposite hps.valid hqs.valid hopp
    exact ⟨hapart, (Mixed.totalPreorder_iff (compares hA hapart) (determined hA)).1 h⟩
  · rintro ⟨hapart, hagree⟩
    exact (Mixed.totalPreorder_iff (compares hA hapart) (determined hA)).2 hagree

open ScalarObj in
theorem cmp_totalPreorder_iff_integers :
    TotalPreorder (cmpOf .small) fun p => ∃ v, Natural .small p v := by
  refine (cmp_totalPreorder_iff ?_).2 ⟨?_, ?_⟩
  · rintro p ⟨v, ⟨q, i⟩ | ⟨q, u⟩⟩
    · exact .int q i
    · exact .uint q u
  · rintro p q - ⟨w, hq⟩ u i j - - hu hj hneg
    rw [conv_natural hq] at hu hj
    obtain ⟨h0, -⟩ := Option.ite_none_right_eq_some.1 hu
    obtain ⟨hlt, hj⟩ := Option.ite_none_right_eq_some.1 hj
    rw [← Option.some.inj hj, Int64.toInt_ofInt_of_le (by omega) hlt] at hneg
    omega
  · rintro p q r v w - ⟨z, hq⟩ - - hnone
    rw [num_natural hq] at hnone
    cases hnone

/-- 9 is less than 10, the text of 10 is less than 1a, and that is less than the text of 9. -/
theorem not_totalPreorder_digits : ¬ ∀ A : ScalarObj → Prop,
    (∀ p, A p → ScalarObj.Reached .small p) → TotalPreorder (ScalarObj.cmpOf .small) A := by
  intro h
  have htrans := (h (fun p => ∃ s, p = .ofStr s) (by rintro p ⟨s, rfl⟩; exact .str {} s)).trans
    (.ofStr [57]) (.ofStr [49, 48]) (.ofStr [49, 97]) ⟨_, rfl⟩ ⟨_, rfl⟩ ⟨_, rfl⟩
  revert htrans
  decide

end Okws

import Mathlib.Data.BitVec
import Mathlib.Logic.Function.Iterate
import Mathlib.Tactic.Common

/-! Cyclic redundancy checks that take the high bits first: bit by bit, and byte by byte from a
table. -/

namespace Okws.Lib.Crc

variable {w : Nat} (poly : BitVec w)

def shift (c : BitVec w) : BitVec w := if c.msb then (c <<< 1) ^^^ poly else c <<< 1

def byte (c : BitVec w) (b : BitVec 8) : BitVec w :=
  (shift poly)^[8] (c ^^^ (b.setWidth w <<< (w - 8)))

/-- The check of a message, with the register clear at first. -/
def crc (bs : List (BitVec 8)) : BitVec w := bs.foldl (byte poly) 0

/-- The entry of the table for the byte that leaves the register. -/
def entry (b : BitVec 8) : BitVec w := (shift poly)^[8] (b.setWidth w <<< (w - 8))

theorem shift_xor (a b : BitVec w) : shift poly (a ^^^ b) = shift poly a ^^^ shift poly b := by
  have hcancel (x y : BitVec w) : x ^^^ y = x ^^^ poly ^^^ (y ^^^ poly) := by
    rw [BitVec.xor_assoc, ← BitVec.xor_assoc poly, BitVec.xor_comm poly, BitVec.xor_assoc y,
      BitVec.xor_self, BitVec.xor_zero]
  unfold shift
  rw [BitVec.msb_xor, BitVec.shiftLeft_xor_distrib]
  cases a.msb <;> cases b.msb
  · rfl
  · exact BitVec.xor_assoc ..
  · exact (BitVec.xor_assoc ..).trans ((congrArg _ (BitVec.xor_comm ..)).trans
      (BitVec.xor_assoc ..).symm)
  · exact hcancel _ _

theorem shifts_xor (n : Nat) (a b : BitVec w) :
    (shift poly)^[n] (a ^^^ b) = (shift poly)^[n] a ^^^ (shift poly)^[n] b := by
  induction n generalizing a b with
  | zero => rfl
  | succ n ih => rw [Function.iterate_succ_apply, shift_xor, ih]; rfl

theorem shifts_clear {n : Nat} {c : BitVec w} (hc : c.toNat < 2 ^ (w - n)) (hn : n ≤ w) :
    (shift poly)^[n] c = c <<< n := by
  induction n generalizing c with
  | zero => simp
  | succ n ih =>
    have hpow : 2 ^ (w - n) = 2 ^ (w - (n + 1)) * 2 := by
      rw [← Nat.pow_succ]
      congr 1
      omega
    have hle : 2 ^ (w - (n + 1)) * 2 ≤ 2 ^ w := by
      rw [← hpow]
      exact Nat.pow_le_pow_right (by omega) (by omega)
    have htop : c.msb = false := by
      rw [BitVec.msb_eq_decide, decide_eq_false_iff_not]
      have hhalf : 2 ^ w = 2 ^ (w - 1) * 2 := by
        rw [← Nat.pow_succ]
        congr 1
        omega
      omega
    have hnat : (c <<< 1).toNat = c.toNat * 2 := by
      rw [BitVec.toNat_shiftLeft, Nat.shiftLeft_eq, Nat.mod_eq_of_lt (by omega)]
    rw [Function.iterate_succ_apply, shift, htop, if_neg (by simp), ih (by omega) (by omega),
      ← BitVec.shiftLeft_add, Nat.add_comm 1 n]

theorem split (hw : 8 ≤ w) (c : BitVec w) :
    c = c <<< 8 >>> 8 ^^^ ((c >>> (w - 8)).setWidth 8).setWidth w <<< (w - 8) := by
  apply BitVec.eq_of_getLsbD_eq
  intro i hi
  by_cases h : i < w - 8
  · have hlt : 8 + i < w := by omega
    simp [hlt, hi, h]
  · have hge : ¬ 8 + i < w := by omega
    have hbyte : i - (w - 8) < 8 := by omega
    have hsub : w - 8 + (i - (w - 8)) = i := by omega
    simp [hge, hi, h, hbyte, hsub]

theorem byte_eq_entry (hw : 8 ≤ w) (c : BitVec w) (b : BitVec 8) :
    byte poly c b = (c <<< 8) ^^^ entry poly ((c >>> (w - 8)).setWidth 8 ^^^ b) := by
  have hlow : (c <<< 8 >>> 8).toNat < 2 ^ (w - 8) := by
    rw [BitVec.toNat_ushiftRight, Nat.shiftRight_eq_div_pow, Nat.div_lt_iff_lt_mul (by omega),
      ← Nat.pow_add, Nat.sub_add_cancel hw]
    exact (c <<< 8).isLt
  have hback : c <<< 8 >>> 8 <<< 8 = c <<< 8 := by
    apply BitVec.eq_of_getLsbD_eq
    intro i hi
    by_cases h : i < 8
    · simp [h]
    · have hadd : 8 + (i - 8) = i := by omega
      simp [h, hi, hadd]
  have hentry : ((c >>> (w - 8)).setWidth 8).setWidth w <<< (w - 8) ^^^
      b.setWidth w <<< (w - 8) =
      ((c >>> (w - 8)).setWidth 8 ^^^ b).setWidth w <<< (w - 8) := by
    rw [← BitVec.shiftLeft_xor_distrib, ← BitVec.setWidth_xor]
  calc byte poly c b
      = (shift poly)^[8] (c <<< 8 >>> 8 ^^^
          ((c >>> (w - 8)).setWidth 8 ^^^ b).setWidth w <<< (w - 8)) := by
        rw [byte, ← hentry, ← BitVec.xor_assoc, ← split hw c]
    _ = (c <<< 8) ^^^ entry poly ((c >>> (w - 8)).setWidth 8 ^^^ b) := by
        rw [shifts_xor, shifts_clear poly hlow hw, hback, entry]

end Okws.Lib.Crc

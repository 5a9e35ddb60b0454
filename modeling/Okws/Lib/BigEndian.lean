import Mathlib.Tactic.Ring

/-! Numbers as bytes, the highest first. -/

namespace Okws.BigEndian

def put : Nat → Nat → List UInt8
  | 0, _ => []
  | n + 1, v => UInt8.ofNat (v / 256 ^ n) :: put n v

def get : Nat → List UInt8 → Nat
  | v, [] => v
  | v, b :: l => get (v * 256 + b.toNat) l

@[simp] theorem length_put (n v : Nat) : (put n v).length = n := by
  induction n with
  | zero => rfl
  | succ n ih => simp [put, ih]

theorem get_put (u n v : Nat) : get u (put n v) = u * 256 ^ n + v % 256 ^ n := by
  induction n generalizing u with
  | zero => simp [put, get, Nat.mod_one]
  | succ n ih =>
    have hb : (UInt8.ofNat (v / 256 ^ n)).toNat = v / 256 ^ n % 256 := UInt8.toNat_ofNat'
    rw [put, get, ih, hb, Nat.pow_succ, Nat.mod_mul]
    ring

theorem get_put_lt {n v : Nat} (h : v < 256 ^ n) : get 0 (put n v) = v := by
  rw [get_put, Nat.zero_mul, Nat.zero_add, Nat.mod_eq_of_lt h]

theorem get_div (u : Nat) (l : List UInt8) : get u l / 256 ^ l.length = u := by
  induction l generalizing u with
  | nil => simp [get]
  | cons b l ih =>
    have hb : b.toNat < 256 := b.toNat_lt
    rw [get, List.length_cons, Nat.pow_succ, ← Nat.div_div_eq_div_mul, ih]
    omega

theorem put_get (u : Nat) (l : List UInt8) : put l.length (get u l) = l := by
  induction l generalizing u with
  | nil => rfl
  | cons b l ih =>
    have hb : UInt8.ofNat (u * 256 + b.toNat) = b := by
      rw [UInt8.ofNat_add, UInt8.ofNat_mul, UInt8.ofNat_toNat]
      simp
    rw [List.length_cons, put, get, get_div, ih, hb]

def getInt (l : List UInt8) : Int := Int.bmod (get 0 l) (256 ^ l.length)

theorem getInt_put {n : Nat} {v : Nat} {i : Int} (hv : v % 256 ^ n = i % 256 ^ n)
    (hlo : -(256 ^ n) ≤ 2 * i) (hhi : 2 * i < 256 ^ n) : getInt (put n v) = i := by
  have hcast : ((get 0 (put n v) : Nat) : Int) = i % ((256 ^ n : Nat) : Int) := by
    rw [get_put, Nat.zero_mul, Nat.zero_add]
    push_cast
    exact hv
  rw [getInt, length_put, hcast, Int.emod_bmod]
  apply Int.bmod_eq_of_le_mul_two
  · push_cast; omega
  · push_cast; omega

end Okws.BigEndian

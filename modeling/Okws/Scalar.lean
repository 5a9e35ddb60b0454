import Mathlib.Data.List.TakeWhile
import Okws.Proxy
import Okws.Zbuf

namespace Okws.Scalar

open Inet Zbuf

/-- What `strtoull` and `strtoll` make of a text with base 0, before they look at the range: the
sign, the number and what is left; nothing if there is no number. -/
def number (s : Str) : Option (Bool × Nat × Str) :=
  let (neg, t) := match s.dropWhile Byte.isSpace with
    | 45 :: t => (true, t)
    | 43 :: t => (false, t)
    | t => (false, t)
  if t.head?.any isDigit then some (neg, strtoul t) else none

def convertuint (s : Str) : Option UInt64 :=
  if s.head? = none ∨ s.head? = some 45 then none
  else match number (cstr s) with
    -- the end pointer is at the beginning
    | none => if cstr s = [] then some 0 else none
    | some (neg, n, r) =>
      if 2 ^ 64 ≤ n then none
      else if r = [] then some (if neg then -.ofNat n else .ofNat n)
      else none

def myConvertint (s : Str) : Option Int64 :=
  if s.head? = none then none
  else match number (cstr s) with
    | none => if cstr s = [] then some 0 else none
    | some (neg, n, r) =>
      if (if neg then 2 ^ 63 < n else 2 ^ 63 ≤ n) then none
      else if r = [] then some (.ofInt (if neg then -n else n))
      else none

section Decimal

def natural (n : Nat) : Str := (Nat.toDigits 10 n).map Char.toUInt8

theorem decimal_nat (n : Nat) : decimal n = natural n := by
  have h : ¬ (n : Int) < 0 := by omega
  simp [decimal, natural, h]

theorem decimal_neg {i : Int} (h : i < 0) : decimal i = 45 :: natural i.natAbs := by
  simp [decimal, natural, h]

theorem digitChar_isDigit {d : Nat} (h : d < 10) :
    isDigit (Nat.digitChar d).toUInt8 = true ∧ digit (Nat.digitChar d).toUInt8 = d := by
  revert d
  decide

theorem natural_small {n : Nat} (h : n < 10) : natural n = [(Nat.digitChar n).toUInt8] := by
  rw [natural, Nat.toDigits_of_lt_base h]
  rfl

theorem natural_big {n : Nat} (h : 10 ≤ n) :
    natural n = natural (n / 10) ++ [(Nat.digitChar (n % 10)).toUInt8] := by
  rw [natural, Nat.toDigits_of_base_le (by decide) h, List.map_append]
  rfl

theorem digits_natural (n : Nat) (t : Str) : digits 10 0 (natural n ++ t) = digits 10 n t := by
  induction n using Nat.strongRecOn generalizing t with
  | ind n ih =>
    by_cases h : n < 10
    · have hd := (digitChar_isDigit h).2
      rw [natural_small h, List.singleton_append, digits, hd, if_pos h, Nat.zero_mul, Nat.zero_add]
    · have hlt : n / 10 < n := by omega
      have hd := (digitChar_isDigit (Nat.mod_lt n (by decide : 10 > 0))).2
      rw [natural_big (by omega), List.append_assoc, ih _ hlt, List.singleton_append, digits, hd,
        if_pos (Nat.mod_lt n (by decide)), Nat.div_add_mod']

theorem head_natural (n : Nat) :
    ∃ b t, natural n = b :: t ∧ isDigit b = true ∧ (b = 48 → n = 0 ∧ t = []) := by
  induction n using Nat.strongRecOn with
  | ind n ih =>
    by_cases h : n < 10
    · refine ⟨_, [], natural_small h, (digitChar_isDigit h).1, fun h0 => ⟨?_, rfl⟩⟩
      have hd := (digitChar_isDigit h).2
      rw [h0] at hd
      exact hd.symm
    · obtain ⟨b, t, hbt, hb, h0⟩ := ih (n / 10) (by omega)
      refine ⟨b, _, by rw [natural_big (by omega), hbt, List.cons_append], hb, fun hz => ?_⟩
      have := (h0 hz).1
      omega

theorem strtoul_natural (n : Nat) : strtoul (natural n) = (n, []) := by
  obtain ⟨b, t, hbt, -, h0⟩ := head_natural n
  by_cases hb : b = 48
  · obtain ⟨rfl, -⟩ := h0 hb
    decide
  · have hs : strtoul (natural n) = digits 10 0 (natural n) := by
      rw [hbt]
      unfold strtoul
      split
      · next h => exact absurd (List.cons.inj h).1 hb
      · next h => exact absurd (List.cons.inj h).1 hb
      · rfl
    rw [hs, ← List.append_nil (natural n), digits_natural]
    rfl

theorem natural_all (n : Nat) : ∀ b ∈ natural n, isDigit b = true := by
  induction n using Nat.strongRecOn with
  | ind n ih =>
    by_cases h : n < 10
    · rw [natural_small h]
      simpa using (digitChar_isDigit h).1
    · rw [natural_big (by omega)]
      intro b hb
      obtain hb | hb := List.mem_append.1 hb
      · exact ih _ (by omega) b hb
      · rw [List.mem_singleton.1 hb]
        exact (digitChar_isDigit (Nat.mod_lt n (by decide))).1

theorem isDigit_plain {b : UInt8} (h : isDigit b = true) :
    b ≠ 0 ∧ Byte.isSpace b = false ∧ b ≠ 45 ∧ b ≠ 43 := by
  have hle : 48 ≤ b.toNat := by
    have : (48 : UInt8) ≤ b := by simp_all [isDigit]
    exact UInt8.le_iff_toNat_le.1 this
  have hne {c : UInt8} (hc : c.toNat < 48) : b ≠ c := by
    rintro rfl
    omega
  have h13 : ¬ b ≤ 13 := fun h => absurd (UInt8.le_iff_toNat_le.1 h) (by simp; omega)
  refine ⟨hne (by decide), ?_, hne (by decide), hne (by decide)⟩
  simp [Byte.isSpace, Byte.sp, hne (c := 32) (by decide), h13]

theorem cstr_natural (n : Nat) : cstr (natural n) = natural n :=
  List.takeWhile_eq_self_iff.2 fun b hb =>
    decide_eq_true (isDigit_plain (natural_all n b hb)).1

theorem number_of_digit {b : UInt8} {t : Str} (hb : isDigit b = true) :
    number (b :: t) = some (false, strtoul (b :: t)) := by
  obtain ⟨-, hsp, h45, h43⟩ := isDigit_plain hb
  have hd : (b :: t).dropWhile Byte.isSpace = b :: t := by simp [hsp]
  unfold number
  rw [hd]
  split
  next neg u h =>
    split at h
    · next h' => exact absurd (List.cons.inj h').1 h45
    · next h' => exact absurd (List.cons.inj h').1 h43
    · cases h
      simp [hb]

theorem number_natural (n : Nat) : number (natural n) = some (false, n, []) := by
  have hs := strtoul_natural n
  obtain ⟨b, t, hbt, hb, -⟩ := head_natural n
  rw [hbt] at hs ⊢
  rw [number_of_digit hb, hs]

theorem number_neg (n : Nat) : number (45 :: natural n) = some (true, n, []) := by
  have hs := strtoul_natural n
  obtain ⟨b, t, hbt, hb, -⟩ := head_natural n
  have hd : (45 :: natural n).dropWhile Byte.isSpace = 45 :: natural n :=
    List.dropWhile_cons_of_neg (by decide)
  unfold number
  rw [hd]
  rw [hbt] at hs ⊢
  simp [hs, hb]

theorem convertuint_decimal (u : UInt64) : convertuint (decimal u.toNat) = some u := by
  obtain ⟨b, t, hbt, hb, -⟩ := head_natural u.toNat
  have hhead : ¬ ((natural u.toNat).head? = none ∨ (natural u.toNat).head? = some 45) := by
    rw [hbt]
    simpa using (isDigit_plain hb).2.2.1
  have hlt : ¬ 2 ^ 64 ≤ u.toNat := Nat.not_le.2 u.toNat_lt
  rw [decimal_nat, convertuint, if_neg hhead, cstr_natural, number_natural]
  simp only [hlt, if_false, if_true, Bool.false_eq_true, UInt64.ofNat_toNat]

theorem convertuint_neg (s : Str) : convertuint (45 :: s) = none := by
  simp [convertuint]

theorem myConvertint_decimal {i : Int64} (h : i.toInt < 0) :
    myConvertint (decimal i.toInt) = some i := by
  have hc : cstr (45 :: natural i.toInt.natAbs) = 45 :: natural i.toInt.natAbs := by
    have := cstr_natural i.toInt.natAbs
    simpa [cstr] using this
  have hlt : ¬ 2 ^ 63 < i.toInt.natAbs := by
    have := i.le_toInt
    omega
  have habs : -((i.toInt.natAbs : Nat) : Int) = i.toInt := by omega
  rw [decimal_neg h, myConvertint, hc, number_neg]
  simp only [List.head?_cons, reduceCtorEq, if_false, if_true, hlt, habs, Int64.ofInt_toInt]

theorem length_natural_le_iff {n k : Nat} (h : 0 < k) : (natural n).length ≤ k ↔ n < 10 ^ k := by
  rw [natural, List.length_map]
  exact Nat.length_toDigits_le_iff (by decide) h

theorem length_decimal (z : Int) (h : z.natAbs < 2 ^ 64) : (decimal z).length ≤ 21 := by
  have hle := (length_natural_le_iff (n := z.natAbs) (k := 20) (by decide)).2 (by omega)
  rw [natural] at hle
  rw [decimal, List.length_append]
  split
  · simp only [List.length_singleton]
    omega
  · simp only [List.length_nil]
    omega

end Decimal

end Okws.Scalar

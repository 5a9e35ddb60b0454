import Okws.Lib.Crc
import Okws.Lib.Cut
import Okws.Redis

namespace Okws.Redis

open Lib

def xmodem (bs : Str) : BitVec 16 := Crc.crc 0x1021#16 (bs.map UInt8.toBitVec)

/-- The hash tag: what stands between the first left brace and the first right brace behind it,
unless there is nothing between them. -/
inductive HashTag (key : Str) : Str → Prop
  | braces {a t c : Str} : key = a ++ 123 :: (t ++ 125 :: c) → 123 ∉ a → 125 ∉ t → t ≠ [] →
    HashTag key t
  | whole : (∀ a t c, key = a ++ 123 :: (t ++ 125 :: c) → 123 ∉ a → 125 ∉ t → t = []) →
    HashTag key key

section Table

theorem crc16tab_entry (i : Fin 256) :
    (crc16tab.getD i 0).toBitVec = Crc.entry 0x1021#16 (BitVec.ofFin i) := by
  revert i
  decide +kernel

theorem crc16Index_toNat (c : UInt32) (b : UInt8) :
    (crc16Index c b).toNat =
      (((c.toBitVec.setWidth 16) >>> 8).setWidth 8 ^^^ b.toBitVec).toNat := by
  have hmask : (crc16Index c b).toNat = (c.toNat >>> 8 ^^^ b.toNat) % 2 ^ 8 := by
    rw [crc16Index, UInt32.toNat_and, UInt32.toNat_xor, UInt32.toNat_shiftRight,
      UInt8.toNat_toUInt32]
    exact Nat.and_two_pow_sub_one_eq_mod _ 8
  have hbyte : b.toNat % 2 ^ 8 = b.toNat := Nat.mod_eq_of_lt b.toNat_lt
  have htop : (c.toNat % 2 ^ 16) >>> 8 % 2 ^ 8 = c.toNat >>> 8 % 2 ^ 8 := by
    rw [Nat.shiftRight_eq_div_pow, Nat.shiftRight_eq_div_pow]
    omega
  rw [hmask, Nat.xor_mod_two_pow, hbyte, BitVec.toNat_xor, BitVec.toNat_setWidth,
    BitVec.toNat_ushiftRight, BitVec.toNat_setWidth, UInt32.toNat_toBitVec, htop,
    UInt8.toNat_toBitVec]

theorem crc16_step (c : UInt32) (b : UInt8) :
    ((c <<< 8) ^^^ (crc16tab.getD (crc16Index c b).toNat 0).toUInt32).toBitVec.setWidth 16 =
      Crc.byte 0x1021#16 (c.toBitVec.setWidth 16) b.toBitVec := by
  set i : BitVec 8 := ((c.toBitVec.setWidth 16) >>> 8).setWidth 8 ^^^ b.toBitVec with hi
  have hentry : (crc16tab.getD (crc16Index c b).toNat 0).toBitVec = Crc.entry 0x1021#16 i := by
    rw [crc16Index_toNat]
    exact crc16tab_entry i.toFin
  rw [Crc.byte_eq_entry _ (by decide), ← hi, ← hentry, UInt32.toBitVec_xor, BitVec.setWidth_xor]
  congr 1
  · apply BitVec.eq_of_toNat_eq
    simp [BitVec.toNat_shiftLeft, Nat.shiftLeft_eq]
  · simp

theorem crc16_foldl (bs : Str) (c : UInt32) :
    (bs.foldl (fun (crc : UInt32) b =>
      (crc <<< 8) ^^^ (crc16tab.getD (crc16Index crc b).toNat 0).toUInt32) c).toBitVec.setWidth 16 =
      (bs.map UInt8.toBitVec).foldl (Crc.byte 0x1021#16) (c.toBitVec.setWidth 16) := by
  induction bs generalizing c with
  | nil => rfl
  | cons b bs ih => rw [List.foldl_cons, ih, crc16_step]; rfl

theorem crc16_eq (s : Str) :
    (crc16 s).toBitVec.setWidth 16 = xmodem (s.take (hashedLen s)) :=
  crc16_foldl _ 0

theorem crc16_slot (s : Str) :
    (crc16 s &&& 16383).toNat = (xmodem (s.take (hashedLen s))).toNat % 16384 := by
  rw [← crc16_eq, BitVec.toNat_setWidth, UInt32.toNat_and, UInt32.toNat_toBitVec]
  refine (Nat.and_two_pow_sub_one_eq_mod _ 14).trans ?_
  omega

theorem hashedLen_eq {s : Str} (h : s.length < 2 ^ 31) : hashedLen s = s.length := by
  have hbmod : (s.length : Int).bmod (2 ^ 32) = s.length := Int.bmod_eq_of_le (by omega) (by omega)
  unfold hashedLen
  rw [hbmod]
  exact Int.toNat_natCast _

end Table

section Tag

variable {key t : Str}

/-- What `assignKeyslot` hashes. -/
def hashed (key : Str) : Str := match key.dropWhile (· ≠ 123) with
  | [] => key
  | _ :: rest =>
    let tag := rest.takeWhile (· ≠ 125)
    if tag = rest ∨ tag = [] then key else tag

theorem assignKeyslot_hashed (key : Str) :
    assignKeyslot key = (crc16 (hashed key) &&& 16383).toNat := by
  unfold assignKeyslot hashed
  cases key.dropWhile (· ≠ 123) with
  | nil => rfl
  | cons b rest =>
    dsimp only
    split <;> rfl

theorem hashed_braces {a c : Str} (ha : 123 ∉ a) (ht : 125 ∉ t) (hne : t ≠ []) :
    hashed (a ++ 123 :: (t ++ 125 :: c)) = t := by
  have hlen : t ≠ t ++ 125 :: c := fun h => by simpa using congrArg List.length h
  simp only [hashed, dropWhile_first ha, takeWhile_first ht, hlen, hne, or_self, if_false]

theorem hashed_whole
    (h : ∀ a t c, key = a ++ 123 :: (t ++ 125 :: c) → 123 ∉ a → 125 ∉ t → t = []) :
    hashed key = key := by
  by_cases h₁ : 123 ∈ key
  · obtain ⟨a, rest, rfl, ha⟩ := List.eq_append_cons_of_mem h₁
    by_cases h₂ : 125 ∈ rest
    · obtain ⟨t, c, rfl, ht⟩ := List.eq_append_cons_of_mem h₂
      obtain rfl := h a t c rfl ha ht
      simp only [hashed, dropWhile_first ha, takeWhile_first (s := c) ht, or_true, if_true]
    · simp only [hashed, dropWhile_first ha, takeWhile_none h₂, true_or, if_true]
  · simp only [hashed, dropWhile_none h₁]

theorem hashTag_iff : HashTag key t ↔ t = hashed key := by
  constructor
  · intro h
    cases h with
    | braces hkey ha ht hne => rw [hkey, hashed_braces ha ht hne]
    | whole h => exact (hashed_whole h).symm
  · rintro rfl
    by_cases h : ∀ a t c, key = a ++ 123 :: (t ++ 125 :: c) → 123 ∉ a → 125 ∉ t → t = []
    · rw [hashed_whole h]
      exact .whole h
    · push Not at h
      obtain ⟨a, t, c, rfl, ha, ht, hne⟩ := h
      rw [hashed_braces ha ht hne]
      exact .braces rfl ha ht hne

end Tag

/-- The slot is that of the specification, up to texts of 2 GB: of a longer one, the check of the
bytes that are read has to be that of all of them. -/
theorem assignKeyslot_eq_iff (key : Str) :
    ∃ tag, (∀ t, HashTag key t ↔ t = tag) ∧
      (assignKeyslot key = (xmodem tag).toNat % 16384 ↔
        tag.length < 2 ^ 31 ∨
        (xmodem (tag.take (hashedLen tag))).toNat % 16384 = (xmodem tag).toNat % 16384) := by
  refine ⟨hashed key, fun t => hashTag_iff, ?_⟩
  rw [assignKeyslot_hashed, crc16_slot]
  constructor
  · exact .inr
  · rintro (hlen | h)
    · rw [hashedLen_eq hlen, List.take_length]
    · exact h

/-- The example of the specification, and the key of its test. -/
example : assignKeyslot (ascii "123456789".toList) = 0x31c3 ∧
    assignKeyslot (ascii "foo{}{bar}".toList) =
      (xmodem (ascii "foo{}{bar}".toList)).toNat % 16384 := by decide +kernel

theorem xmodem_replicate (n : Nat) : xmodem (List.replicate n 0) = 0 := by
  unfold xmodem Crc.crc
  rw [List.map_replicate]
  induction n with
  | zero => rfl
  | succ n ih =>
    rw [List.replicate_succ, List.foldl_cons]
    exact ih

theorem slot_zeros {n : Nat} (h : hashedLen (List.replicate n 0 ++ [1]) = 0) :
    ∃ tag, HashTag (List.replicate n 0 ++ [1]) tag ∧
      assignKeyslot (List.replicate n 0 ++ [1]) ≠ (xmodem tag).toNat % 16384 := by
  have hmem : 123 ∉ List.replicate n 0 ++ [(1 : UInt8)] := by
    rw [List.mem_append, List.mem_singleton]
    rintro (hb | hb)
    · exact absurd (List.eq_of_mem_replicate hb) (by decide)
    · exact absurd hb (by decide)
  have htag : HashTag (List.replicate n 0 ++ [1]) (List.replicate n 0 ++ [1]) :=
    .whole fun a t c he _ _ => absurd (by rw [he]; simp) hmem
  have hfull : xmodem (List.replicate n 0 ++ [1]) = 0x1021#16 := by
    have hz := xmodem_replicate n
    unfold xmodem Crc.crc at hz ⊢
    rw [List.map_append, List.foldl_append, hz]
    decide
  refine ⟨_, htag, ?_⟩
  rw [assignKeyslot_hashed, ← hashTag_iff.1 htag, crc16_slot, h, hfull, List.take_zero]
  decide

/-- 2 GB of zeros and a one. -/
theorem not_slot_of_long : ∃ tag, HashTag (List.replicate (2 ^ 31) 0 ++ [1]) tag ∧
    assignKeyslot (List.replicate (2 ^ 31) 0 ++ [1]) ≠ (xmodem tag).toNat % 16384 := by
  refine slot_zeros ?_
  unfold hashedLen
  rw [List.length_append, List.length_replicate]
  decide

end Okws.Redis

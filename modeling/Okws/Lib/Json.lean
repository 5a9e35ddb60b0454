import Mathlib.Tactic.Common

/-! String literals of JSON, as bytes. -/

namespace Okws.Lib.Json

abbrev Bytes := List UInt8

def utf8 (cs : List Char) : Bytes := cs.flatMap String.utf8EncodeChar

def hexDigit (b : UInt8) : Option Nat :=
  if 48 ≤ b ∧ b ≤ 57 then some (b.toNat - 48)
  else if 65 ≤ b ∧ b ≤ 70 then some (b.toNat - 55)
  else if 97 ≤ b ∧ b ≤ 102 then some (b.toNat - 87)
  else none

def hex4 (a b c d : UInt8) : Option Nat := do
  return (((← hexDigit a) * 16 + (← hexDigit b)) * 16 + (← hexDigit c)) * 16 + (← hexDigit d)

def unescape (b : UInt8) : Option UInt8 :=
  if b = 34 ∨ b = 92 ∨ b = 47 then some b
  else if b = 98 then some 8
  else if b = 102 then some 12
  else if b = 110 then some 10
  else if b = 114 then some 13
  else if b = 116 then some 9
  else none

def codePoint (v : Nat) : Bytes := String.utf8EncodeChar (Char.ofNat v)

/-- What is behind the opening quotation mark of a literal, decoded. -/
def body : Bytes → Option Bytes
  | [] => none
  | 34 :: t => if t = [] then some [] else none
  | 92 :: 117 :: a :: b :: c :: d :: t => do
    let v ← hex4 a b c d
    if 0xd800 ≤ v ∧ v < 0xdc00 then
      match t with
      | 92 :: 117 :: a :: b :: c :: d :: t => do
        let w ← hex4 a b c d
        if 0xdc00 ≤ w ∧ w < 0xe000 then
          return codePoint (0x10000 + (v - 0xd800) * 0x400 + (w - 0xdc00)) ++ (← body t)
        else none
      | _ => none
    else if 0xdc00 ≤ v ∧ v < 0xe000 then none
    else return codePoint v ++ (← body t)
  | 92 :: b :: t => return (← unescape b) :: (← body t)
  | b :: t => if b < 32 then none else return b :: (← body t)

def string : Bytes → Option Bytes
  | 34 :: t => body t
  | _ => none

/-- The text is a literal, and stands for `s`. -/
def Denotes (text s : Bytes) : Prop := (∃ cs, text = utf8 cs) ∧ string text = some s

example : string [34, 92, 117, 48, 48, 101, 57, 34] = some [195, 169] := by decide

section Steps

attribute [local simp] body

variable {b c a d a' b' c' d' : UInt8} {s t : Bytes} {v w : Nat}

theorem body_plain (h : 32 ≤ b) (h34 : b ≠ 34) (h92 : b ≠ 92) :
    body (b :: t) = (body t).map (b :: ·) := by
  have hlt : ¬ b < 32 := UInt8.not_lt.2 h
  rw [body, if_neg hlt]
  · cases body t <;> rfl
  · exact h34
  · exact fun _ _ _ _ _ h _ => h92 h
  · exact fun _ _ h _ => h92 h

theorem body_control (h : b < 32) : body (b :: t) = none := by
  have h34 : b ≠ 34 := by
    rintro rfl
    exact absurd h (by decide)
  have h92 : b ≠ 92 := by
    rintro rfl
    exact absurd h (by decide)
  rw [body, if_pos h]
  · exact h34
  · exact fun _ _ _ _ _ h _ => h92 h
  · exact fun _ _ h _ => h92 h

theorem body_escape (h : unescape b = some c) : body (92 :: b :: t) = (body t).map (c :: ·) := by
  have h117 : b ≠ 117 := by
    rintro rfl
    cases h
  rw [body, h]
  · cases body t <;> rfl
  · exact fun _ _ _ _ _ h _ => h117 h

theorem body_hex (h : hex4 a b c d = some v) (hv : ¬ (0xd800 ≤ v ∧ v < 0xe000)) :
    body (92 :: 117 :: a :: b :: c :: d :: t) = (body t).map (codePoint v ++ ·) := by
  rw [body, h]
  dsimp only [bind, Option.bind]
  rw [if_neg (by omega), if_neg (by omega)]
  cases body t <;> rfl

theorem body_pair (h : hex4 a b c d = some v) (hv : 0xd800 ≤ v ∧ v < 0xdc00)
    (h' : hex4 a' b' c' d' = some w) (hw : 0xdc00 ≤ w ∧ w < 0xe000) :
    body (92 :: 117 :: a :: b :: c :: d :: 92 :: 117 :: a' :: b' :: c' :: d' :: t) =
      (body t).map (codePoint (0x10000 + (v - 0xd800) * 0x400 + (w - 0xdc00)) ++ ·) := by
  rw [body, h]
  dsimp only [bind, Option.bind]
  rw [if_pos hv]
  split
  · next heq =>
    cases heq
    rw [h']
    dsimp only
    rw [if_pos hw]
    cases body t <;> rfl
  · next hne => exact absurd rfl (hne a' b' c' d' t)

end Steps

section Utf8

theorem utf8_append (cs ds : List Char) : utf8 (cs ++ ds) = utf8 cs ++ utf8 ds :=
  List.flatMap_append

theorem utf8_cons (c : Char) (cs : List Char) :
    utf8 (c :: cs) = String.utf8EncodeChar c ++ utf8 cs :=
  rfl

theorem utf8EncodeChar_cases (c : Char) :
    c.toNat < 128 ∧ String.utf8EncodeChar c = [UInt8.ofNat c.toNat] ∨
      128 ≤ c.toNat ∧ ∀ b ∈ String.utf8EncodeChar c, 128 ≤ b := by
  have high (n : Nat) (h : 128 ≤ n) (h' : n < 256) : 128 ≤ UInt8.ofNat n := by
    rw [UInt8.le_iff_toNat_le, UInt8.toNat_ofNat_of_lt' h']
    exact h
  have hval : c.toNat = c.val.toNat := rfl
  unfold String.utf8EncodeChar
  dsimp only
  rw [hval]
  split_ifs with h1 h2 h3
  · exact .inl ⟨by omega, rfl⟩
  · refine .inr ⟨by omega, List.forall_mem_cons.2 ⟨?_, List.forall_mem_singleton.2 ?_⟩⟩
    all_goals exact high _ (by omega) (by omega)
  · refine .inr ⟨by omega, List.forall_mem_cons.2 ⟨?_, List.forall_mem_cons.2 ⟨?_,
      List.forall_mem_singleton.2 ?_⟩⟩⟩
    all_goals exact high _ (by omega) (by omega)
  · refine .inr ⟨by omega, List.forall_mem_cons.2 ⟨?_, List.forall_mem_cons.2 ⟨?_,
      List.forall_mem_cons.2 ⟨?_, List.forall_mem_singleton.2 ?_⟩⟩⟩⟩
    all_goals exact high _ (by omega) (by omega)

theorem utf8_ascii {s : Bytes} (h : ∀ b ∈ s, b < 128) :
    s = utf8 (s.map fun b => Char.ofNat b.toNat) := by
  induction s with
  | nil => rfl
  | cons b s ih =>
    obtain ⟨hb, hs⟩ := List.forall_mem_cons.1 h
    have hlt : b.toNat < 128 := UInt8.lt_iff_toNat_lt.1 hb
    have hval : (Char.ofNat b.toNat).toNat = b.toNat := by
      rw [Char.ofNat, dif_pos (.inl (by omega))]
      rfl
    rw [List.map_cons, utf8_cons, ← ih hs]
    obtain ⟨-, henc⟩ | ⟨hge, -⟩ := utf8EncodeChar_cases (Char.ofNat b.toNat)
    · rw [henc, hval, UInt8.ofNat_toNat]
      rfl
    · omega

theorem codePoint_toNat (c : Char) : codePoint c.toNat = String.utf8EncodeChar c := by
  rw [codePoint, Char.ofNat_toNat]

end Utf8

end Okws.Lib.Json

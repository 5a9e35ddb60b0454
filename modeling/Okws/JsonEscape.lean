import Mathlib.Data.List.TakeWhile
import Okws.Byte
import Okws.Lib.Json

namespace Okws.JsonEscape

open Lib

def findNonStdChar (s : Str) : Bool := s.any fun b => b ≤ 0x1f || 0x7f < b

/-- The output buffer of `json_escape_heavy`, up to `outp`. -/
structure Buf where
  out : Str := []
  room : Nat

namespace Buf

def put (b : Buf) (c : UInt8) : Buf := { out := b.out ++ [c], room := b.room - 1 }

/-- `snprintf`, behind which `outp` is moved by the length of the whole text. -/
def snprintf (b : Buf) (text : Str) : Buf where
  out := b.out ++ if text.length < b.room then text
    else text.take (b.room - 1) ++ List.replicate (text.length - (b.room - 1)) 0
  room := b.room - text.length

def hexChar (n : Nat) : UInt8 := if n < 10 then .ofNat (48 + n) else .ofNat (87 + n)

/-- `\u%04x` for a number of 16 bits. -/
def u04x (v : Nat) : Str :=
  [92, 117, hexChar (v / 4096), hexChar (v / 256 % 16), hexChar (v / 16 % 16), hexChar (v % 16)]

def wchar (b : Buf) (inp : Nat) : Buf :=
  if 0x10ffff < inp then b
  else if 0xffff < inp then
    let ch := inp - 0x10000
    b.snprintf (u04x (ch / 1024 + 0xd800) ++ u04x (ch % 1024 + 0xdc00))
  else if inp = 10 then b.snprintf (ascii "\\n".toList)
  else if inp = 9 then b.snprintf (ascii "\\t".toList)
  else if inp = 13 then b.snprintf (ascii "\\r".toList)
  else if inp = 92 then b.snprintf (ascii "\\\\".toList)
  else if inp = 34 then b.snprintf (ascii "\\\"".toList)
  else if 0x7f < inp ∨ inp ≤ 0x1f then b.snprintf (u04x inp)
  else b.put (.ofNat inp)

end Buf

/-- `json_escape_heavy`; `wide` is what `wide_str_t` makes of a text. -/
def jsonEscapeHeavy (wide : Str → List Nat) (s : Str) (addq : Bool) : Str :=
  let ws := wide s
  let b : Buf := { room := 12 * ws.length + 3 }
  let b := if addq then b.put 34 else b
  let b := ws.foldl Buf.wchar b
  (if addq then b.put 34 else b).out

/-- The characters that `strpbrk` looks for. -/
def isSpecial (b : UInt8) : Bool := b ∈ [92, 34, 10, 9, 13]

/-- What is before the first special character, that character, and the rest. -/
def strpbrk (t : Str) : Option (Str × UInt8 × Str) :=
  match t.dropWhile (!isSpecial ·) with
  | c :: r => some (t.takeWhile (!isSpecial ·), c, r)
  | [] => none

theorem strpbrk_some {t p r : Str} {c : UInt8} (h : strpbrk t = some (p, c, r)) :
    t = p ++ c :: r ∧ isSpecial c = true ∧ ∀ b ∈ p, isSpecial b = false := by
  unfold strpbrk at h
  split at h
  · next c' r' hd =>
    cases h
    have hc := List.dropWhile_get_zero_not (!isSpecial ·) t (by rw [hd]; exact Nat.succ_pos _)
    refine ⟨by rw [← hd, List.takeWhile_append_dropWhile], ?_, fun b hb => ?_⟩
    · simpa [hd] using hc
    · simpa using List.mem_takeWhile_imp hb
  · cases h

theorem strpbrk_none {t : Str} (h : strpbrk t = none) : ∀ b ∈ t, isSpecial b = false := by
  unfold strpbrk at h
  split at h
  · cases h
  · next hd => simpa using List.dropWhile_eq_nil_iff.1 hd

/-- What stands for a special character behind a backslash. -/
def letter (c : UInt8) : UInt8 :=
  if c = 10 then 110 else if c = 9 then 116 else if c = 13 then 114 else c

/-- The loop of `json_escape_std`: what is left at `p1`, and what has been written. -/
def stdLoop (p1 dp : Str) : Str × Str :=
  match _h : strpbrk p1 with
  | some (span, c, rest) => stdLoop rest (dp ++ span ++ [92, letter c])
  | none => (p1, dp)
termination_by p1.length
decreasing_by
  rw [(strpbrk_some _h).1]
  simp only [List.length_append, List.length_cons]
  omega

/-- `json_escape_std`; nothing if the length of the rest is negative as an `int`. -/
def jsonEscapeStd (s : Str) (addq : Bool) : Option Str :=
  let dp := if addq then [34] else []
  let (p1, dp) := stdLoop (cstr s) dp
  let len := (p1.length : Int).bmod (2 ^ 32)
  if len < 0 then none
  else
    let dp := dp ++ p1.take len.toNat
    some (if addq then dp ++ [34] else dp)

def jsonEscape (wide : Str → List Nat) (s : Str) (addq utf8 : Bool) : Option Str :=
  if !findNonStdChar s || utf8 then jsonEscapeStd s addq
  else some (jsonEscapeHeavy wide s addq)

section Std

def stdChar (b : UInt8) : Str := if isSpecial b then [92, letter b] else [b]

def stdText (s : Str) : Str := s.flatMap stdChar

def lastRun (s : Str) : Str := (s.reverse.takeWhile (!isSpecial ·)).reverse

variable {s t p dp : Str} {b c : UInt8}

theorem stdText_append (s t : Str) : stdText (s ++ t) = stdText s ++ stdText t :=
  List.flatMap_append

theorem stdText_cons (b : UInt8) (s : Str) : stdText (b :: s) = stdChar b ++ stdText s := rfl

theorem stdText_plain (h : ∀ b ∈ s, isSpecial b = false) : stdText s = s := by
  induction s with
  | nil => rfl
  | cons b s ih =>
    obtain ⟨hb, hs⟩ := List.forall_mem_cons.1 h
    rw [stdText_cons, ih hs, stdChar, hb]
    rfl

theorem lastRun_plain (h : ∀ b ∈ s, isSpecial b = false) : lastRun s = s := by
  rw [lastRun, List.takeWhile_eq_self_iff.2, List.reverse_reverse]
  intro b hb
  rw [h b (List.mem_reverse.1 hb)]
  rfl

theorem lastRun_special (hc : isSpecial c = true) : lastRun (p ++ c :: t) = lastRun t := by
  have hstop : (c :: p.reverse).takeWhile (!isSpecial ·) = [] := by simp [hc]
  have hrev : (p ++ c :: t).reverse = t.reverse ++ c :: p.reverse := by simp
  rw [lastRun, hrev, List.takeWhile_append, hstop, List.append_nil]
  split
  · next h => rw [lastRun, (List.takeWhile_prefix _).eq_of_length h]
  · rfl

theorem stdLoop_eq (t dp : Str) :
    ∃ q, t = q ++ lastRun t ∧ stdLoop t dp = (lastRun t, dp ++ stdText q) := by
  fun_induction stdLoop t dp with
  | case1 t dp span c rest h ih =>
    obtain ⟨q, hq, heq⟩ := ih
    obtain ⟨ht, hc, hspan⟩ := strpbrk_some h
    rw [ht, lastRun_special hc]
    refine ⟨span ++ c :: q, by rw [List.append_assoc, List.cons_append, ← hq], ?_⟩
    rw [heq, stdText_append, stdText_plain hspan, stdText_cons, stdChar, if_pos hc]
    simp only [List.append_assoc]
  | case2 t dp h =>
    rw [lastRun_plain (strpbrk_none h)]
    exact ⟨[], rfl, by rw [stdText, List.flatMap_nil, List.append_nil]⟩

/-- The characters that may stand in a literal once those that are special are escaped. -/
def Clean (s : Str) : Prop := ∀ b ∈ s, b < 32 → b ∈ [10, 9, 13]

theorem body_stdChar (b : UInt8) (t : Str) : Json.body (stdChar b ++ t) =
    if b < 32 ∧ b ∉ [10, 9, 13] then none else (Json.body t).map (b :: ·) := by
  unfold stdChar
  by_cases hb : isSpecial b
  · rw [if_pos hb]
    have hmem : b ∈ [92, 34, 10, 9, 13] := of_decide_eq_true hb
    have hesc : Json.unescape (letter b) = some b ∧ ¬ (b < 32 ∧ b ∉ [10, 9, 13]) := by
      simp only [List.mem_cons, List.not_mem_nil, or_false] at hmem
      obtain rfl | rfl | rfl | rfl | rfl := hmem <;> decide
    rw [if_neg hesc.2]
    exact Json.body_escape hesc.1
  · rw [if_neg hb]
    have hmem : b ∉ [92, 34, 10, 9, 13] := fun h => hb (decide_eq_true h)
    simp only [List.mem_cons, List.not_mem_nil, or_false, not_or] at hmem
    obtain ⟨h92, h34, h10, h9, h13⟩ := hmem
    by_cases hlt : b < 32
    · have hnot : b ∉ [10, 9, 13] := by simp [h10, h9, h13]
      rw [if_pos ⟨hlt, hnot⟩]
      exact Json.body_control hlt
    · rw [if_neg fun h => hlt h.1]
      exact Json.body_plain (UInt8.not_lt.1 hlt) h34 h92

theorem body_stdText (s t : Str) : Json.body (stdText s ++ [34]) = some t ↔ t = s ∧ Clean s := by
  induction s generalizing t with
  | nil =>
    have hbody : Json.body (stdText [] ++ [34]) = some [] := by decide
    rw [hbody, Option.some_inj]
    exact ⟨fun h => ⟨h.symm, nofun⟩, fun h => h.1.symm⟩
  | cons b s ih =>
    have hcons : Clean (b :: s) ↔ (b < 32 → b ∈ [10, 9, 13]) ∧ Clean s := List.forall_mem_cons
    rw [stdText_cons, List.append_assoc, body_stdChar, hcons]
    by_cases hb : b < 32 ∧ b ∉ [10, 9, 13]
    · rw [if_pos hb]
      exact iff_of_false nofun fun h => hb.2 (h.2.1 hb.1)
    · rw [if_neg hb, Option.map_eq_some_iff]
      constructor
      · rintro ⟨u, hu, rfl⟩
        obtain ⟨rfl, hclean⟩ := (ih u).1 hu
        exact ⟨rfl, fun hlt => by_contra fun hmem => hb ⟨hlt, hmem⟩, hclean⟩
      · rintro ⟨rfl, -, hclean⟩
        exact ⟨s, (ih s).2 ⟨rfl, hclean⟩, rfl⟩

theorem stdChar_ascii (h : b < 128) : ∀ x ∈ stdChar b, x < 128 := by
  unfold stdChar
  split
  · refine List.forall_mem_cons.2 ⟨by decide, List.forall_mem_singleton.2 ?_⟩
    unfold letter
    split_ifs
    · decide
    · decide
    · decide
    · exact h
  · exact List.forall_mem_singleton.2 h

theorem isSpecial_high (h : 128 ≤ b) : isSpecial b = false := by
  refine decide_eq_false fun hmem => ?_
  simp only [List.mem_cons, List.not_mem_nil, or_false] at hmem
  obtain rfl | rfl | rfl | rfl | rfl := hmem <;> exact absurd h (by decide)

theorem stdText_utf8 (cs : List Char) : ∃ ds, stdText (Json.utf8 cs) = Json.utf8 ds := by
  induction cs with
  | nil => exact ⟨[], rfl⟩
  | cons c cs ih =>
    obtain ⟨ds, hds⟩ := ih
    rw [Json.utf8_cons, stdText_append, hds]
    obtain ⟨hlt, henc⟩ | ⟨-, hhigh⟩ := Json.utf8EncodeChar_cases c
    · have hascii : ∀ b ∈ stdText (String.utf8EncodeChar c), b < 128 := by
        rw [henc, stdText, List.flatMap_singleton]
        refine stdChar_ascii ?_
        rw [UInt8.lt_iff_toNat_lt, UInt8.toNat_ofNat_of_lt' (Nat.lt_trans hlt (by decide))]
        exact hlt
      exact ⟨_, (congrArg (· ++ _) (Json.utf8_ascii hascii)).trans (Json.utf8_append _ ds).symm⟩
    · have hplain : ∀ b ∈ String.utf8EncodeChar c, isSpecial b = false :=
        fun b hb => isSpecial_high (hhigh b hb)
      rw [stdText_plain hplain]
      exact ⟨c :: ds, rfl⟩

theorem quoted_utf8 (cs : List Char) :
    ∃ ds, 34 :: stdText (Json.utf8 cs) ++ [34] = Json.utf8 ds := by
  obtain ⟨ds, hds⟩ := stdText_utf8 cs
  refine ⟨[Char.ofNat 34] ++ ds ++ [Char.ofNat 34], ?_⟩
  rw [Json.utf8_append, Json.utf8_append, ← hds]
  rfl

theorem cstr_of_clean (h : Clean s) : cstr s = s := by
  refine List.takeWhile_eq_self_iff.2 fun b hb => decide_eq_true ?_
  rintro rfl
  exact absurd (h 0 hb (by decide)) (by decide)

theorem jsonEscapeStd_eq (s : Str) : ∃ q, cstr s = q ++ lastRun (cstr s) ∧
    jsonEscapeStd s true =
      if ((lastRun (cstr s)).length : Int).bmod (2 ^ 32) < 0 then none
      else some (34 :: stdText (q ++ (lastRun (cstr s)).take
        (((lastRun (cstr s)).length : Int).bmod (2 ^ 32)).toNat) ++ [34]) := by
  obtain ⟨q, hq, hloop⟩ := stdLoop_eq (cstr s) [34]
  refine ⟨q, hq, ?_⟩
  have hrun : ∀ n, stdText ((lastRun (cstr s)).take n) = (lastRun (cstr s)).take n := by
    intro n
    refine stdText_plain fun b hb => ?_
    have := List.mem_takeWhile_imp (List.mem_reverse.1 (List.mem_of_mem_take hb))
    simpa using this
  unfold jsonEscapeStd
  simp only [if_true, hloop]
  split
  · rfl
  · rw [stdText_append, hrun]
    simp only [List.cons_append, List.nil_append, List.append_assoc]

theorem std_iff (cs : List Char) :
    (∃ text, jsonEscapeStd (Json.utf8 cs) true = some text ∧ Json.Denotes text (Json.utf8 cs)) ↔
      Clean (Json.utf8 cs) ∧ (lastRun (Json.utf8 cs)).length < 2 ^ 31 := by
  obtain ⟨q, hq, hstd⟩ := jsonEscapeStd_eq (Json.utf8 cs)
  rw [hstd]
  constructor
  · rintro ⟨text, htext, -, hdec⟩
    split at htext
    · cases htext
    · next hlen =>
      cases htext
      obtain ⟨heq, hclean⟩ := (body_stdText _ _).1 hdec
      have hclean : Clean (Json.utf8 cs) := heq ▸ hclean
      refine ⟨hclean, ?_⟩
      rw [cstr_of_clean hclean] at hq heq
      have hle := congrArg List.length (hq.symm.trans heq)
      rw [List.length_append, List.length_append, List.length_take] at hle
      have hmax := Int.bmod_lt (x := (lastRun (Json.utf8 cs)).length) (m := 2 ^ 32) (by decide)
      omega
  · rintro ⟨hclean, hlt⟩
    have hcstr := cstr_of_clean hclean
    rw [hcstr] at hq ⊢
    have hlen : ((lastRun (Json.utf8 cs)).length : Int).bmod (2 ^ 32) =
        (lastRun (Json.utf8 cs)).length :=
      Int.bmod_eq_of_le (by omega) (by omega)
    rw [hlen, if_neg (by omega), Int.toNat_natCast, List.take_length, ← hq]
    exact ⟨_, rfl, quoted_utf8 cs, (body_stdText _ _).2 ⟨rfl, hclean⟩⟩

end Std

section Heavy

open Buf

variable {c : Char} {b : Buf} {v : Nat}

def heavyChar (inp : Nat) : Str :=
  if 0xffff < inp then
    u04x ((inp - 0x10000) / 1024 + 0xd800) ++ u04x ((inp - 0x10000) % 1024 + 0xdc00)
  else if inp = 10 then [92, 110]
  else if inp = 9 then [92, 116]
  else if inp = 13 then [92, 114]
  else if inp = 92 then [92, 92]
  else if inp = 34 then [92, 34]
  else if 0x7f < inp ∨ inp ≤ 0x1f then u04x inp
  else [.ofNat inp]

theorem hexDigit_hexChar : ∀ n < 16, Json.hexDigit (hexChar n) = some n ∧ hexChar n < 128 := by
  decide

theorem hex4_u04x (h : v < 2 ^ 16) : Json.hex4 (hexChar (v / 4096)) (hexChar (v / 256 % 16))
    (hexChar (v / 16 % 16)) (hexChar (v % 16)) = some v := by
  unfold Json.hex4
  rw [(hexDigit_hexChar _ (by omega)).1, (hexDigit_hexChar _ (by omega)).1,
    (hexDigit_hexChar _ (by omega)).1, (hexDigit_hexChar _ (by omega)).1]
  exact congrArg some (by omega)

theorem u04x_ascii (h : v < 2 ^ 16) : ∀ x ∈ u04x v, x < 128 := by
  have hhex (n : Nat) (h : n < 16) := (hexDigit_hexChar n h).2
  refine List.forall_mem_cons.2 ⟨by decide, List.forall_mem_cons.2 ⟨by decide,
    List.forall_mem_cons.2 ⟨hhex _ (by omega), List.forall_mem_cons.2 ⟨hhex _ (by omega),
    List.forall_mem_cons.2 ⟨hhex _ (by omega), List.forall_mem_singleton.2 (hhex _ (by omega))⟩⟩⟩⟩⟩

theorem toNat_range (c : Char) : c.toNat < 0xd800 ∨ 0xe000 ≤ c.toNat ∧ c.toNat < 0x110000 := by
  obtain h | ⟨h, h'⟩ := c.valid
  · exact .inl h
  · exact .inr ⟨h, h'⟩

theorem heavyChar_ascii (c : Char) : ∀ x ∈ heavyChar c.toNat, x < 128 := by
  have hrange := toNat_range c
  have hpair {a b : UInt8} (ha : a < 128) (hb : b < 128) : ∀ x ∈ [a, b], x < 128 :=
    List.forall_mem_cons.2 ⟨ha, List.forall_mem_singleton.2 hb⟩
  unfold heavyChar
  split_ifs with hbig h10 h9 h13 h92 h34 hu
  · intro x hx
    obtain hx | hx := List.mem_append.1 hx
    · exact u04x_ascii (by omega) x hx
    · exact u04x_ascii (by omega) x hx
  · exact hpair (by decide) (by decide)
  · exact hpair (by decide) (by decide)
  · exact hpair (by decide) (by decide)
  · exact hpair (by decide) (by decide)
  · exact hpair (by decide) (by decide)
  · exact u04x_ascii (by omega)
  · refine List.forall_mem_singleton.2 ?_
    have hlt : c.toNat < UInt8.size := Nat.lt_of_le_of_lt (m := 127) (by omega) (by decide)
    rw [UInt8.lt_iff_toNat_lt, UInt8.toNat_ofNat_of_lt' hlt]
    exact (by omega : c.toNat < 128)

theorem body_heavyChar (c : Char) (t : Str) : Json.body (heavyChar c.toNat ++ t) =
    (Json.body t).map (String.utf8EncodeChar c ++ ·) := by
  have hrange := toNat_range c
  have hcode := Json.codePoint_toNat c
  have hchar {n : Nat} (h : c.toNat = n) : c = Char.ofNat n := by rw [← h, Char.ofNat_toNat]
  unfold heavyChar
  split_ifs with hbig h10 h9 h13 h92 h34 hu
  · have hpair := Json.body_pair (t := t)
      (hex4_u04x (v := (c.toNat - 0x10000) / 1024 + 0xd800) (by omega)) (by omega)
      (hex4_u04x (v := (c.toNat - 0x10000) % 1024 + 0xdc00) (by omega)) (by omega)
    have hv : 0x10000 + ((c.toNat - 0x10000) / 1024 + 0xd800 - 0xd800) * 0x400 +
        ((c.toNat - 0x10000) % 1024 + 0xdc00 - 0xdc00) = c.toNat := by omega
    rw [hv, hcode] at hpair
    exact hpair
  · rw [hchar h10]
    exact Json.body_escape rfl
  · rw [hchar h9]
    exact Json.body_escape rfl
  · rw [hchar h13]
    exact Json.body_escape rfl
  · rw [hchar h92]
    exact Json.body_escape rfl
  · rw [hchar h34]
    exact Json.body_escape rfl
  · have hhex := Json.body_hex (t := t) (hex4_u04x (v := c.toNat) (by omega)) (by omega)
    rw [hcode] at hhex
    exact hhex
  · obtain ⟨hlt, henc⟩ | ⟨hge, -⟩ := Json.utf8EncodeChar_cases c
    · rw [henc]
      have hval : (UInt8.ofNat c.toNat).toNat = c.toNat :=
        UInt8.toNat_ofNat_of_lt' (Nat.lt_trans hlt (by decide))
      have hne {n : Nat} (h : c.toNat ≠ n) (hn : n < 256) : UInt8.ofNat c.toNat ≠ .ofNat n := by
        intro heq
        have := congrArg UInt8.toNat heq
        rw [hval, UInt8.toNat_ofNat_of_lt' hn] at this
        exact h this
      refine Json.body_plain ?_ (hne h34 (by decide)) (hne h92 (by decide))
      rw [UInt8.le_iff_toNat_le, hval]
      exact (by omega : 32 ≤ c.toNat)
    · omega

theorem snprintf_eq {text : Str} (h : text.length < b.room) :
    (b.snprintf text).out = b.out ++ text ∧ (b.snprintf text).room = b.room - text.length := by
  rw [snprintf]
  exact ⟨congrArg (b.out ++ ·) (if_pos h), rfl⟩

theorem wchar_eq (c : Char) (hroom : 12 < b.room) :
    (b.wchar c.toNat).out = b.out ++ heavyChar c.toNat ∧ b.room ≤ (b.wchar c.toNat).room + 12 := by
  have hrange := toNat_range c
  have hprint (text : Str) (h : text.length ≤ 12) : (b.snprintf text).out = b.out ++ text ∧
      b.room ≤ (b.snprintf text).room + 12 := by
    have hlt : text.length < b.room := by omega
    obtain ⟨hout, hroom'⟩ := snprintf_eq hlt
    exact ⟨hout, by omega⟩
  unfold wchar heavyChar
  rw [if_neg (by omega)]
  split_ifs
  · exact hprint _ (Nat.le_refl 12)
  · exact hprint _ (by decide)
  · exact hprint _ (by decide)
  · exact hprint _ (by decide)
  · exact hprint _ (by decide)
  · exact hprint _ (by decide)
  · exact hprint _ (by decide : 6 ≤ 12)
  · exact ⟨rfl, (by omega : b.room ≤ b.room - 1 + 12)⟩

theorem foldl_wchar (cs : List Char) (hroom : 12 * cs.length < b.room) :
    ((cs.map Char.toNat).foldl wchar b).out = b.out ++ cs.flatMap fun c => heavyChar c.toNat := by
  induction cs generalizing b with
  | nil => exact (List.append_nil _).symm
  | cons c cs ih =>
    rw [List.length_cons] at hroom
    obtain ⟨hout, hleft⟩ := wchar_eq c (b := b) (by omega)
    rw [List.map_cons, List.foldl_cons, ih (by omega), hout, List.flatMap_cons, List.append_assoc]

theorem body_heavy (cs : List Char) :
    Json.body ((cs.flatMap fun c => heavyChar c.toNat) ++ [34]) = some (Json.utf8 cs) := by
  induction cs with
  | nil => rfl
  | cons c cs ih =>
    rw [List.flatMap_cons, List.append_assoc, body_heavyChar, ih]
    rfl

/-- `wide_str_t` decodes UTF-8. -/
def Decodes (wide : Str → List Nat) : Prop := ∀ cs, wide (Json.utf8 cs) = cs.map Char.toNat

variable {wide : Str → List Nat}

theorem heavy_denotes (hwide : Decodes wide) (cs : List Char) :
    Json.Denotes (jsonEscapeHeavy wide (Json.utf8 cs) true) (Json.utf8 cs) := by
  have hout : jsonEscapeHeavy wide (Json.utf8 cs) true =
      34 :: (cs.flatMap fun c => heavyChar c.toNat) ++ [34] := by
    unfold jsonEscapeHeavy
    rw [hwide]
    have hfold := foldl_wchar (b := put { room := 12 * (cs.map Char.toNat).length + 3 } 34) cs
      (by simp only [put, List.length_map]; omega)
    exact congrArg (· ++ [34]) hfold
  rw [hout]
  refine ⟨⟨_, Json.utf8_ascii fun x hx => ?_⟩, body_heavy cs⟩
  obtain hx | hx := List.mem_append.1 hx
  · obtain rfl | hx := List.mem_cons.1 hx
    · decide
    · obtain ⟨c, -, hc⟩ := List.mem_flatMap.1 hx
      exact heavyChar_ascii c x hc
  · rw [List.mem_singleton.1 hx]
    decide

end Heavy

def Faithful (wide : Str → List Nat) (s : Str) (utf8 : Bool) : Prop :=
  ∃ text, jsonEscape wide s true utf8 = some text ∧ Json.Denotes text s

theorem clean_of_std {s : Str} (h : findNonStdChar s = false) : Clean s := by
  intro b hb hlt
  have := List.any_eq_false.1 h b hb
  simp only [Bool.or_eq_true, decide_eq_true_eq, not_or, UInt8.not_le] at this
  rw [UInt8.lt_iff_toNat_lt] at hlt this
  have : 31 < b.toNat := this.1
  exact absurd hlt (Nat.not_lt.2 this)

theorem jsonEscape_faithful_iff {wide : Str → List Nat} (hwide : Decodes wide) (cs : List Char)
    (utf8 : Bool) :
    Faithful wide (Json.utf8 cs) utf8 ↔ (utf8 = true → Clean (Json.utf8 cs)) ∧
      (utf8 = true ∨ findNonStdChar (Json.utf8 cs) = false →
        (lastRun (Json.utf8 cs)).length < 2 ^ 31) := by
  unfold Faithful jsonEscape
  by_cases h : utf8 = true ∨ findNonStdChar (Json.utf8 cs) = false
  · have hstd : (!findNonStdChar (Json.utf8 cs) || utf8) = true := by
      obtain h | h := h <;> simp [h]
    rw [if_pos hstd, std_iff]
    refine and_congr ⟨fun hc _ => hc, fun hc => ?_⟩ ⟨fun hlen _ => hlen, fun hlen => hlen h⟩
    obtain h | h := h
    · exact hc h
    · exact clean_of_std h
  · have hheavy : ¬ (!findNonStdChar (Json.utf8 cs) || utf8) = true := by
      simpa [and_comm] using h
    rw [if_neg hheavy]
    exact iff_of_true ⟨_, rfl, heavy_denotes hwide cs⟩
      ⟨fun hu => absurd (.inl hu) h, fun hc => absurd hc h⟩

theorem jsonEscape_plain {wide : Str → List Nat} {s : Str} {utf8 : Bool}
    (hstd : findNonStdChar s = false) (hs : ∀ b ∈ s, isSpecial b = false)
    (hlen : s.length < 2 ^ 31) : jsonEscape wide s true utf8 = some (34 :: s ++ [34]) := by
  have hcstr := cstr_of_clean (clean_of_std hstd)
  obtain ⟨q, hq, heq⟩ := jsonEscapeStd_eq s
  rw [hcstr, lastRun_plain hs] at hq heq
  have hbmod : (s.length : Int).bmod (2 ^ 32) = s.length := Int.bmod_eq_of_le (by omega) (by omega)
  obtain rfl : q = [] := List.append_left_eq_self.1 hq.symm
  rw [hbmod, if_neg (by omega), Int.toNat_natCast, List.take_length, List.nil_append,
    stdText_plain hs] at heq
  rw [jsonEscape, hstd, Bool.not_false, Bool.true_or, if_pos rfl, heq]

theorem string_plain {s : Str} (hstd : findNonStdChar s = false)
    (hs : ∀ b ∈ s, isSpecial b = false) : Json.string (34 :: s ++ [34]) = some s := by
  have hbody := (body_stdText s s).2 ⟨rfl, clean_of_std hstd⟩
  rwa [stdText_plain hs] at hbody

/-- What `wide_str_t` gives on texts in UTF-8. -/
def wideStr (s : Str) : List Nat :=
  (s.toByteArray.utf8Decode?.getD #[]).toList.map Char.toNat

theorem decodes_wideStr : Decodes wideStr := by
  intro cs
  have hdec : (Json.utf8 cs).toByteArray.utf8Decode? = some cs.toArray :=
    List.utf8Decode?_utf8Encode
  rw [wideStr, hdec]
  rfl

theorem jsonEscape_faithful_iff_treble :
    Faithful wideStr (Json.utf8 [Char.ofNat 0x1d11e]) false ↔
      (false = true → Clean (Json.utf8 [Char.ofNat 0x1d11e])) ∧
        (false = true ∨ findNonStdChar (Json.utf8 [Char.ofNat 0x1d11e]) = false →
          (lastRun (Json.utf8 [Char.ofNat 0x1d11e])).length < 2 ^ 31) :=
  jsonEscape_faithful_iff decodes_wideStr [Char.ofNat 0x1d11e] false

/-- A control character, which the fast path copies. -/
theorem not_faithful_control : ¬ ∀ wide, Decodes wide → ∀ (cs : List Char) (utf8 : Bool),
    Faithful wide (Json.utf8 cs) utf8 := by
  intro h
  obtain ⟨text, htext, hdenotes⟩ := h wideStr decodes_wideStr [Char.ofNat 1] true
  rw [jsonEscape, if_pos (Bool.or_true _)] at htext
  have hstd := (std_iff [Char.ofNat 1]).1 ⟨text, htext, hdenotes⟩
  exact absurd (hstd.1 1 (by decide) (by decide)) (by decide)

end Okws.JsonEscape

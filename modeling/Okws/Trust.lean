import Mathlib.Data.List.Basic
import Mathlib.Data.List.Find
import Okws.Child
import Okws.HdrTab

/-! Who a client is, to `okd` and to the service. -/

namespace Okws

open Lib

namespace Hdr

variable {cfg : CloneConfig} {l k u q : Str}

theorem toLower_nul (b : UInt8) : Byte.toLower b = 0 → b = 0 := by
  unfold Byte.toLower
  grind

theorem toLower_colon (b : UInt8) : Byte.toLower b = 58 → b = 58 := by
  unfold Byte.toLower
  grind

theorem isEol_toLower (b : UInt8) : Byte.isEol (Byte.toLower b) = Byte.isEol b := by
  unfold Byte.isEol Byte.toLower Byte.cr Byte.lf
  grind

theorem not_mem_map_toLower {s : Str} {c : UInt8} (hc : ∀ b, Byte.toLower b = c → b = c)
    (h : c ∉ s) :
    c ∉ s.map Byte.toLower := by
  intro hmem
  obtain ⟨b, hb, he⟩ := List.mem_map.1 hmem
  exact h (hc b he ▸ hb)

theorem cstr_eq {s : Str} (h : 0 ∉ s) : cstr s = s := by
  refine List.takeWhile_eq_self_iff.2 fun b hb => ?_
  simp only [ne_eq, decide_not, Bool.not_eq_eq_eq_not, Bool.not_true, decide_eq_false_iff_not]
  exact fun he => h (he ▸ hb)

theorem tolowerS_eq (mem : Nat → UInt8) {s : Str} (h : 0 ∉ s) :
    tolowerS mem s = s.map Byte.toLower := by
  simp [tolowerS, cstr_eq h, fresh]

/-- The value of a field, as `okd` stores it. -/
def okdValue (cfg : CloneConfig) (line : Str) : Str :=
  stripNewlines cfg.mem ((((line.dropWhile (· ≠ 58)).tail ++ crlf).map Byte.toLower).drop 1)

theorem splitHeader_none (hnul : 0 ∉ l) (h : 58 ∉ l) :
    Clone.splitHeader cfg (tolowerS cfg.mem (l ++ crlf)) = none := by
  have hnul' : 0 ∉ l ++ crlf := by simp [hnul, crlf, Byte.cr, Byte.lf]
  have hcolon : 58 ∉ (l ++ crlf).map Byte.toLower :=
    not_mem_map_toLower toLower_colon (by simp [h, crlf, Byte.cr, Byte.lf])
  have hall : ((l ++ crlf).map Byte.toLower).takeWhile (· ≠ 58) = (l ++ crlf).map Byte.toLower := by
    refine List.takeWhile_eq_self_iff.2 fun b hb => ?_
    simp only [decide_eq_true_eq]
    exact fun he => hcolon (he ▸ hb)
  rw [tolowerS_eq _ hnul', Clone.splitHeader, cstr_eq (not_mem_map_toLower toLower_nul hnul'), hall,
    if_pos rfl]

theorem tolowerS_append (mem : Nat → UInt8) {p : Str} (s : Str) (h : 0 ∉ p) :
    tolowerS mem (p ++ s) = p.map Byte.toLower ++ tolowerS mem s := by
  have hp : ∀ b ∈ p, decide (b ≠ 0) = true := by
    intro b hb
    simp only [decide_eq_true_eq]
    exact fun he => h (he ▸ hb)
  have hlen : p.length + s.length - (p.length + (cstr s).length) = s.length - (cstr s).length := by
    omega
  have hcstr : cstr (p ++ s) = p ++ cstr s := List.takeWhile_append_of_pos hp
  simp only [tolowerS, hcstr, List.map_append, List.length_append, hlen, List.append_assoc]

theorem splitHeader_colon (hnul : 0 ∉ k) (hk : 58 ∉ k) :
    Clone.splitHeader cfg (tolowerS cfg.mem (k ++ 58 :: u ++ crlf)) =
      some (k.map Byte.toLower, stripNewlines cfg.mem ((tolowerS cfg.mem (u ++ crlf)).drop 1)) := by
  have hlow : tolowerS cfg.mem (k ++ 58 :: u ++ crlf) =
      k.map Byte.toLower ++ 58 :: tolowerS cfg.mem (u ++ crlf) := by
    have happ := tolowerS_append cfg.mem (p := k ++ [58]) (u ++ crlf) (by simp [hnul])
    simpa [show Byte.toLower 58 = 58 from rfl] using happ
  have hnul' : ∀ b ∈ k.map Byte.toLower, decide (b ≠ 0) = true := by
    intro b hb
    simp only [decide_eq_true_eq]
    exact fun he => not_mem_map_toLower toLower_nul hnul (he ▸ hb)
  have hk' : ∀ b ∈ k.map Byte.toLower, decide (b ≠ 58) = true := by
    intro b hb
    simp only [decide_eq_true_eq]
    exact fun he => not_mem_map_toLower toLower_colon hk (he ▸ hb)
  have hcstr (x : Str) : cstr (k.map Byte.toLower ++ 58 :: x) =
      k.map Byte.toLower ++ 58 :: cstr x := by
    rw [cstr, List.takeWhile_append_of_pos hnul']
    rfl
  have htake (x : Str) : (k.map Byte.toLower ++ 58 :: x).takeWhile (· ≠ 58) =
      k.map Byte.toLower := by
    rw [List.takeWhile_append_of_pos hk']
    simp
  rw [hlow, Clone.splitHeader, hcstr, htake]
  rw [if_neg (by simp)]
  congr 2
  · exact List.take_left
  · rw [List.drop_append, List.drop_eq_nil_of_le (by omega), Nat.add_sub_cancel_left]
    rfl

theorem splitHeader_some (hnul : 0 ∉ k ++ 58 :: u) (hk : 58 ∉ k) :
    Clone.splitHeader cfg (tolowerS cfg.mem (k ++ 58 :: u ++ crlf)) =
      some (k.map Byte.toLower, okdValue cfg (k ++ 58 :: u)) := by
  have hnul' : 0 ∉ u ++ crlf := by
    rw [List.mem_append]
    rintro (h | h)
    · exact hnul (by simp [h])
    · revert h
      decide
  have hkd : ∀ b ∈ k, decide (b ≠ 58) = true := by
    intro b hb
    simp only [decide_eq_true_eq]
    exact fun he => hk (he ▸ hb)
  have hval : (k ++ 58 :: u).dropWhile (· ≠ 58) = 58 :: u := by
    rw [List.dropWhile_append_of_pos hkd]
    simp
  rw [splitHeader_colon (fun h => hnul (by simp [h])) hk, tolowerS_eq _ hnul', okdValue, hval]
  rfl

theorem addHeader_first (t : PairTab) (hnul : 0 ∉ l) (hq : q ≠ []) :
    (Clone.addHeader cfg t (tolowerS cfg.mem (l ++ crlf))).first q =
      (t.first q).or (if 58 ∈ l ∧ (field l).1 = q then some (okdValue cfg l) else none) := by
  unfold Clone.addHeader
  by_cases h : 58 ∈ l
  · obtain ⟨k, u, rfl, hk⟩ := List.eq_append_cons_of_mem h
    rw [splitHeader_some hnul hk, field_eq hk]
    by_cases hnil : k.map Byte.toLower = []
    · have hne : [] ≠ q := hq.symm
      simp [hnil, PairTab.insert, hne]
    · simp [PairTab.first_insert hnil]
  · rw [splitHeader_none hnul h]
    simp [h]

theorem foldl_first (ls : List Str) (t : PairTab) (hnul : ∀ l ∈ ls, 0 ∉ l)
    (hcolon : ∀ l ∈ ls, 58 ∈ l) (hq : q ≠ []) :
    ((ls.map fun l => tolowerS cfg.mem (l ++ crlf)).foldl (Clone.addHeader cfg) t).first q =
      (t.first q).or ((find q ls).map (okdValue cfg)) := by
  induction ls generalizing t with
  | nil => simp [find]
  | cons l ls ih =>
    rw [List.map_cons, List.foldl_cons, ih _ (fun l hl => hnul l (List.mem_cons_of_mem _ hl))
      (fun l hl => hcolon l (List.mem_cons_of_mem _ hl)),
        addHeader_first t (hnul l List.mem_cons_self) hq]
    have hl := hcolon l List.mem_cons_self
    unfold find
    rw [List.find?_cons]
    by_cases hf : (field l).1 = q
    · cases t.first q <;> simp [hl, hf]
    · simp [hf]

theorem cstr_stripNewlines (mem : Nat → UInt8) {w x : Str} {c : UInt8}
    (hw : ∀ b ∈ w, Byte.isEol b = false)
    (hnul : 0 ∉ w) (hc : Byte.isEol c = true) : cstr (stripNewlines mem (w ++ c :: x)) = w := by
  have hall : ∀ b ∈ w, (!Byte.isEol b) = true := fun b hb => by simp [hw b hb]
  have htake : (w ++ c :: x).takeWhile (!Byte.isEol ·) = w := by
    rw [List.takeWhile_append_of_pos hall, List.takeWhile_cons_of_neg (by simp [hc]),
      List.append_nil]
  unfold stripNewlines
  simp only [htake]
  rw [if_neg (by simp)]
  refine (List.takeWhile_append_of_pos fun b hb => ?_).trans (by simp)
  simp only [decide_eq_true_eq]
  exact fun he => hnul (he ▸ hb)

theorem cstr_okdValue (h : Proper l) (hnul : 0 ∉ l) :
    cstr (okdValue cfg l) = ((field l).2.drop 1).map Byte.toLower := by
  obtain ⟨k, raw, e, rfl, hk, hraw, he⟩ := h
  have hkd : ∀ b ∈ k, decide (b ≠ 58) = true := by
    intro b hb
    simp only [decide_eq_true_eq]
    exact fun hb' => hk (hb' ▸ hb)
  have hval : (k ++ 58 :: (raw ++ e)).dropWhile (· ≠ 58) = 58 :: (raw ++ e) := by
    rw [List.dropWhile_append_of_pos hkd]
    simp
  have hraw0 : 0 ∉ raw := fun h => hnul (by simp [h])
  rw [field_proper hk hraw he, okdValue, hval]
  cases raw with
  | nil => obtain rfl | rfl := he <;> rfl
  | cons b raw =>
    have hend : ∃ c x, (e ++ crlf).map Byte.toLower = c :: x ∧ Byte.isEol c = true := by
      obtain rfl | rfl := he
      · exact ⟨Byte.cr, [Byte.lf], rfl, rfl⟩
      · exact ⟨Byte.cr, crlf, rfl, rfl⟩
    obtain ⟨c, x, hcx, hc⟩ := hend
    have hmap : (((b :: raw ++ e) ++ crlf).map Byte.toLower).drop 1 = raw.map Byte.toLower ++
        c :: x := by
      rw [← hcx]
      simp
    simp only [List.tail_cons, hmap, List.drop_succ_cons, List.drop_zero]
    refine cstr_stripNewlines cfg.mem (fun b' hb' => ?_) (not_mem_map_toLower toLower_nul ?_) hc
    · obtain ⟨b'', hb'', rfl⟩ := List.mem_map.1 hb'
      rw [isEol_toLower]
      exact hraw b'' (List.mem_cons_of_mem b hb'')
    · exact fun h => hraw0 (List.mem_cons_of_mem b h)

variable (cfg) in
theorem scanLines_reqline (line : Option Str) (s : HdrScan) (bytes : Str)
    (hline : ∀ l, line = some l → l ≠ []) :
    (Clone.scanLines cfg line s bytes).reqline =
      s.reqline.or ((lines line bytes).head?.map (· ++ crlf)) := by
  induction bytes generalizing line s with
  | nil => cases line <;> simp [Clone.scanLines, lines]
  | cons p bytes ih =>
    cases line with
    | none =>
      simp only [Clone.scanLines, lines]
      split
      · simp
      · exact ih _ _ (by simp)
    | some line =>
      simp only [Clone.scanLines, lines]
      split
      · have hne : line ++ crlf ≠ crlf := by simpa using hline line rfl
        rw [if_neg hne, ih _ _ (fun l h => by cases h)]
        cases s.reqline <;> rfl
      · exact ih _ _ (by simp)

theorem delimitHeaders_line {bytes : Str} {d : DelimitRes} {st : Nat}
    (h : Clone.delimitHeaders cfg bytes = (some d, st)) :
    ∃ l₀ ls, lines none bytes = l₀ :: ls ∧ ((l₀ ++ crlf).dropWhile Reqline.isUpper).head? =
      some Byte.sp := by
  have hreq := scanLines_reqline cfg none {} bytes (fun l h => by cases h)
  unfold Clone.delimitHeaders at h
  dsimp only at h
  split at h
  · cases h
  · next r hr =>
    rw [hr] at hreq
    split at h
    · cases h
    · next hok =>
      simp only [not_or, Decidable.not_not] at hok
      cases hl : lines none bytes with
      | nil => simp [hl] at hreq
      | cons l₀ ls =>
        rw [hl] at hreq
        obtain rfl : r = l₀ ++ crlf := by simpa using hreq
        obtain ⟨s, hs⟩ := Option.ne_none_iff_exists'.1 hok.1
        exact ⟨l₀, ls, rfl, (Reqline.loop_found (Reqline.parse_found (Prod.ext hs hok.2))).1⟩

theorem reqline_field {l₀ : Str} (h : ((l₀ ++ crlf).dropWhile Reqline.isUpper).head? = some Byte.sp)
    (hcolon : 58 ∈ l₀) : Byte.sp ∈ (field l₀).1 := by
  obtain ⟨k, u, rfl, hk⟩ := List.eq_append_cons_of_mem hcolon
  rw [field_eq hk]
  refine List.mem_map.2 ⟨Byte.sp, ?_, rfl⟩
  clear hcolon
  induction k with
  | nil => cases h
  | cons b k ih =>
    cases hb : Reqline.isUpper b with
    | true =>
      refine List.mem_cons_of_mem b (ih (fun h => hk (List.mem_cons_of_mem b h)) ?_)
      simpa [List.dropWhile_cons, hb] using h
    | false =>
      have hsp : b = Byte.sp := by simpa [List.dropWhile_cons, hb] using h
      rw [hsp]
      exact List.mem_cons_self

end Hdr

namespace Inet

theorem digit_toLower (b : UInt8) : digit (Byte.toLower b) = digit b := by
  revert b
  apply Byte.forall_fin
  decide +kernel

theorem isDigit_toLower (b : UInt8) : isDigit (Byte.toLower b) = isDigit b := by
  unfold isDigit Byte.toLower
  grind

theorem isSpace_toLower (b : UInt8) : Byte.isSpace (Byte.toLower b) = Byte.isSpace b := by
  unfold Byte.isSpace Byte.toLower Byte.sp
  grind

theorem toLower_48 (b : UInt8) : Byte.toLower b = 48 ↔ b = 48 := by
  unfold Byte.toLower
  grind

theorem toLower_46 (b : UInt8) : Byte.toLower b = 46 ↔ b = 46 := by
  unfold Byte.toLower
  grind

theorem toLower_hex (b : UInt8) :
    (Byte.toLower b = 120 ∨ Byte.toLower b = 88) ↔ b = 120 ∨ b = 88 := by
  unfold Byte.toLower
  grind

theorem digits_toLower (base n : Nat) (s : Str) :
    digits base n (s.map Byte.toLower) =
      ((digits base n s).1, (digits base n s).2.map Byte.toLower) := by
  induction s generalizing n with
  | nil => rfl
  | cons b s ih =>
    simp only [List.map_cons, digits, digit_toLower]
    split
    · exact ih _
    · rfl

theorem strtoul_toLower (s : Str) :
    strtoul (s.map Byte.toLower) = ((strtoul s).1, (strtoul s).2.map Byte.toLower) := by
  by_cases h : s.head? = some 48
  · obtain ⟨s, rfl⟩ : ∃ k, s = 48 :: k := by
      cases s with
      | nil => cases h
      | cons b s => exact ⟨s, by simpa using h⟩
    match s with
    | [] => exact digits_toLower 8 0 [48]
    | [x] => exact digits_toLower 8 0 [48, x]
    | x :: b :: s =>
      have hleft : strtoul ((48 :: x :: b :: s).map Byte.toLower) =
          if (Byte.toLower x = 120 ∨ Byte.toLower x = 88) ∧
          digit (Byte.toLower b) < 16 then digits 16 0 ((b :: s).map Byte.toLower)
          else digits 8 0 ((48 :: x :: b :: s).map Byte.toLower) := rfl
      have hright : strtoul (48 :: x :: b :: s) = if (x = 120 ∨ x = 88) ∧
          digit b < 16 then digits 16 0 (b :: s)
          else digits 8 0 (48 :: x :: b :: s) := rfl
      rw [hleft, hright]
      simp only [toLower_hex, digit_toLower]
      split
      · exact digits_toLower 16 0 _
      · exact digits_toLower 8 0 _
  · have hl : (s.map Byte.toLower).head? ≠ some 48 := by
      rw [List.head?_map]
      cases hh : s.head? with
      | none => simp
      | some b =>
        rw [hh] at h
        simpa [toLower_48] using h
    rw [strtoul_other h, strtoul_other hl, digits_toLower]

theorem parts_eq (k : Nat) (s : Str) : parts k s = if s.head?.any isDigit = true then
      if (strtoul s).2.head? = some 46 then match k with
        | 0 => none
        | k + 1 => if (strtoul s).1 > 0xff then none
          else (parts k (strtoul s).2.tail).map ((strtoul s).1 * 256 ^ (k + 1) + ·)
      else if (strtoul s).2.head?.all Byte.isSpace ∧
        (strtoul s).1 < 256 ^ (k + 1) then some (strtoul s).1
      else none
    else none := by
  rw [parts.eq_def]
  dsimp only
  cases hd : s.head?.any isDigit with
  | false => rfl
  | true =>
    simp only [Bool.not_true, Bool.false_eq_true, if_false, if_true]
    rcases strtoul s with ⟨val, _ | ⟨b, rest⟩⟩
    · rfl
    · by_cases hb : b = 46
      · subst hb
        cases k <;> rfl
      · simp only [List.head?_cons, Option.some.injEq, hb, if_false]
        split
        · next h => exact absurd (List.cons.inj (Prod.mk.inj h).2).1 hb
        · next h => rw [← (Prod.mk.inj h).1, ← (Prod.mk.inj h).2]; rfl

theorem parts_toLower (k : Nat) (s : Str) : parts k (s.map Byte.toLower) = parts k s := by
  have hhead (p : UInt8 → Bool) (hp : ∀ b, p (Byte.toLower b) = p b) (s : Str) :
      (s.map Byte.toLower).head?.any p = s.head?.any p ∧ (s.map Byte.toLower).head?.all p =
        s.head?.all p := by
    cases s <;> simp [hp]
  have hdot (s : Str) : (s.map Byte.toLower).head? = some 46 ↔ s.head? = some 46 := by
    cases s <;> simp [toLower_46]
  induction k generalizing s with
  | zero =>
    rw [parts_eq, parts_eq]
    simp only [strtoul_toLower, (hhead _ isDigit_toLower s).1, (hhead _ isSpace_toLower _).2, hdot]
  | succ k ih =>
    rw [parts_eq, parts_eq]
    simp only [strtoul_toLower, (hhead _ isDigit_toLower s).1, (hhead _ isSpace_toLower _).2, hdot,
      ← List.map_tail, ih]

theorem aton_toLower (s : Str) : aton ((cstr s).map Byte.toLower) = aton s := by
  have hnul : 0 ∉ cstr s := fun h => by
    have hb := List.all_eq_true.1
        (List.all_takeWhile (p := fun b : UInt8 => decide (b ≠ 0)) (l := s)) 0 h
    simp at hb
  rw [aton, Hdr.cstr_eq (Hdr.not_mem_map_toLower Hdr.toLower_nul hnul), parts_toLower]
  rfl

/-- `inet_ntoa`. -/
def ntoa (a : UInt32) : Str :=
  let octet (k : UInt32) : Str := (Nat.toDigits 10 ((a >>> k) &&& 0xff).toNat).map Char.toUInt8
  octet 0 ++ 46 :: octet 8 ++ 46 :: octet 16 ++ 46 :: octet 24

end Inet

def xForwardedProto : Str :=
  ascii ['x', '-', 'f', 'o', 'r', 'w', 'a', 'r', 'd', 'e', 'd', '-', 'p', 'r', 'o', 't', 'o']

def cfVisitor : Str := ascii ['c', 'f', '-', 'v', 'i', 's', 'i', 't', 'o', 'r']

def https : Str := ascii ['h', 't', 't', 'p', 's']

def cfHttps : Str := ascii
    ['\x7b', '"', 's', 'c', 'h', 'e', 'm', 'e', '"', ':', '"', 'h', 't', 't', 'p', 's', '"', '\x7d']

/-- The members of `okclnt_t` that say who the client is; `sin` is the address of the peer. -/
structure Okclnt where
  sin : UInt32
  hdr : PairTab
  demuxData : Option DemuxData

namespace Okclnt

variable (okAllowedProxy : CidrFilter)

/-- `split` cuts a string at its commas; without a first piece, `v[0]` does not exist. -/
def isSsl (split : Str → List Str) (c : Okclnt) : Option Bool :=
  let demux := some (c.demuxData.any DemuxData.ssl)
  if isInternal okAllowedProxy (some c.sin) c.hdr false then
    match c.hdr.first xForwardedProto with
    | some proxyInfo => (split proxyInfo).head?.map (· == https)
    | none => match c.hdr.first cfVisitor with
      | some cfInfo => some (cfInfo == cfHttps)
      | none => demux
  else demux

def proxyInfo (c : Okclnt) : Option Str :=
  if isInternal okAllowedProxy (some c.sin) c.hdr true then getProxiedIp c.hdr else none

def getIp (c : Okclnt) : UInt32 := match c.proxyInfo okAllowedProxy with
  | some ip => (Inet.aton ip).getD c.sin
  | none => c.sin

def getIpStr (c : Okclnt) : Str := (c.proxyInfo okAllowedProxy).getD (Inet.ntoa c.sin)

end Okclnt

namespace Cluster

variable (cfg : OkdConfig)

/-- The address `okd` has in header mode: the forwarded one, or that of the peer. -/
def clientIp (sin : UInt32) (d : DelimitRes) : UInt32 :=
  if isInternal cfg.okAllowedProxy (some sin) d.headers true ∧ getForwardedIp d.headers ≠ 0 then
    getForwardedIp d.headers
  else sin

end Cluster

/-- Nothing in a request changes who its sender is. -/
structure Blind (cfg : OkdConfig) (split : Str → List Str) (sin : UInt32)
    (demux : Option DemuxData) : Prop where
  getIp : ∀ h h', Okclnt.getIp cfg.okAllowedProxy ⟨sin, h, demux⟩ =
    Okclnt.getIp cfg.okAllowedProxy ⟨sin, h', demux⟩
  getIpStr : ∀ h h',
    Okclnt.getIpStr cfg.okAllowedProxy ⟨sin, h, demux⟩ =
      Okclnt.getIpStr cfg.okAllowedProxy ⟨sin, h', demux⟩
  isSsl : ∀ h h',
    Okclnt.isSsl cfg.okAllowedProxy split ⟨sin, h, demux⟩ =
      Okclnt.isSsl cfg.okAllowedProxy split ⟨sin, h', demux⟩
  child : cfg.childMode = .sourceHashHeader → ∀ now rand chs pref d d',
    Cluster.findBestFitChild cfg now rand chs ⟨some sin, demux⟩ pref d =
      Cluster.findBestFitChild cfg now rand chs ⟨some sin, demux⟩ pref d'

/-- A request that `okd` hands on and the service accepts. -/
structure Served (kcfg : CloneConfig) (icfg : InHdrConfig) (ccfg : CgiConfig) (cap cap₂ : Nat)
    (B : Str) (d : DelimitRes) (o : InHdrOut) : Prop where
  room : 0 < cap₂
  okd : Clone.delimitHeaders kcfg B = (some d, Http.ok)
  service : (InHdr.machine icfg (InHdr.cgis ccfg)).Ends (InHdr.start cap cap₂ (Abuf.whole B)) o
  ok : o.status = Http.ok

/-- There is no NUL in the header, and the values that matter follow one blank. -/
structure Plain (B : Str) : Prop where
  nul : ∀ l ∈ Hdr.lines none B, 0 ∉ l
  blank : ∀ q ∈ okrs :: okForwardHeaders, ((Hdr.fields B).find? (·.1 = q)).all
    (fun f => f.2.drop 1 == f.2.dropWhile Byte.isHws) = true

/-- The forwarded value is an address that `okd` does not take for none. -/
def Settled (okAllowedProxy : CidrFilter) (sin : UInt32) (hdr : PairTab) : Prop :=
  isInternal okAllowedProxy (some sin) hdr true = true → ∀ ip, getProxiedIp hdr = some ip →
    match Inet.aton ip with
    | some a => a ≠ 0 ∨ sin = 0
    | none => sin = 0xffffffff

section Trust

variable {cfg : OkdConfig} {split : Str → List Str} {sin : UInt32} {demux : Option DemuxData}

theorem blind_of_untrusted (h : cfg.okAllowedProxy.matchIp (ntohl sin) = false) :
    Blind cfg split sin demux where
  getIp _ _ := by simp [Okclnt.getIp, Okclnt.proxyInfo, isInternal_untrusted h]
  getIpStr _ _ := by simp [Okclnt.getIpStr, Okclnt.proxyInfo, isInternal_untrusted h]
  isSsl _ _ := by simp [Okclnt.isSsl, isInternal_untrusted h]
  child hmode now rand chs pref d d' := by
    have hid (d : Option DelimitRes) :
        Cluster.firstId cfg chs.length rand ⟨some sin, demux⟩ pref d =
        Cluster.firstId cfg chs.length rand ⟨some sin, demux⟩ pref none := by
      cases d <;> simp [Cluster.firstId, hmode, isInternal_untrusted h]
    simp only [Cluster.findBestFitChild, hid d, hid d']

/-- Tables with the same values, up to the case of their letters. -/
def Alike (t t' : PairTab) : Prop :=
  ∀ q ∈ okrs :: okForwardHeaders, t.safeLookup q = (t'.safeLookup q).map Byte.toLower

theorem Alike.existsKey {t t' : PairTab} (h : Alike t t') {q : Str}
    (hq : q ∈ okrs :: okForwardHeaders) :
    t.existsKey q = t'.existsKey q := by
  simp [PairTab.existsKey, h q hq]

theorem cstr_safeLookup (t : PairTab) (q : Str) : cstr (t.safeLookup q) = t.safeLookup q := by
  rw [PairTab.safeLookup_first]
  exact List.takeWhile_takeWhile .. |>.trans (by simp [cstr])

theorem Alike.isInternal {t t' : PairTab} (h : Alike t t') (f : CidrFilter) (sin : Option UInt32)
    (useRs : Bool) :
    isInternal f sin t useRs = isInternal f sin t' useRs := by
  have haddr : Inet.addr (t.safeLookup okrs) = Inet.addr (t'.safeLookup okrs) := by
    have hto := Inet.aton_toLower (t'.safeLookup okrs)
    rw [cstr_safeLookup] at hto
    rw [Inet.addr, h okrs List.mem_cons_self, hto]
    rfl
  unfold Okws.isInternal
  rw [h.existsKey List.mem_cons_self, h.existsKey (q := okri) (by decide), haddr]

theorem Alike.proxiedIp {t t' : PairTab} (h : Alike t t') :
    (getProxiedIp t).map Inet.aton = (getProxiedIp t').map Inet.aton := by
  have hfind : okForwardHeaders.find? t.existsKey = okForwardHeaders.find? t'.existsKey :=
    List.find?_congr fun q hq => h.existsKey (List.mem_cons_of_mem _ hq)
  unfold getProxiedIp
  rw [hfind, Option.map_map, Option.map_map]
  cases hq : okForwardHeaders.find? t'.existsKey with
  | none => rfl
  | some q =>
    have hto := Inet.aton_toLower (t'.safeLookup q)
    rw [cstr_safeLookup] at hto
    simp only [Option.map_some, Function.comp_apply]
    rw [h q (List.mem_cons_of_mem _ (List.mem_of_find?_eq_some hq)), hto]

theorem tab_first {B l₀ : Str} {ls : List Str} (hlines : Hdr.lines none B = l₀ :: ls) {q : Str}
    (hq : q ≠ []) :
    (Hdr.tab B).first q = (Hdr.find q ls).map fun l => (Hdr.field l).2.dropWhile Byte.isHws := by
  rw [Hdr.tab, PairTab.ofList_first _ hq, Hdr.fields, hlines]
  simp [Hdr.find, List.find?_map, Function.comp_def]

theorem names (q : Str) (hq : q ∈ okrs :: okForwardHeaders) :
    q ≠ Hdr.cookie ∧ q ≠ [] ∧ Byte.sp ∉ q := by
  revert q
  decide

variable {kcfg : CloneConfig} {icfg : InHdrConfig} {ccfg : CgiConfig} {cap cap₂ : Nat} {B : Str}
  {d : DelimitRes}
  {o : InHdrOut}

theorem parsed_of_lines (hcap : 0 < cap₂) {l₀ : Str} {ls : List Str}
    (hlines : Hdr.lines none B = l₀ :: ls)
    (h : (InHdr.machine icfg (InHdr.cgis ccfg)).Ends (InHdr.start cap cap₂ (Abuf.whole B)) o)
    (hok : o.status = Http.ok) :
    Hdr.complete true B = true ∧ Hdr.Parsed icfg.parseCookies ls o.tab := by
  have hB : ∀ b, B.head? = some b → Byte.isEol b = false := by
    intro b hb
    cases B with
    | nil => cases hb
    | cons c B =>
      cases hb
      by_contra heol
      rw [Hdr.lines_blank B (by simpa using heol)] at hlines
      cases hlines
  obtain ⟨hc, l₀', ls', hlines', hparsed⟩ := InHdr.ends_parsed hcap hB h hok
  cases hlines.symm.trans hlines'
  exact ⟨hc, hparsed⟩

theorem Served.tables (h : Served kcfg icfg ccfg cap cap₂ B d o) (hp : Plain B) :
    Alike d.headers (Hdr.tab B) ∧
      ∀ q ∈ okrs :: okForwardHeaders, o.tab.safeLookup q = (Hdr.tab B).safeLookup q := by
  obtain ⟨l₀, ls, hlines, hsp⟩ := Hdr.delimitHeaders_line h.okd
  obtain ⟨-, hparsed⟩ := parsed_of_lines h.room hlines h.service h.ok
  have hnul : ∀ l ∈ l₀ :: ls, 0 ∉ l := fun l hl => hp.nul l (by rw [hlines]; exact hl)
  refine ⟨fun q hq => ?_, fun q hq => ?_⟩
  · obtain ⟨hcookie, hne, hblank⟩ := names q hq
    have hreq : ¬ (58 ∈ l₀ ∧ (Hdr.field l₀).1 = q) := fun hf =>
        hblank (hf.2 ▸ Hdr.reqline_field hsp hf.1)
    have hokd : d.headers.first q = (Hdr.find q ls).map (Hdr.okdValue kcfg) := by
      rw [Hdr.delimitHeaders_tab h.okd, hlines, List.map_cons, List.foldl_cons,
        Hdr.foldl_first ls _ (fun l hl => hnul l (List.mem_cons_of_mem _ hl)) hparsed.colon hne,
        Hdr.addHeader_first _ (hnul l₀ List.mem_cons_self) hne, if_neg hreq]
      rfl
    rw [PairTab.safeLookup_first, PairTab.safeLookup_first, hokd, tab_first hlines hne]
    cases hf : Hdr.find q ls with
    | none => rfl
    | some l =>
      have hmem : l ∈ ls := List.mem_of_find?_eq_some hf
      have hname : (Hdr.field l).1 = q := by simpa using List.find?_some hf
      have hstored : Hdr.stored icfg.parseCookies l = true := by
        simp [Hdr.stored, hname, hcookie]
      have hproper : Hdr.Proper l := hparsed.proper l hmem hstored
      have hone : (Hdr.field l).2.drop 1 = (Hdr.field l).2.dropWhile Byte.isHws := by
        have hall := hp.blank q hq
        rw [Hdr.fields, hlines, List.tail_cons, List.find?_map] at hall
        have hcomp : ls.find? ((fun f : Str × Str => decide (f.1 = q)) ∘ Hdr.field) = some l := hf
        rw [hcomp] at hall
        simpa using hall
      have hl0 := hnul l (List.mem_cons_of_mem _ hmem)
      have hraw : 0 ∉ (Hdr.field l).2.dropWhile Byte.isHws := by
        intro h0
        refine hl0 ?_
        have hsub : List.Sublist ((Hdr.field l).2.dropWhile Byte.isHws) l :=
          (List.dropWhile_sublist _).trans ((List.takeWhile_sublist _).trans
            ((List.tail_sublist _).trans (List.dropWhile_sublist _)))
        exact hsub.subset h0
      simp only [Option.map_some, Option.getD_some]
      rw [Hdr.cstr_okdValue hproper hl0, hone, Hdr.cstr_eq hraw]
  · obtain ⟨hcookie, hne, -⟩ := names q hq
    rw [PairTab.safeLookup_first, PairTab.safeLookup_first, hparsed.first hcookie hne,
      tab_first hlines hne]

/-- The address is the same to both if and only if it does not matter that `okd` takes a text that
is no address for the last one, and the first address for none. -/
theorem clientIp_eq_getIp {hdr hdr' : PairTab} (h : Alike hdr hdr') :
    Cluster.clientIp cfg sin ⟨d.reqline, hdr⟩ = Okclnt.getIp cfg.okAllowedProxy ⟨sin, hdr', demux⟩ ↔
      Settled cfg.okAllowedProxy sin hdr' := by
  unfold Cluster.clientIp Okclnt.getIp Okclnt.proxyInfo Settled
  simp only [h.isInternal]
  cases isInternal cfg.okAllowedProxy (some sin) hdr' true with
  | false => simp
  | true =>
    have hip := h.proxiedIp
    simp only [true_and, if_true, getForwardedIp, forall_const]
    cases hp' : getProxiedIp hdr' with
    | none =>
      rw [hp', Option.map_none, Option.map_eq_none_iff] at hip
      simp [hip]
    | some ip' =>
      rw [hp', Option.map_some, Option.map_eq_some_iff] at hip
      obtain ⟨ip, hp, haton⟩ := hip
      simp only [hp, Inet.addr, haton, Option.some.injEq, forall_eq']
      cases Inet.aton ip' with
      | none => simp [eq_comm]
      | some a =>
        by_cases ha : a = 0
        · simp [ha]
        · simp [ha]

theorem getIp_congr {t t' : PairTab}
    (h : ∀ q ∈ okrs :: okForwardHeaders, t.safeLookup q = t'.safeLookup q) :
    Okclnt.getIp cfg.okAllowedProxy ⟨sin, t, demux⟩ =
      Okclnt.getIp cfg.okAllowedProxy ⟨sin, t', demux⟩ := by
  have hex (q : Str) (hq : q ∈ okrs :: okForwardHeaders) : t.existsKey q = t'.existsKey q := by
    simp [PairTab.existsKey, h q hq]
  have hint : isInternal cfg.okAllowedProxy (some sin) t true =
      isInternal cfg.okAllowedProxy (some sin) t' true := by
    unfold isInternal
    rw [hex okrs List.mem_cons_self, hex okri (by decide), h okrs List.mem_cons_self]
  have hip : getProxiedIp t = getProxiedIp t' := by
    have hfind : okForwardHeaders.find? t.existsKey = okForwardHeaders.find? t'.existsKey :=
      List.find?_congr fun q hq => hex q (List.mem_cons_of_mem _ hq)
    unfold getProxiedIp
    rw [hfind]
    refine Option.map_congr fun q hq => h q (List.mem_cons_of_mem _ (List.mem_of_find?_eq_some hq))
  simp only [Okclnt.getIp, Okclnt.proxyInfo, hint, hip]

end Trust

/-- Who is not trusted cannot say who it is, and where somebody trusted says it, `okd` and the
service understand the same if and only if the value is settled. -/
theorem blind_and_clientIp_iff (cfg : OkdConfig) (split : Str → List Str) (sin : UInt32)
    (demux : Option DemuxData) :
    (cfg.okAllowedProxy.matchIp (ntohl sin) = false → Blind cfg split sin demux) ∧
    ∀ (kcfg : CloneConfig) (icfg : InHdrConfig) (ccfg : CgiConfig) (cap cap₂ : Nat) (B : Str)
      (d : DelimitRes)
      (o : InHdrOut), Served kcfg icfg ccfg cap cap₂ B d o → Plain B →
      (Cluster.clientIp cfg sin d = Okclnt.getIp cfg.okAllowedProxy ⟨sin, o.tab, demux⟩ ↔
        Settled cfg.okAllowedProxy sin (Hdr.tab B)) := by
  refine ⟨blind_of_untrusted, fun kcfg icfg ccfg cap cap₂ B d o hs hp => ?_⟩
  obtain ⟨halike, hsame⟩ := hs.tables hp
  rw [getIp_congr hsame]
  exact clientIp_eq_getIp (d := d) halike

theorem served_of_run (B : Str) (P : DelimitRes → InHdrOut → Bool) (n : Nat)
    (hst : (Clone.delimitHeaders ⟨true, 1024, fun _ => 0, fun _ _ => true⟩ B).2 = Http.ok)
    (h : (Clone.delimitHeaders ⟨true, 1024, fun _ => 0, fun _ _ => true⟩ B).1.any (fun d =>
      ((InHdr.machine ⟨true, true, false, false⟩ (InHdr.cgis ⟨64, id⟩)).run n
        (InHdr.start 64 64 (Abuf.whole B))).any fun o => o.status == Http.ok && P d o) = true) :
    ∃ d o, Served ⟨true, 1024, fun _ => 0, fun _ _ => true⟩ ⟨true, true, false, false⟩ ⟨64, id⟩ 64
      64 B d o ∧
      P d o = true := by
  rw [Option.any_eq_true] at h
  obtain ⟨d, hd, h⟩ := h
  rw [Option.any_eq_true] at h
  obtain ⟨o, ho, h⟩ := h
  simp only [Bool.and_eq_true, beq_iff_eq] at h
  exact ⟨d, o, ⟨by decide, Prod.ext hd hst, ⟨n, ho⟩, h.1⟩, h.2⟩

/-- An `okd` that trusts 127.0.0.0/8. -/
def loopbackOkd : OkdConfig where
  sendconTimeBudget := 0
  svcFdQuota := 0
  conQueueMax := 10
  emergKillEnabled := false
  emergKillWait := 0
  childMode := .sourceHashHeader
  okAllowedProxy := [⟨0x7f000000, 0xff000000⟩]
  hash := UInt32.toNat

/-- `X-Forwarded-For: 1.2.3.4` from 127.0.0.1, and 1.2.3.4 itself. -/
theorem blind_and_clientIp_iff_forwarded :
    Blind loopbackOkd (fun s => [s]) 0x04030201 none ∧
    ∃ d o, Served ⟨true, 1024, fun _ => 0, fun _ _ => true⟩ ⟨true, true, false, false⟩
      ⟨64, id⟩ 64 64
      [71, 69, 84, 32, 47, 32, 72, 84, 84, 80, 47, 49, 46, 48, 13, 10, 88, 45, 70, 111, 114, 119,
      97, 114, 100, 101, 100, 45, 70, 111, 114, 58, 32, 49, 46, 50, 46, 51, 46, 52, 13, 10, 13,
      10] d o ∧
      Cluster.clientIp loopbackOkd 0x0100007f d =
        Okclnt.getIp loopbackOkd.okAllowedProxy ⟨0x0100007f, o.tab, none⟩ := by
  refine ⟨(blind_and_clientIp_iff loopbackOkd (fun s => [s]) 0x04030201 none).1 (by decide), ?_⟩
  obtain ⟨d, o, hs, -⟩ := served_of_run
      [71, 69, 84, 32, 47, 32, 72, 84, 84, 80, 47, 49, 46, 48, 13, 10, 88, 45, 70, 111, 114, 119,
      97, 114, 100, 101, 100, 45, 70, 111, 114, 58, 32, 49, 46, 50, 46, 51, 46, 52, 13, 10, 13,
      10]
    (fun _ _ => true) 40 (by decide +kernel) (by decide +kernel)
  refine ⟨d, o, hs,
    ((blind_and_clientIp_iff loopbackOkd (fun s => [s]) 0x0100007f none).2 _ _ _ _ _ _ _ _ hs
    ⟨by decide, by decide⟩).2 ?_⟩
  intro _ ip hip
  have hval : getProxiedIp (Hdr.tab
      [71, 69, 84, 32, 47, 32, 72, 84, 84, 80, 47, 49, 46, 48, 13, 10, 88, 45, 70, 111, 114, 119,
      97, 114, 100, 101, 100, 45, 70, 111, 114, 58, 32, 49, 46, 50, 46, 51, 46, 52, 13, 10, 13,
      10]) = some [49, 46, 50, 46, 51, 46, 52] := by decide
  obtain rfl : [49, 46, 50, 46, 51, 46, 52] = ip := Option.some.inj (hval.symm.trans hip)
  have haton : Inet.aton [49, 46, 50, 46, 51, 46, 52] = some 0x04030201 := by decide
  rw [haton]
  exact .inl (by decide)

/-- `X-Forwarded-For: unknown`, and an address with no blank in front of it. -/
theorem not_clientIp_eq_getIp :
    ([
      [71, 69, 84, 32, 47, 32, 72, 84, 84, 80, 47, 49, 46, 48, 13, 10, 88, 45, 70, 111, 114, 119,
      97, 114, 100, 101, 100, 45, 70, 111, 114, 58, 32, 117, 110, 107, 110, 111, 119, 110, 13, 10,
      13, 10],
      [71, 69, 84, 32, 47, 32, 72, 84, 84, 80, 47, 49, 46, 48, 13, 10, 88, 45, 70, 111, 114, 119,
      97, 114, 100, 101, 100, 45, 70, 111, 114, 58, 49, 50, 46, 51, 46, 52, 46, 53, 13, 10, 13,
      10]] : List Str).Forall fun B =>
      loopbackOkd.okAllowedProxy.matchIp (ntohl 0x0100007f) = true ∧
      ∃ d o, Served ⟨true, 1024, fun _ => 0, fun _ _ => true⟩ ⟨true, true, false, false⟩ ⟨64, id⟩ 64
        64 B d o ∧
        Cluster.clientIp loopbackOkd 0x0100007f d ≠
          Okclnt.getIp loopbackOkd.okAllowedProxy ⟨0x0100007f, o.tab, none⟩ := by
  rw [List.forall_iff_forall_mem]
  intro B hB
  refine ⟨by decide, ?_⟩
  simp only [List.mem_cons, List.not_mem_nil, or_false] at hB
  have differ (h : (Clone.delimitHeaders ⟨true, 1024, fun _ => 0, fun _ _ => true⟩ B).2 =
      Http.ok ∧ _) :=
    served_of_run B (fun d o => decide (Cluster.clientIp loopbackOkd 0x0100007f d ≠
      Okclnt.getIp loopbackOkd.okAllowedProxy ⟨0x0100007f, o.tab, none⟩)) 40 h.1 h.2
  obtain ⟨d, o, hs, h⟩ := differ (by obtain rfl | rfl := hB <;> decide +kernel)
  exact ⟨d, o, hs, of_decide_eq_true h⟩

end Okws

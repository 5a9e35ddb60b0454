import Mathlib.Data.List.Basic
import Mathlib.Data.List.Forall2
import Okws.Lib.Cut
import Okws.Proxy

/-! `cidr_filter_t`: the blocks of addresses whose word is taken for who a client is, and their
descriptions. -/

namespace Okws

open Lib

/-- A mask, with the description that it was made of. -/
structure CidrRange extends CidrMask where
  desc : Str
  deriving DecidableEq

/-- The two functions that read a description: the regular expression `([^/]+)(/([0-9]+))?`, of
which only its groups 1 and 3 are used, and `str::to_uint32`. -/
structure CidrLib where
  rxx : Str → Option (Str × Option Str)
  toUint32 : Str → Option UInt32
  rxx_host : ∀ a, a ≠ [] → 47 ∉ a → rxx a = some (a, none)
  rxx_block : ∀ a s, a ≠ [] → 47 ∉ a → s ≠ [] → s.all Inet.isDigit = true →
    rxx (a ++ 47 :: s) = some (a, some s)

/-- A regular expression that has to match all of a text, and decimal numbers. -/
def CidrLib.plain : CidrLib where
  rxx s := match s.takeWhile (· ≠ 47), s.dropWhile (· ≠ 47) with
    | [], _ => none
    | a, [] => some (a, none)
    | a, _ :: s => if s ≠ [] ∧ s.all Inet.isDigit = true then some (a, some s) else none
  toUint32 s := match Inet.digits 10 0 s with
    | (n, []) => if n < 2 ^ 32 then some (.ofNat n) else none
    | _ => none
  rxx_host a hne ha := by
    rw [takeWhile_none ha, dropWhile_none ha]
    cases a with
    | nil => exact absurd rfl hne
    | cons b a => rfl
  rxx_block a s hne ha hs hall := by
    rw [takeWhile_first ha, dropWhile_first ha]
    cases a with
    | nil => exact absurd rfl hne
    | cons b a => exact if_pos ⟨hs, hall⟩

def shl (x k : UInt32) : Option UInt32 := if k < 32 then some (x <<< k) else none

namespace CidrRange

variable (L : CidrLib)

/-- `cidr_mask_t`. -/
def make (range : Str) : Option CidrRange :=
  let desc := cstr range
  match L.rxx desc with
  | none => some ⟨⟨0xffffffff, 0xffffffff⟩, desc⟩
  | some (saddr, pat3) => match Inet.aton saddr with
    | none => some ⟨⟨0xffffffff, 0xffffffff⟩, desc⟩
    | some addr => match pat3 with
      | none => some ⟨⟨ntohl addr, 0xffffffff⟩, desc⟩
      | some s => do
        let mask ← shl 0xffffffff (32 - (L.toUint32 s).getD 0)
        some ⟨⟨ntohl addr &&& mask, mask⟩, desc⟩

end CidrRange

namespace CidrFilter

variable (L : CidrLib)

/-- The masks of some descriptions, each added with `add_mask`. -/
def ofDescs (ds : List Str) : Option (List CidrRange) := ds.mapM (CidrRange.make L)

/-- `match`. -/
def matchAny (f : List CidrRange) (ip : UInt32) : Bool := matchIp (f.map (·.toCidrMask)) ip

def encode (f : List CidrRange) : Str := [44].intercalate (f.map (·.desc))

/-- `split` at the commas; a last piece that is empty is not one. -/
def splitComma (s : Str) : List Str :=
  let v := s.splitOn 44
  if v.getLast? = some [] then v.dropLast else v

def decode (s : Str) : Option (List CidrRange) := (splitComma s).mapM (CidrRange.make L)

end CidrFilter

namespace Cidr

def Dotted (a : Str) (addr : UInt32) : Prop :=
  a.all (fun b => Inet.isDigit b || b == 46) = true ∧ (Inet.aton a).map ntohl = some addr

def Decimal (s : Str) (n : Nat) : Prop := s ≠ [] ∧ Inet.digits 10 0 s = (n, [])

/-- What a description says: an address, and how many bits of it count. -/
inductive Describes : Str → UInt32 → Nat → Prop
  | host {a : Str} {addr : UInt32} : Dotted a addr → Describes a addr 32
  | block {a s : Str} {addr : UInt32} {n : Nat} : Dotted a addr → Decimal s n → n ≤ 32 →
    Describes (a ++ 47 :: s) addr n

/-- Two addresses agree on their first `n` bits. -/
def Agree (n : Nat) (ip addr : UInt32) : Prop :=
  ∀ i, 32 - n ≤ i → i < 32 → ip.toBitVec.getLsbD i = addr.toBitVec.getLsbD i

/-- An address lies in the block of a description; one that is malformed has no block. -/
def InBlock (d : Str) (ip : UInt32) : Prop := ∃ addr n, Describes d addr n ∧ Agree n ip addr

/-- The filter of some descriptions matches the blocks of these: nothing that is undefined is done,
each description matches its own block, and the text form keeps what is matched. -/
def Exact (L : CidrLib) (ds : List Str) : Prop :=
  ∃ f, CidrFilter.ofDescs L ds = some f ∧
    (∀ d ∈ ds, ∀ m, CidrRange.make L d = some m → ∀ ip, m.matchIp ip = true ↔ InBlock d ip) ∧
    (∀ ip, CidrFilter.matchAny f ip = true ↔ ∃ d ∈ ds, InBlock d ip) ∧
    ∃ g, CidrFilter.decode L (CidrFilter.encode f) = some g ∧
      ∀ ip, CidrFilter.matchAny g ip = CidrFilter.matchAny f ip

/-- A description of a host, or of a block with a number of bits that is not zero and that
`to_uint32` reads as it is meant. -/
inductive Readable (L : CidrLib) : Str → Prop
  | host {a : Str} {addr : UInt32} : Dotted a addr → Readable L a
  | block {a s : Str} {addr : UInt32} {n : Nat} : Dotted a addr → Decimal s n → 1 ≤ n → n ≤ 32 →
    L.toUint32 s = some (.ofNat n) → Readable L (a ++ 47 :: s)

section Proofs

variable {L : CidrLib} {d a s : Str} {addr ip : UInt32} {n : Nat}

theorem Dotted.plain (h : Dotted a addr) : a ≠ [] ∧ 47 ∉ a ∧ 44 ∉ a ∧ 0 ∉ a := by
  obtain ⟨hall, haddr⟩ := h
  have hnot (c : UInt8) (hc : (Inet.isDigit c || c == 46) = false) : c ∉ a := fun hmem => by
    rw [List.all_eq_true.1 hall c hmem] at hc
    cases hc
  refine ⟨?_, hnot 47 rfl, hnot 44 rfl, hnot 0 rfl⟩
  rintro rfl
  cases haddr

theorem isDigit_of_digit (b : UInt8) (h : Inet.digit b < 10) : Inet.isDigit b = true := by
  unfold Inet.digit at h
  split_ifs at h with hb hl hu
  · exact hb
  · have hle := UInt8.le_iff_toNat_le.1 hl.1
    have hle' : 97 ≤ b.toNat := hle
    omega
  · have hle : 65 ≤ b.toNat := UInt8.le_iff_toNat_le.1 hu.1
    omega
  · omega

theorem digits_all {m : Nat} (h : Inet.digits 10 n s = (m, [])) : s.all Inet.isDigit = true := by
  induction s generalizing n with
  | nil => rfl
  | cons b s ih =>
    unfold Inet.digits at h
    split at h
    · next hb => rw [List.all_cons, isDigit_of_digit b hb, ih h, Bool.and_self]
    · cases h

theorem Decimal.plain (h : Decimal s n) : s.all Inet.isDigit = true ∧ 44 ∉ s ∧ 0 ∉ s := by
  have hall := digits_all h.2
  have hnot (c : UInt8) (hc : Inet.isDigit c = false) : c ∉ s := fun hmem => by
    rw [List.all_eq_true.1 hall c hmem] at hc
    cases hc
  exact ⟨hall, hnot 44 rfl, hnot 0 rfl⟩

theorem cstr_self {t : Str} (h : 0 ∉ t) : cstr t = t := takeWhile_none h

theorem make_host (h : Dotted a addr) :
    CidrRange.make L a = some ⟨⟨addr, 0xffffffff⟩, a⟩ := by
  obtain ⟨hne, hslash, -, hnul⟩ := h.plain
  obtain ⟨x, hx, rfl⟩ := Option.map_eq_some_iff.1 h.2
  simp only [CidrRange.make, cstr_self hnul, L.rxx_host a hne hslash, hx]

theorem make_block (h : Dotted a addr) (hs : Decimal s n) :
    CidrRange.make L (a ++ 47 :: s) = (shl 0xffffffff (32 - (L.toUint32 s).getD 0)).map
      fun mask => ⟨⟨addr &&& mask, mask⟩, a ++ 47 :: s⟩ := by
  obtain ⟨hne, hslash, -, hnul⟩ := h.plain
  obtain ⟨hall, -, hnul'⟩ := hs.plain
  obtain ⟨x, hx, rfl⟩ := Option.map_eq_some_iff.1 h.2
  have hself : cstr (a ++ 47 :: s) = a ++ 47 :: s := cstr_self (by simp [hnul, hnul'])
  simp only [CidrRange.make, hself, L.rxx_block a s hne hslash hs.1 hall, hx]
  cases shl 0xffffffff (32 - (L.toUint32 s).getD 0) <;> rfl

theorem and_and_self (x m : UInt32) : x &&& m &&& m = x &&& m := by
  rw [UInt32.and_assoc, UInt32.and_self]

theorem make_net {m : CidrRange} (h : CidrRange.make L d = some m) : m.matchIp m.net = true := by
  unfold CidrRange.make at h
  rw [CidrMask.matchIp, beq_iff_eq]
  dsimp only at h
  split at h
  · cases h
    exact UInt32.and_self
  · split at h
    · cases h
      exact UInt32.and_self
    · split at h
      · cases h
        exact UInt32.and_neg_one ..
      · obtain ⟨mask, -, h⟩ := Option.bind_eq_some_iff.1 h
        cases h
        exact and_and_self ..

theorem shl_isSome (k : UInt32) :
    (shl 0xffffffff (32 - k)).isSome = true ↔ 1 ≤ k.toNat ∧ k.toNat ≤ 32 := by
  have hlt : 32 - k < 32 ↔ 1 ≤ k.toNat ∧ k.toNat ≤ 32 := by
    rw [UInt32.lt_iff_toNat_lt, UInt32.toNat_sub]
    have hk := k.toNat_lt
    simp only [UInt32.reduceToNat]
    omega
  unfold shl
  rw [← hlt]
  split
  · next h => simp [h]
  · next h => simp [h]

theorem mask_bit {k : UInt32} (hk : k < 32) {i : Nat} (hi : i < 32) :
    ((0xffffffff : UInt32) <<< k).toBitVec.getLsbD i = decide (k.toNat ≤ i) := by
  have hones : (0xffffffff : UInt32).toBitVec = BitVec.allOnes 32 := rfl
  have hmod : k.toNat % 32 = k.toNat := Nat.mod_eq_of_lt (UInt32.lt_iff_toNat_lt.1 hk)
  have hplaces : (k.toBitVec % 32).toNat = k.toNat := hmod
  have hsub : i - k.toNat < 32 := by omega
  rw [UInt32.toBitVec_shiftLeft, hones]
  change (BitVec.allOnes 32 <<< (k.toBitVec % 32).toNat).getLsbD i = _
  rw [hplaces, BitVec.getLsbD_shiftLeft, BitVec.getLsbD_allOnes]
  by_cases hki : k.toNat ≤ i
  · simp [hi, hsub, hki]
  · simp [hki]

theorem and_mask_iff {k : UInt32} (hk : k < 32) (x y : UInt32) :
    x &&& (0xffffffff <<< k) = y &&& (0xffffffff <<< k) ↔ Agree (32 - k.toNat) x y := by
  have hlt : k.toNat < 32 := UInt32.lt_iff_toNat_lt.1 hk
  have hbit (z : UInt32) {i : Nat} (hi : i < 32) :
      (z &&& (0xffffffff <<< k)).toBitVec.getLsbD i =
      (z.toBitVec.getLsbD i && decide (k.toNat ≤ i)) := by
    rw [UInt32.toBitVec_and, BitVec.getLsbD_and, mask_bit hk hi]
  constructor
  · intro h i hki hi
    have hle : k.toNat ≤ i := by omega
    have hx := hbit x hi
    rw [h, hbit y hi] at hx
    simpa [hle] using hx.symm
  · intro h
    refine UInt32.toBitVec_inj.1 (BitVec.eq_of_getLsbD_eq fun i hi => ?_)
    rw [hbit x hi, hbit y hi]
    by_cases hle : k.toNat ≤ i
    · rw [h i (by omega) hi]
    · simp [hle]

/-- An address that agrees with `addr` on the first `n` bits, and not on the next one. -/
theorem exists_agree (addr : UInt32) {n m : Nat} (hnm : n < m) (hm : m ≤ 32) :
    ∃ ip, Agree n ip addr ∧ ¬ Agree m ip addr := by
  have hbit (i : Nat) (hi : i < 32) : (1#32 <<< (31 - n)).getLsbD i = decide (i = 31 - n) := by
    rw [BitVec.getLsbD_shiftLeft, BitVec.getLsbD_one]
    grind
  have hflip (i : Nat) (hi : i < 32) :
      (UInt32.ofBitVec (addr.toBitVec ^^^ 1#32 <<< (31 - n))).toBitVec.getLsbD i =
      (addr.toBitVec.getLsbD i ^^ decide (i = 31 - n)) := by
    rw [UInt32.toBitVec_ofBitVec, BitVec.getLsbD_xor, hbit i hi]
  refine ⟨.ofBitVec (addr.toBitVec ^^^ 1#32 <<< (31 - n)), fun i hni hi => ?_, fun h => ?_⟩
  · have hne : i ≠ 31 - n := by omega
    rw [hflip i hi]
    simp [hne]
  · have hsame := h (31 - n) (by omega) (by omega)
    rw [hflip _ (by omega)] at hsame
    simp at hsame

section Blocks

variable {m : CidrRange} {n' : Nat} {addr' : UInt32}

theorem Dotted.unique (h : Dotted a addr) (h' : Dotted a addr') : addr = addr' :=
  Option.some.inj (h.2.symm.trans h'.2)

theorem Decimal.unique (h : Decimal s n) (h' : Decimal s n') : n = n' :=
  congrArg Prod.fst (h.2.symm.trans h'.2)

theorem Describes.host_inv (h : Describes a addr n) (ha : 47 ∉ a) : n = 32 ∧ Dotted a addr := by
  cases h with
  | host h => exact ⟨rfl, h⟩
  | block _ _ _ => exact absurd (by simp) ha

theorem Describes.block_inv (h : Describes (a ++ 47 :: s) addr n) (ha : 47 ∉ a) :
    Dotted a addr ∧ Decimal s n ∧ n ≤ 32 := by
  generalize hd : a ++ 47 :: s = d at h
  cases h with
  | host h => exact absurd (hd ▸ by simp) h.plain.2.1
  | @block a' s' _ _ h hs hn =>
    have hs' := hs.plain.1
    have hnot : 47 ∉ s' := fun hmem => by cases List.all_eq_true.1 hs' 47 hmem
    obtain ⟨rfl, -, rfl⟩ := (List.append_cons_inj_of_notMem h.plain.2.1 hnot).1 hd.symm
    exact ⟨h, hs, hn⟩

theorem inBlock_host (h : Dotted a addr) : InBlock a ip ↔ Agree 32 ip addr := by
  constructor
  · rintro ⟨addr', n, hd, hip⟩
    obtain ⟨rfl, hd'⟩ := hd.host_inv h.plain.2.1
    rwa [h.unique hd']
  · exact fun hip => ⟨addr, 32, .host h, hip⟩

theorem inBlock_block (h : Dotted a addr) (hs : Decimal s n) (hn : n ≤ 32) :
    InBlock (a ++ 47 :: s) ip ↔ Agree n ip addr := by
  constructor
  · rintro ⟨addr', n', hd, hip⟩
    obtain ⟨hd, hs', -⟩ := hd.block_inv h.plain.2.1
    rwa [h.unique hd, hs.unique hs']
  · exact fun hip => ⟨addr, n, .block h hs hn, hip⟩

theorem matchIp_shl {k mask : UInt32} (h : shl 0xffffffff (32 - k) = some mask) :
    (CidrMask.mk (addr &&& mask) mask).matchIp ip = true ↔ Agree k.toNat ip addr := by
  have hk := (shl_isSome k).1 (by rw [h]; rfl)
  have hsub : (32 - k).toNat = 32 - k.toNat := by
    rw [UInt32.toNat_sub_of_le _ _ (UInt32.le_iff_toNat_le.2 hk.2)]
    rfl
  have hback : 32 - (32 - k.toNat) = k.toNat := by omega
  unfold shl at h
  split at h
  · next hlt =>
    cases h
    rw [CidrMask.matchIp, beq_iff_eq, and_mask_iff hlt, hsub, hback]
  · cases h

theorem Readable.make (h : Readable L d) : 44 ∉ d ∧ d ≠ [] ∧ ∃ m, CidrRange.make L d = some m ∧
    m.desc = d ∧ ∀ ip, m.matchIp ip = true ↔ InBlock d ip := by
  cases h with
  | @host _ addr h =>
    refine ⟨h.plain.2.2.1, h.plain.1, _, make_host h, rfl, fun ip => ?_⟩
    have hmask : shl 0xffffffff (32 - 32) = some 0xffffffff := rfl
    have hmatch : (CidrMask.mk (addr &&& 0xffffffff) 0xffffffff).matchIp ip = true ↔
        Agree 32 ip addr := matchIp_shl hmask
    have hall : addr &&& 0xffffffff = addr := UInt32.and_neg_one
    rw [hall] at hmatch
    exact hmatch.trans (inBlock_host h).symm
  | @block a s addr n h hs h₁ hn hread =>
    have hnat : (UInt32.ofNat n).toNat = n :=
      UInt32.toNat_ofNat_of_lt' (by simp only [UInt32.size]; omega)
    have hsome : (shl 0xffffffff (32 - UInt32.ofNat n)).isSome = true :=
      (shl_isSome _).2 (by omega)
    obtain ⟨mask, hmask⟩ := Option.isSome_iff_exists.1 hsome
    refine ⟨by simp [h.plain.2.2.1, hs.plain.2.1], by simp,
      ⟨⟨addr &&& mask, mask⟩, a ++ 47 :: s⟩, ?_, rfl, fun ip => ?_⟩
    · rw [make_block h hs, hread, Option.getD_some, hmask]
      rfl
    · rw [inBlock_block h hs hn]
      exact (matchIp_shl hmask).trans (by rw [hnat])

theorem Readable.of_make (hm : CidrRange.make L d = some m)
    (h : ∀ ip, m.matchIp ip = true ↔ InBlock d ip) : Readable L d := by
  obtain ⟨addr, n, hd, -⟩ := (h _).1 (make_net hm)
  cases hd with
  | host hd => exact .host hd
  | @block a s _ _ hd hs hn =>
    rw [make_block hd hs] at hm
    obtain ⟨mask, hmask, rfl⟩ := Option.map_eq_some_iff.1 hm
    obtain ⟨h₁, h₃₂⟩ := (shl_isSome _).1 (Option.isSome_of_eq_some hmask)
    have hsame (ip : UInt32) : Agree ((L.toUint32 s).getD 0).toNat ip addr ↔ Agree n ip addr := by
      rw [← inBlock_block hd hs hn, ← h ip]
      exact (matchIp_shl hmask).symm
    have hn' : ((L.toUint32 s).getD 0).toNat = n := by
      obtain hlt | heq | hgt := Nat.lt_trichotomy ((L.toUint32 s).getD 0).toNat n
      · obtain ⟨ip, hip, hnot⟩ := exists_agree addr hlt hn
        exact absurd ((hsame ip).1 hip) hnot
      · exact heq
      · obtain ⟨ip, hip, hnot⟩ := exists_agree addr hgt h₃₂
        exact absurd ((hsame ip).2 hip) hnot
    refine .block hd hs (by omega) hn ?_
    cases hread : L.toUint32 s with
    | none =>
      rw [hread] at h₁
      exact absurd h₁ (by decide)
    | some k =>
      rw [hread, Option.getD_some] at hn'
      rw [← hn', UInt32.ofNat_toNat]

end Blocks

section Filters

variable {ds : List Str} {f : List CidrRange}

theorem ofDescs_iff : CidrFilter.ofDescs L ds = some f ↔
    List.Forall₂ (fun d m => CidrRange.make L d = some m) ds f := by
  unfold CidrFilter.ofDescs
  induction ds generalizing f with
  | nil =>
    rw [List.mapM_nil, List.forall₂_nil_left_iff]
    exact Option.some_inj.trans eq_comm
  | cons d ds ih =>
    rw [List.mapM_cons, List.forall₂_cons_left_iff]
    constructor
    · intro h
      obtain ⟨m, hm, h⟩ := Option.bind_eq_some_iff.1 h
      obtain ⟨f', hf', h⟩ := Option.bind_eq_some_iff.1 h
      cases h
      exact ⟨m, f', hm, ih.1 hf', rfl⟩
    · rintro ⟨m, f', hm, hf', rfl⟩
      rw [hm, ih.2 hf']
      rfl

theorem exists_make (h : CidrFilter.ofDescs L ds = some f) (hd : d ∈ ds) :
    ∃ m, CidrRange.make L d = some m := by
  induction ofDescs_iff.1 h with
  | nil => cases hd
  | cons hm hf ih =>
    obtain rfl | hd := List.mem_cons.1 hd
    · exact ⟨_, hm⟩
    · exact ih (ofDescs_iff.2 hf) hd

theorem exists_ofDescs (h : ∀ d ∈ ds, Readable L d) : ∃ f, CidrFilter.ofDescs L ds = some f ∧
    f.map (·.desc) = ds ∧
    ∀ ip, CidrFilter.matchAny f ip = true ↔ ∃ d ∈ ds, InBlock d ip := by
  simp only [ofDescs_iff]
  induction ds with
  | nil => exact ⟨[], .nil, rfl, fun ip => by simp [CidrFilter.matchAny, CidrFilter.matchIp]⟩
  | cons d ds ih =>
    obtain ⟨-, -, m, hm, hdesc, hmatch⟩ := (h d List.mem_cons_self).make
    obtain ⟨f, hf, hdescs, hall⟩ := ih fun d hd => h d (List.mem_cons_of_mem _ hd)
    refine ⟨m :: f, .cons hm hf, by rw [List.map_cons, hdesc, hdescs], fun ip => ?_⟩
    rw [List.exists_mem_cons_iff, ← hall ip, ← hmatch ip]
    simp [CidrFilter.matchAny, CidrFilter.matchIp]

theorem splitComma_encode {f : List CidrRange} (h : ∀ m ∈ f, 44 ∉ m.desc ∧ m.desc ≠ []) :
    CidrFilter.splitComma (CidrFilter.encode f) = f.map (·.desc) := by
  by_cases hnil : f = []
  · subst hnil
    rfl
  have hpieces : (CidrFilter.encode f).splitOn 44 = f.map (·.desc) := by
    refine List.splitOn_intercalate 44 (fun t ht => ?_) (by simpa using hnil)
    obtain ⟨m, hm, rfl⟩ := List.mem_map.1 ht
    exact (h m hm).1
  have hlast : (f.map (·.desc)).getLast? ≠ some [] := by
    intro hlast
    obtain ⟨m, hm, hdesc⟩ := List.mem_map.1 (List.mem_of_getLast? hlast)
    exact (h m hm).2 hdesc
  simp only [CidrFilter.splitComma, hpieces, hlast, if_false]

end Filters

end Proofs

/-- A filter matches exactly its blocks if and only if each of its descriptions is of a host, or of
a block with 1 to 32 bits that `to_uint32` reads as a decimal number. -/
theorem covers_exactly_iff (L : CidrLib) (ds : List Str) : Exact L ds ↔ ∀ d ∈ ds, Readable L d := by
  constructor
  · rintro ⟨f, hf, hall, -⟩ d hd
    obtain ⟨m, hm⟩ := exists_make hf hd
    exact .of_make hm (hall d hd m hm)
  · intro h
    obtain ⟨f, hf, hdescs, hmatch⟩ := exists_ofDescs h
    refine ⟨f, hf, fun d hd m hm => ?_, hmatch, f, ?_, fun _ => rfl⟩
    · obtain ⟨-, -, m', hm', -, hblock⟩ := (h d hd).make
      cases hm.symm.trans hm'
      exact hblock
    · rw [CidrFilter.decode, splitComma_encode, hdescs]
      · exact hf
      · intro m hm
        have hd := h m.desc (hdescs ▸ List.mem_map_of_mem hm)
        exact ⟨hd.make.1, hd.make.2.1⟩

/-- `0.0.0.0/0`. -/
def anywhere : Str := [48, 46, 48, 46, 48, 46, 48] ++ 47 :: [48]

/-- `none`. -/
def noAddress : Str := [110, 111, 110, 101]

/-- A block with no bits, for which there is no mask, and a text that is no address, with a mask
that matches 255.255.255.255. -/
theorem not_exact_default : Describes anywhere 0 0 ∧ ¬ Exact .plain [anywhere] ∧
    (∀ ip, ¬ InBlock noAddress ip) ∧ ¬ Exact .plain [noAddress] := by
  have hnone (ip : UInt32) : ¬ InBlock noAddress ip := by
    rintro ⟨addr, n, hd, -⟩
    have hdot := (hd.host_inv (by decide)).2
    exact absurd hdot.1 (by decide)
  refine ⟨.block ⟨by decide, by decide⟩ ⟨by decide, by decide⟩ (by decide),
    fun ⟨f, hf, _⟩ => ?_, hnone, fun ⟨f, hf, hall, _⟩ => ?_⟩
  · obtain ⟨m, hm⟩ := exists_make hf (List.mem_singleton_self _)
    have hstuck : CidrRange.make .plain anywhere = none := by decide
    cases hstuck.symm.trans hm
  · obtain ⟨m, hm⟩ := exists_make hf (List.mem_singleton_self _)
    exact hnone _ ((hall _ (List.mem_singleton_self _) m hm _).1 (make_net hm))

end Cidr

end Okws

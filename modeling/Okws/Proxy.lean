import Okws.Pair

namespace Okws

namespace PairTab

/-- `safe_lookup`, which is also `operator[]`. -/
def safeLookup (t : PairTab) (key : Str) : Str := match t.lookup key with
  | some (v :: _) => cstr v
  | _ => []

def existsKey (t : PairTab) (key : Str) : Bool := 0 < (t.safeLookup key).length

end PairTab

/-- The swap of bytes on a little-endian machine; it is also `htonl`. -/
def ntohl (x : UInt32) : UInt32 :=
  (x <<< 24) ||| ((x <<< 8) &&& (0xff0000 : UInt32)) ||| ((x >>> 8) &&& (0xff00 : UInt32)) |||
    (x >>> 24)

structure CidrMask where
  net : UInt32
  mask : UInt32
  deriving DecidableEq

namespace CidrMask

def matchIp (m : CidrMask) (ip : UInt32) : Bool := ip &&& m.mask == m.net

end CidrMask

abbrev CidrFilter := List CidrMask

namespace CidrFilter

def matchIp (f : CidrFilter) (ip : UInt32) : Bool := f.any (·.matchIp ip)

end CidrFilter

namespace Inet

def isDigit (b : UInt8) : Bool := 48 ≤ b && b ≤ 57

def digit (b : UInt8) : Nat :=
  if isDigit b then b.toNat - 48
  else if 97 ≤ b ∧ b ≤ 102 then b.toNat - 87
  else if 65 ≤ b ∧ b ≤ 70 then b.toNat - 55
  else 16

def digits (base : Nat) : Nat → Str → Nat × Str
  | n, [] => (n, [])
  | n, b :: s => if digit b < base then digits base (n * base + digit b) s else (n, b :: s)

/-- `strtoul` with base 0 on a string that starts with a digit, and what it leaves. -/
def strtoul : Str → Nat × Str
  | 48 :: x :: b :: s =>
    if (x = 120 ∨ x = 88) ∧ digit b < 16 then digits 16 0 (b :: s)
      else digits 8 0 (48 :: x :: b :: s)
  | 48 :: s => digits 8 0 (48 :: s)
  | s => digits 10 0 s

theorem strtoul_other {s : Str} (h : s.head? ≠ some 48) : strtoul s = digits 10 0 s := by
  unfold strtoul
  split
  · exact absurd rfl h
  · exact absurd rfl h
  · rfl

/-- The numbers between the dots, of which there are at most `k`, as one number.  The last
number takes the bytes that are left. -/
def parts : Nat → Str → Option Nat
  | k, s =>
    if !(s.head?.any isDigit) then none
    else match strtoul s with
      | (val, 46 :: s') => match k with
        | 0 => none
        | k + 1 => if val > 0xff then none else (parts k s').map (val * 256 ^ (k + 1) + ·)
      | (val, s') =>
        if s'.head?.all Byte.isSpace ∧ val < 256 ^ (k + 1) then some val else none

/-- `inet_aton`. -/
def aton (s : Str) : Option UInt32 := (parts 3 (cstr s)).map fun ip => ntohl (.ofNat ip)

/-- `inet_addr`, with `INADDR_NONE` for what is not an address. -/
def addr (s : Str) : UInt32 := (aton s).getD 0xffffffff

end Inet

def okForwardHeaders : List Str :=
  [ascii ['x', '-', 'o', 'k', 'w', 's', '-', 'r', 'e', 'a', 'l', '-', 'i', 'p'],
    ascii ['c', 'f', '-', 'c', 'o', 'n', 'n', 'e', 'c', 't', 'i', 'n', 'g', '-', 'i', 'p'],
    ascii ['x', '-', 'r', 'e', 'a', 'l', '-', 'i', 'p'],
    ascii ['x', '-', 'f', 'o', 'r', 'w', 'a', 'r', 'd', 'e', 'd', '-', 'f', 'o', 'r']]

def okrs : Str :=
  ascii ['x', '-', 'o', 'k', 'w', 's', '-', 'r', 'e', 'a', 'l', '-', 's', 'o', 'u', 'r', 'c', 'e']

def okri : Str := ascii ['x', '-', 'o', 'k', 'w', 's', '-', 'r', 'e', 'a', 'l', '-', 'i', 'p']

def getProxiedIp (hdr : PairTab) : Option Str :=
  (okForwardHeaders.find? hdr.existsKey).map hdr.safeLookup

/-- `is_internal`; `sin` is the address of the peer as `get_sin` has it. -/
def isInternal (okAllowedProxy : CidrFilter) (sin : Option UInt32) (headers : PairTab)
    (useRs : Bool) : Bool := match sin with
  | none => false
  | some a =>
    let sourceok := okAllowedProxy.matchIp (ntohl a)
    -- only for headers that are not those of okws itself
    if useRs && sourceok && headers.existsKey okrs && !headers.existsKey okri then
      okAllowedProxy.matchIp (ntohl (Inet.addr (headers.safeLookup okrs)))
    else sourceok

def getForwardedIp (headers : PairTab) : UInt32 := match getProxiedIp headers with
  | some ip => Inet.addr ip
  | none => 0

theorem isInternal_untrusted {okAllowedProxy : CidrFilter} {a : UInt32}
    (h : okAllowedProxy.matchIp (ntohl a) = false) (headers : PairTab) (useRs : Bool) :
    isInternal okAllowedProxy (some a) headers useRs = false := by
  simp [isInternal, h]

end Okws

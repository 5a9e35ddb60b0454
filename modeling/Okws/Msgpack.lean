import Okws.Lib.BigEndian
import Okws.Scalar

namespace Okws

/-- The values of pub3.  A double is its bits, a dictionary its pairs as the iterator gives
them. -/
inductive Pub3
  | null
  | bool (b : Bool)
  | int (i : Int64)
  | uint (u : UInt64)
  | double (d : UInt64)
  | str (s : Str)
  | list (xs : List Pub3)
  | dict (kvs : List (Str × Pub3))

namespace Msgpack

open BigEndian Scalar Zbuf

/-- `encode_raw_len` and `encode_len`, which differ in what goes into one byte. -/
def encodeLenWith (fix len : Nat) (b s l : UInt8) : Str :=
  if len ≤ fix then [b ||| .ofNat len]
  else if len ≤ 0xffff then s :: put 2 len
  else l :: put 4 len

def encodeRawLen : Nat → UInt8 → UInt8 → UInt8 → Str := encodeLenWith 0x1f

def encodeLen : Nat → UInt8 → UInt8 → UInt8 → Str := encodeLenWith 0xf

def encodeStr (s : Str) : Str := encodeRawLen s.length 0xa0 0xda 0xdb ++ s

namespace Outbuf

variable (jsmode : Bool)

def encodeNegativeInt (i : Int64) : Str :=
  let v := i.toUInt64.toNat
  if -32 ≤ i.toInt then put 1 v
  else if -128 ≤ i.toInt then 0xd0 :: put 1 v
  else if -32768 ≤ i.toInt then 0xd1 :: put 2 v
  else if -2147483648 ≤ i.toInt then 0xd2 :: put 4 v
  else 0xd3 :: if jsmode then encodeStr (decimal i.toInt) else put 8 v

def encodePositiveInt (u : UInt64) : Str :=
  let v := u.toNat
  if v ≤ 0x7f then put 1 v
  else if v ≤ 0xff then 0xcc :: put 1 v
  else if v ≤ 0xffff then 0xcd :: put 2 v
  else if v ≤ 0xffffffff then 0xce :: put 4 v
  else if jsmode then encodeStr (decimal v)
  else 0xcf :: put 8 v

def encodeKey (k : Str) : Option Str := match convertuint k with
  | some u => some (encodePositiveInt jsmode u)
  | none => match myConvertint k with
    | some i => if i.toInt < 0 then some (encodeNegativeInt jsmode i) else none
    | none => some (encodeStr k)

mutual

/-- `to_msgpack`, with `_jsmode` of the buffer. -/
def toMsgpack : Pub3 → Option Str
  | .null => some [0xc0]
  | .bool b => some [if b then 0xc3 else 0xc2]
  | .int i => some (if i.toInt < 0 then encodeNegativeInt jsmode i
      else encodePositiveInt jsmode i.toUInt64)
  | .uint u => some (encodePositiveInt jsmode u)
  | .double d => some (0xcb :: put 8 d.toNat)
  | .str s => some (encodeStr s)
  | .list xs => (listToMsgpack xs).map (encodeLen xs.length 0x90 0xdc 0xdd ++ ·)
  | .dict kvs => (dictToMsgpack kvs).map (encodeLen kvs.length 0x80 0xde 0xdf ++ ·)

def listToMsgpack : List Pub3 → Option Str
  | [] => some []
  | x :: xs => (toMsgpack x).bind fun s => (listToMsgpack xs).map (s ++ ·)

def dictToMsgpack : List (Str × Pub3) → Option Str
  | [] => some []
  | (k, x) :: kvs => (encodeKey jsmode k).bind fun t => (toMsgpack x).bind fun s =>
      (dictToMsgpack kvs).map (t ++ s ++ ·)

end

end Outbuf

def encodeNegativeInt : Int64 → Str := Outbuf.encodeNegativeInt false

def encodePositiveInt : UInt64 → Str := Outbuf.encodePositiveInt false

/-- `to_msgpack`, with JS mode off. -/
def toMsgpack : Pub3 → Option Str := Outbuf.toMsgpack false

/-- `_my_errno` when `unpack` returns nothing; at the end of the input it is not set. -/
inductive Errno
  | eagain
  | einval
  | none
  deriving DecidableEq

/-- The entries of `unpack_tab`, with the width of what follows. -/
inductive Hook
  | positiveFixnum
  | negativeFixnum
  | fixMap
  | fixArray
  | fixRaw
  | nil
  | bool (b : Bool)
  | float
  | double
  | uint (w : Nat)
  | int (w : Nat)
  | raw (w : Nat)
  | array (w : Nat)
  | map (w : Nat)
  deriving DecidableEq

def unpackTab (b : UInt8) : Option Hook :=
  if b ≤ 0x7f then some .positiveFixnum
  else if b ≤ 0x8f then some .fixMap
  else if b ≤ 0x9f then some .fixArray
  else if b ≤ 0xbf then some .fixRaw
  else if 0xe0 ≤ b then some .negativeFixnum
  else match b with
    | 0xc0 => some .nil
    | 0xc2 => some (.bool false)
    | 0xc3 => some (.bool true)
    | 0xca => some .float
    | 0xcb => some .double
    | 0xcc => some (.uint 1)
    | 0xcd => some (.uint 2)
    | 0xce => some (.uint 4)
    | 0xcf => some (.uint 8)
    | 0xd0 => some (.int 1)
    | 0xd1 => some (.int 2)
    | 0xd2 => some (.int 4)
    | 0xd3 => some (.int 8)
    | 0xda => some (.raw 2)
    | 0xdb => some (.raw 4)
    | 0xdc => some (.array 2)
    | 0xdd => some (.array 4)
    | 0xde => some (.map 2)
    | 0xdf => some (.map 4)
    | _ => none

def getBytes (n : Nat) (s : Str) : Except Errno (Str × Str) :=
  if n ≤ s.length then .ok (s.take n, s.drop n) else .error .eagain

/-- `insert` of a dictionary. -/
def insert (k : Str) (v : Pub3) : List (Str × Pub3) → List (Str × Pub3)
  | [] => [(k, v)]
  | (l, w) :: kvs => if l = k then (k, v) :: kvs else (l, w) :: insert k v kvs

/-- What the decoder takes from elsewhere: the texts of values that are neither numbers nor
strings, and floats as doubles. -/
structure Env where
  other : Pub3 → Option Str
  widen : Str → UInt64

variable (e : Env)

def Env.toStr : Pub3 → Option Str
  | .int i => some (decimal i.toInt)
  | .uint u => some (decimal u.toNat)
  | .str s => some s
  | x => e.other x

def unpackArray (unpack : Str → Except Errno (Pub3 × Str)) :
    Nat → Str → Except Errno (List Pub3 × Str)
  | 0, s => .ok ([], s)
  | n + 1, s => (unpack s).bind fun (x, s) =>
      (unpackArray unpack n s).map fun (xs, s) => (x :: xs, s)

def unpackMap (unpack : Str → Except Errno (Pub3 × Str)) :
    Nat → List (Str × Pub3) → Str → Except Errno (List (Str × Pub3) × Str)
  | 0, d, s => .ok (d, s)
  | n + 1, d, s => (unpack s).bind fun (k, s) => match e.toStr k with
    | none => unpackMap unpack n d s
    | some ks => (unpack s).bind fun (v, s) => unpackMap unpack n (insert ks v d) s

def unpackRaw (n : Nat) (s : Str) : Except Errno (Pub3 × Str) :=
  (getBytes n s).map fun (l, s) => (.str l, s)

/-- `unpack`; the number bounds the nesting, and the length of the input is enough. -/
def unpack : Nat → Str → Except Errno (Pub3 × Str)
  | _, [] => .error .none
  | 0, _ => .error .none
  | f + 1, b :: s =>
    let array n s := (unpackArray (unpack f) n s).map fun (xs, s) => (Pub3.list xs, s)
    let map n s := (unpackMap e (unpack f) n [] s).map fun (d, s) => (Pub3.dict d, s)
    match unpackTab b with
    | none => .error .einval
    | some .positiveFixnum => .ok (.int (.ofNat b.toNat), s)
    | some .negativeFixnum => .ok (.int (.ofInt (getInt [b])), s)
    | some .fixMap => map (b ^^^ 0x80).toNat s
    | some .fixArray => array (b ^^^ 0x90).toNat s
    | some .fixRaw => unpackRaw (b ^^^ 0xa0).toNat s
    | some .nil => .ok (.null, s)
    | some (.bool b) => .ok (.bool b, s)
    | some .float => (getBytes 4 s).map fun (l, s) => (.double (e.widen l), s)
    | some .double => (getBytes 8 s).map fun (l, s) => (.double (.ofNat (get 0 l)), s)
    | some (.uint w) => (getBytes w s).map fun (l, s) =>
        (if w = 8 then .uint (.ofNat (get 0 l)) else .int (.ofNat (get 0 l)), s)
    | some (.int w) => (getBytes w s).map fun (l, s) => (.int (.ofInt (getInt l)), s)
    | some (.raw w) => (getBytes w s).bind fun (l, s) => unpackRaw (get 0 l) s
    | some (.array w) => (getBytes w s).bind fun (l, s) => array (get 0 l) s
    | some (.map w) => (getBytes w s).bind fun (l, s) => map (get 0 l) s

/-- `decode`, with what is left of the message. -/
def decode (s : Str) : Except Errno (Pub3 × Str) := unpack e s.length s

end Msgpack

end Okws

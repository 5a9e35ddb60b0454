import Mathlib
import Okws.Scalar

namespace Okws

open Scalar Zbuf

/-- `cnv_status_t`. -/
inductive Cnv
  | none
  | ok
  | bad
  deriving DecidableEq

/-- `type_t`. -/
inductive NaturalType
  | none
  | str
  | int
  | uint
  | double
  | inf
  deriving DecidableEq

/-- What the machine and the C library make of doubles, which are their bits here. -/
structure Fp where
  ofInt : Int64 → UInt64
  ofUint : UInt64 → UInt64
  /-- `convertdouble`. -/
  convert : Str → Option UInt64
  /-- `ok_double_fmt_ext_default`. -/
  print : UInt64 → Str
  lt : UInt64 → UInt64 → Bool
  isZero : UInt64 → Bool
  add : UInt64 → UInt64 → UInt64
  sub : UInt64 → UInt64 → UInt64
  mul : UInt64 → UInt64 → UInt64
  div : UInt64 → UInt64 → UInt64
  fmod : UInt64 → UInt64 → UInt64

/-- The double of a number below `2 ^ 53`. -/
def Fp.ofNat (n : Nat) : UInt64 :=
  if n = 0 then 0 else .ofNat ((1023 + n.log2) * 2 ^ 52 + n * 2 ^ (52 - n.log2) % 2 ^ 52)

/-- Doubles of which only those of small numbers are looked at. -/
def Fp.small : Fp where
  ofInt i := ofNat i.toInt.natAbs ||| if i < 0 then 2 ^ 63 else 0
  ofUint u := ofNat u.toNat
  convert _ := none
  print _ := []
  lt _ _ := false
  isZero d := d = 0
  add d _ := d
  sub d _ := d
  mul d _ := d
  div d _ := d
  fmod d _ := d

/-- `_p_t`. -/
structure ScalarObj where
  s : Option Str := none
  doubleCnv : Cnv := .none
  intCnv : Cnv := .none
  uintCnv : Cnv := .none
  d : UInt64 := 0
  i : Int64 := 0
  u : UInt64 := 0
  naturalType : NaturalType := .none
  deriving DecidableEq

abbrev Scalars := Nat → ScalarObj

abbrev ScalarM := StateM Scalars

namespace ScalarObj

variable (F : Fp)

def ofStr (s : Str) : ScalarObj := { s := some s, naturalType := .str }

/-- `set (const str &)`. -/
def set (p : ScalarObj) (s : Str) : ScalarObj :=
  { p with s := some s, naturalType := .str, doubleCnv := .none, intCnv := .none, uintCnv := .none }

def setDouble (p : ScalarObj) (d : UInt64) : ScalarObj :=
  { p with s := some (F.print d), d := d, doubleCnv := .ok, intCnv := .bad, naturalType := .double }

def setI (p : ScalarObj) (i : Int64) : ScalarObj :=
  let p := { p with s := some (decimal i.toInt), i := i, d := F.ofInt i }
  let p := if 0 ≤ i.toInt then { p with u := i.toUInt64, uintCnv := .ok }
    else { p with uintCnv := .bad }
  { p with doubleCnv := .ok, intCnv := .ok, naturalType := .int }

def setU (p : ScalarObj) (u : UInt64) : ScalarObj :=
  let p := { p with s := some (decimal u.toNat), u := u, d := F.ofUint u }
  let p := if u.toNat < 2 ^ 63 then { p with i := u.toInt64, intCnv := .ok }
    else { p with intCnv := .bad }
  { p with doubleCnv := .ok, uintCnv := .ok, naturalType := .uint }

def setInf (p : ScalarObj) : ScalarObj :=
  { p with s := none, doubleCnv := .bad, intCnv := .bad, uintCnv := .bad, d := 0, i := 0, u := 0,
           naturalType := .inf }

def isInf (p : ScalarObj) : Bool := p.naturalType = .inf

/-- `to_int64 ()`, which gives `_i` and keeps the result. -/
def toInt64 (p : ScalarObj) : ScalarObj :=
  if p.intCnv = .none then
    if p.uintCnv = .ok then
      if p.u.toNat < 2 ^ 63 then { p with i := p.u.toInt64, intCnv := .ok }
      else { p with i := 0, intCnv := .bad }
    else match p.s.bind myConvertint with
      | some i => { p with i := i, intCnv := .ok }
      | none => { p with i := 0, intCnv := .bad }
  else p

/-- `to_uint64 ()`, which gives `_u` and keeps the result. -/
def toUint64 (p : ScalarObj) : ScalarObj :=
  if p.uintCnv = .none then
    if p.intCnv = .ok then
      if 0 ≤ p.i.toInt then { p with u := p.i.toUInt64, uintCnv := .ok }
      else { p with u := 0, uintCnv := .bad }
    else match p.s.bind convertuint with
      | some u => { p with u := u, uintCnv := .ok }
      | none => { p with u := 0, uintCnv := .bad }
  else p

/-- `to_double ()`, which gives `_d` and keeps the result. -/
def toDouble (p : ScalarObj) : ScalarObj :=
  if p.doubleCnv = .none then
    match p.s.bind F.convert with
    | some d => { p with d := d, doubleCnv := .ok }
    | none => { p with d := 0, doubleCnv := .bad }
  else p

/-- What `to_int64 (int64_t *)` finds behind `to_int64 ()`. -/
def int? (p : ScalarObj) : Option Int64 := if p.intCnv = .ok then some p.i else none

/-- What `to_uint64 (u_int64_t *)` finds behind `to_uint64 ()`. -/
def uint? (p : ScalarObj) : Option UInt64 := if p.uintCnv = .ok then some p.u else none

def toStr (p : ScalarObj) : Str := p.s.getD []

end ScalarObj

namespace ScalarM

open ScalarObj

variable (F : Fp)

def on {α : Type} (f : ScalarObj → ScalarObj) (get : ScalarObj → α) (a : Nat) : ScalarM α :=
  fun st => (get (f (st a)), Function.update st a (f (st a)))

/-- `to_int64 (int64_t *)`. -/
def int64 (a : Nat) : ScalarM (Option Int64) := on toInt64 int? a

/-- `to_uint64 (u_int64_t *)`. -/
def uint64 (a : Nat) : ScalarM (Option UInt64) := on toUint64 uint? a

/-- `to_double ()`. -/
def double (a : Nat) : ScalarM UInt64 := on (toDouble F) ScalarObj.d a

def str (a : Nat) : ScalarM Str := fun st => ((st a).toStr, st)

def naturalType (a : Nat) : ScalarM NaturalType := fun st => ((st a).naturalType, st)

/-- `&&` between two conversions: the second one is made only if there is a result of the first. -/
def both {α β : Type} (x : ScalarM (Option α)) (y : ScalarM (Option β)) :
    ScalarM (Option (α × β)) := do
  match ← x with
  | none => return none
  | some a => return (← y).map fun b => (a, b)

def toBool (a : Nat) : ScalarM Bool := do
  match ← int64 a with
  | some i => return i ≠ 0
  | none => return (← str a) ≠ []

/-- The macro `CMP`. -/
def compare {α : Type} (lt : α → α → Bool) (x y : α) : Int :=
  if lt y x then 1 else if lt x y then -1 else 0

/-- `str::cmp`, of which only the sign matters. -/
def strCmp : Str → Str → Int := compare fun s t => s < t

/-- The branches of `cmp` behind the one for doubles. -/
def cmpIntegers (a b : Nat) : ScalarM Int := do
  match ← both (uint64 a) (uint64 b) with
  | some (u1, u2) => return compare (· < ·) u1 u2
  | none =>
  match ← both (int64 a) (int64 b) with
  | some (i1, i2) => return compare (· < ·) i1 i2
  | none =>
  match ← both (uint64 a) (int64 b) with
  | some _ => return compare (fun x y : Int => x < y) 1 (-1)
  | none =>
  match ← both (int64 a) (uint64 b) with
  | some _ => return compare (fun x y : Int => x < y) (-1) 1
  | none => return strCmp (← str a) (← str b)

def cmp (a b : Nat) : ScalarM Int := do
  let me ← naturalType a
  let him ← naturalType b
  if me = .double ∨ him = .double then
    let d1 ← double F a
    let d2 ← double F b
    return compare F.lt d1 d2
  cmpIntegers a b

/-- What signed arithmetic of C makes of a result: undefined if it does not fit. -/
def signed (z : Int) : Option Int64 :=
  if -2 ^ 63 ≤ z ∧ z < 2 ^ 63 then some (.ofInt z) else none

/-- The four branches for integers that `operator+`, `operator-` and `operator*` have. -/
def integers (a b : Nat) (ii : Int64 → Int64 → Option ScalarObj)
    (uu : UInt64 → UInt64 → ScalarObj) (iu : Int64 → UInt64 → ScalarObj)
    (ui : UInt64 → Int64 → ScalarObj) : ScalarM (Option ScalarObj) := do
  match ← both (int64 a) (int64 b) with
  | some (i1, i2) => return ii i1 i2
  | none =>
  match ← both (uint64 a) (uint64 b) with
  | some (u1, u2) => return some (uu u1 u2)
  | none =>
  match ← both (int64 a) (uint64 b) with
  | some (i1, u2) => return some (iu i1 u2)
  | none =>
  match ← both (uint64 a) (int64 b) with
  | some (u1, i2) => return some (ui u1 i2)
  | none => return some {}

/-- `operator+`; nothing if a signed addition overflows. -/
def plus (a b : Nat) : ScalarM (Option ScalarObj) := do
  let me ← naturalType a
  let him ← naturalType b
  let ret : ScalarObj := {}
  if me = .str ∨ him = .str then
    return some (ret.set ((← str a) ++ (← str b)))
  if me = .double ∨ him = .double then
    return some (ret.setDouble F (F.add (← double F a) (← double F b)))
  integers a b
    (fun i1 i2 => (signed (i1.toInt + i2.toInt)).map (ret.setI F))
    (fun u1 u2 => ret.setU F (u1 + u2))
    (fun i1 u2 => ret.setI F (i1.toUInt64 + u2).toInt64)
    (fun u1 i2 => ret.setI F (u1 + i2.toUInt64).toInt64)

/-- `operator-`. -/
def minus (a b : Nat) : ScalarM (Option ScalarObj) := do
  let me ← naturalType a
  let him ← naturalType b
  let ret : ScalarObj := {}
  if me = .str ∨ him = .str then return some ret
  if me = .double ∨ him = .double then
    return some (ret.setDouble F (F.sub (← double F a) (← double F b)))
  integers a b
    (fun i1 i2 => (signed (i1.toInt - i2.toInt)).map (ret.setI F))
    (fun u1 u2 => ret.setI F (u1 - u2).toInt64)
    (fun i1 u2 => ret.setI F (i1.toUInt64 - u2).toInt64)
    (fun u1 i2 => ret.setI F (u1 - i2.toUInt64).toInt64)

/-- The text and the number of times that `operator*` repeats it. -/
def repeats (a b : Nat) : ScalarM (Option (Str × Int64)) := do
  if (← naturalType a) = .str then
    match ← int64 b with
    | some i2 => if i2.toInt < 0x100 then return some (← str a, i2) else return none
    | none => return none
  return none

/-- `operator*`. -/
def times (a b : Nat) : ScalarM (Option ScalarObj) := do
  let me ← naturalType a
  let him ← naturalType b
  let out : ScalarObj := {}
  match ← repeats a b with
  | some (s1, i2) => return some (out.set (List.replicate i2.toInt.toNat s1).flatten)
  | none =>
  if me = .str ∨ him = .str then return some out
  if me = .double ∨ him = .double then
    return some (out.setDouble F (F.mul (← double F a) (← double F b)))
  integers a b
    (fun i1 i2 => (signed (i1.toInt * i2.toInt)).map (out.setI F))
    (fun u1 u2 => out.setU F (u1 * u2))
    (fun i1 u2 => out.setI F (i1.toUInt64 * u2).toInt64)
    (fun u1 i2 => out.setI F (u1 * i2.toUInt64).toInt64)

/-- The macro `OP` on signed integers: nothing if the machine traps, which it also does if only the
quotient does not fit. -/
def opSigned (div : Bool) (i1 i2 : Int64) : Option Int64 :=
  if i2 = 0 then none
  else (signed (i1.toInt.tdiv i2.toInt)).map fun q =>
    if div then q else .ofInt (i1.toInt.tmod i2.toInt)

/-- The macro `OP` if an operand is unsigned. -/
def opUnsigned (div : Bool) (u1 u2 : UInt64) : Option UInt64 :=
  if u2 = 0 then none else some (if div then u1 / u2 else u1 % u2)

/-- A branch of `div_or_mod`: the operands if there are both, and `ok` if they are. -/
def branch {α β : Type} (isZero : β → Bool) (ok : Bool) (x : ScalarM (Option (α × β))) :
    ScalarM (Bool × Option (α × β)) := do
  match ← x with
  | none => return (ok, none)
  | some (a, b) => return if isZero b then (false, none) else (true, some (a, b))

def divOrMod (div : Bool) (a b : Nat) : ScalarM (Option ScalarObj) := do
  let me ← naturalType a
  let him ← naturalType b
  let out : ScalarObj := {}
  if me = .str ∨ him = .str then return some out
  if me = .double ∨ him = .double then
    let d1 ← double F a
    let d2 ← double F b
    if F.isZero d2 then return some out.setInf
    return some (out.setDouble F (if div then F.div d1 d2 else F.fmod d1 d2))
  match ← branch (· = 0) true (both (int64 a) (int64 b)) with
  | (_, some (i1, i2)) => return (opSigned div i1 i2).map (out.setI F)
  | (ok, none) =>
  match ← branch (· = 0) ok (both (uint64 a) (uint64 b)) with
  | (_, some (u1, u2)) => return (opUnsigned div u1 u2).map (out.setU F)
  | (ok, none) =>
  match ← branch (· = 0) ok (both (int64 a) (uint64 b)) with
  | (_, some (i1, u2)) => return (opUnsigned div i1.toUInt64 u2).map (out.setI F ·.toInt64)
  | (ok, none) =>
  match ← branch (· = 0) ok (both (uint64 a) (int64 b)) with
  | (_, some (u1, i2)) => return (opUnsigned div u1 i2.toUInt64).map (out.setI F ·.toInt64)
  | (ok, none) => return some (if ok then out else out.setInf)

end ScalarM

end Okws

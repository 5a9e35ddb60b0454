import Mathlib.Data.List.Forall2
import Mathlib.Logic.Function.Basic
import Okws.Byte

/-! `json_encoder_t` and `json_decoder_t`: what the traversal of a value makes of it, and back. -/

namespace Okws.JsonRpc

/-- What a type is built from; structures and unions have names, so that they may be recursive. -/
inductive Ty
  | int32 | uint32 | int64 | uint64
  | string
  | bytes
  | bigint
  | struct (name : Nat)
  | array (t : Ty)
  | union (name : Nat)
  | pointer (t : Ty)

inductive Val
  | int32 (n : Int32)
  | uint32 (n : UInt32)
  | int64 (n : Int64)
  | uint64 (n : UInt64)
  | string (s : Str)
  | bytes (s : Str)
  | bigint (n : Int)
  | struct (vs : List Val)
  | array (vs : List Val)
  | union (tag : Int32) (arm : Option Val)
  | pointer (v : Option Val)

instance : Inhabited Val := ⟨.bigint 0⟩

/-- The declarations: the fields of a structure, and the name of a union's tag with the arm, perhaps
void, of each of its values. -/
structure Decls where
  struct : Nat → List (Str × Ty)
  tag : Nat → Str
  arm : Nat → Int32 → Option (Option (Str × Ty))
  fields : ∀ s, struct s ≠ [] ∧ ((struct s).map Prod.fst).Nodup
  arms : ∀ u k f t, arm u k = some (some (f, t)) → f ≠ tag u

/-- The functions of a `v_XDR_t` that a traversal calls.  A failure keeps the state. -/
structure VXdr (σ : Type) where
  int32 : Int32 → σ → Except σ (Int32 × σ)
  uint32 : UInt32 → σ → Except σ (UInt32 × σ)
  int64 : Int64 → σ → Except σ (Int64 × σ)
  uint64 : UInt64 → σ → Except σ (UInt64 × σ)
  string : Str → σ → Except σ (Str × σ)
  bytes : Str → σ → Except σ (Str × σ)
  bigint : Int → σ → Except σ (Int × σ)
  enterField : Str → σ → Except σ σ
  exitField : Str → σ → Except σ σ
  enterArray : Nat → σ → Except σ (Nat × σ)
  exitArray : σ → Except σ σ
  enterSlot : Nat → σ → Except σ σ
  exitSlot : Nat → σ → Except σ σ
  enterPointer : Bool → σ → Except σ (Bool × σ)
  exitPointer : Bool → σ → Except σ σ

section Traverse

variable {σ : Type} (X : VXdr σ) (decls : Decls)

def field (go : Ty → Val → σ → Except σ (Val × σ)) (f : Str × Ty) (v : Val) (s : σ) :
    Except σ (Val × σ) := do
  let s ← X.enterField f.1 s
  let (v, s) ← go f.2 v s
  let s ← X.exitField f.1 s
  return (v, s)

def fields (go : Ty → Val → σ → Except σ (Val × σ)) :
    List (Str × Ty) → List Val → σ → Except σ (List Val × σ)
  | [], _, s => .ok ([], s)
  | f :: fs, vs, s => do
    let (v, s) ← field X go f vs.head! s
    let (vs, s) ← fields go fs vs.tail s
    return (v :: vs, s)

def slots (go : Val → σ → Except σ (Val × σ)) :
    Nat → Nat → List Val → σ → Except σ (List Val × σ)
  | 0, _, _, s => .ok ([], s)
  | k + 1, i, vs, s => do
    let s ← X.enterSlot i s
    let (v, s) ← go vs.head! s
    let s ← X.exitSlot i s
    let (vs, s) ← slots go k (i + 1) vs.tail s
    return (v :: vs, s)

namespace Val

def items : Val → List Val
  | .struct vs | .array vs => vs
  | _ => []

def selector : Val → Int32
  | .union tag _ => tag
  | _ => 0

def inner : Val → Option Val
  | .union _ v | .pointer v => v
  | _ => none

end Val

/-- The generated code: it goes through the object that it is given, and changes it to what the
`v_XDR_t` says.  The first argument bounds the depth. -/
def traverse : Nat → Ty → Val → σ → Except σ (Val × σ)
  | 0, _, _, s => .error s
  | n + 1, t, v, s => match t with
    | .int32 => (X.int32 (match v with | .int32 k => k | _ => 0) s).map fun r => (.int32 r.1, r.2)
    | .uint32 =>
      (X.uint32 (match v with | .uint32 k => k | _ => 0) s).map fun r => (.uint32 r.1, r.2)
    | .int64 => (X.int64 (match v with | .int64 k => k | _ => 0) s).map fun r => (.int64 r.1, r.2)
    | .uint64 =>
      (X.uint64 (match v with | .uint64 k => k | _ => 0) s).map fun r => (.uint64 r.1, r.2)
    | .string =>
      (X.string (match v with | .string k => k | _ => []) s).map fun r => (.string r.1, r.2)
    | .bytes => (X.bytes (match v with | .bytes k => k | _ => []) s).map fun r => (.bytes r.1, r.2)
    | .bigint =>
      (X.bigint (match v with | .bigint k => k | _ => 0) s).map fun r => (.bigint r.1, r.2)
    | .struct name => do
      let (vs, s) ← fields X (traverse n) (decls.struct name) v.items s
      return (.struct vs, s)
    | .array t => do
      let (k, s) ← X.enterArray v.items.length s
      let (vs, s) ← slots X (traverse n t) k 0 v.items s
      let s ← X.exitArray s
      return (.array vs, s)
    | .union name => do
      let s ← X.enterField (decls.tag name) s
      let (tag, s) ← X.int32 v.selector s
      let s ← X.exitField (decls.tag name) s
      match decls.arm name tag with
      | none => .error s
      | some none => return (.union tag none, s)
      | some (some f) => do
        let (v, s) ← field X (traverse n) f (v.inner.getD default) s
        return (.union tag (some v), s)
    | .pointer t => do
      let (nonnil, s) ← X.enterPointer v.inner.isSome s
      if nonnil then
        let (v, s) ← traverse n t (v.inner.getD default) s
        let s ← X.exitPointer nonnil s
        return (.pointer (some v), s)
      else
        let s ← X.exitPointer nonnil s
        return (.pointer none, s)

end Traverse

/-- As much of `pub3::expr_t` as there is to traverse; what is inside is on the heap. -/
inductive Node
  | null
  | int (n : Int)
  | uint (n : Nat)
  | str (s : Str)
  | list (l : List (Option Nat))
  | dict (tab : Str → Option Nat)

namespace Node

def typeToStr : Node → Str
  | .null => ascii "null".toList
  | .int _ => ascii "int".toList
  | .uint _ => ascii "uint".toList
  | .str _ => ascii "str".toList
  | .list _ => ascii "list".toList
  | .dict _ => ascii "dict".toList

end Node

/-- The conversions that are made elsewhere: `armor64` and its inverse, the digits of a `bigint`,
and what `to_int`, `to_uint` and `to_str` make of expressions of other types. -/
structure Conv where
  armor64 : Str → Str
  dearmor64 : Str → Option Str
  getstr : Int → Str
  toInt : Str → Option Int
  toUint : Str → Option Nat
  toStr : Node → Option Str

/-- `obj_ref_t`: a place where an expression is put. -/
inductive Ref
  | plain
  | dict (d : Nat) (key : Str)
  | list (l : Nat) (i : Nat)

namespace Ref

def target : Ref → Option Nat
  | .plain => none
  | .dict d _ => some d
  | .list l _ => some l

/-- `expr_list_t::set`: what lies in front of the index is filled with null pointers. -/
def put (x : Nat) : Ref → Node → Node
  | .dict _ key, .dict tab => .dict (Function.update tab key (some x))
  | .list _ i, .list l => .list ((l ++ List.replicate (i + 1 - l.length) none).set i (some x))
  | _, n => n

end Ref

/-- `json_encoder_t`; the back of a stack is the head of its list. -/
structure Enc where
  heap : List Node := []
  root : Option Nat := none
  objStack : List (Option Nat) := [none]
  refStack : List Ref := [.plain]
  debug : List Str := []

def slotName (i : Nat) : Str := [91] ++ (Nat.toDigits 10 i).map Char.toUInt8 ++ [93]

namespace Enc

variable (s : Enc)

def setTop (x : Nat) : Except Enc Enc := match s.objStack, s.refStack with
  | _ :: os, r :: _ => .ok { s with
      objStack := some x :: os
      root := match r with | .plain => some x | _ => s.root
      heap := match r.target with | none => s.heap | some d => s.heap.modify d (r.put x) }
  | _, _ => .error s

def setNew (n : Node) : Except Enc Enc := setTop { s with heap := s.heap ++ [n] } s.heap.length

def pushRef (r : Ref) : Enc :=
  { s with objStack := none :: s.objStack, refStack := r :: s.refStack }

def popRef : Enc := { s with objStack := s.objStack.tail, refStack := s.refStack.tail }

/-- `top_dict`; the failures are those of its assertions. -/
def topDict : Except Enc (Nat × Enc) := match s.objStack with
  | none :: _ => (s.setNew (.dict fun _ => none)).map fun t => (s.heap.length, t)
  | some d :: _ => match s.heap[d]? with
    | some (.dict _) => .ok (d, s)
    | _ => .error s
  | [] => .error s

def topList : Except Enc Nat := match s.objStack with
  | some l :: _ => match s.heap[l]? with
    | some (.list _) => .ok l
    | _ => .error s
  | _ => .error s

/-- `exit_field` leaves the name in `debug`. -/
def enterField (f : Str) : Except Enc Enc := do
  let (d, s) ← topDict { s with debug := f :: s.debug }
  return s.pushRef (.dict d f)

def enterSlot (i : Nat) : Except Enc Enc := do
  let s := { s with debug := slotName i :: s.debug }
  let l ← s.topList
  return s.pushRef (.list l i)

def exitSlot : Enc := popRef { s with debug := s.debug.tail }

def xdr (conv : Conv) : VXdr Enc where
  int32 k s := (s.setNew (.int k.toInt)).map fun s => (k, s)
  uint32 k s := (s.setNew (.int k.toNat)).map fun s => (k, s)
  int64 k s := (s.setNew (.int k.toInt)).map fun s => (k, s)
  uint64 k s := (s.setNew (.uint k.toNat)).map fun s => (k, s)
  string k s := (s.setNew (.str k)).map fun s => (k, s)
  bytes k s := (s.setNew (.str (conv.armor64 k))).map fun s => (k, s)
  bigint k s := (s.setNew (.str (conv.getstr k))).map fun s => (k, s)
  enterField f s := s.enterField f
  exitField _ s := .ok s.popRef
  enterArray k s := (s.setNew (.list [])).map fun s => (k, s)
  exitArray s := .ok s
  enterSlot i s := s.enterSlot i
  exitSlot _ s := .ok s.exitSlot
  enterPointer nonnil s := do
    let s ← s.setNew (.list [])
    if nonnil then return (nonnil, ← s.enterSlot 0) else return (nonnil, s)
  exitPointer nonnil s := .ok (if nonnil then s.exitSlot else s)

end Enc

/-- `json_decoder_t`. -/
structure Dec where
  objStack : List (Option Nat)
  debug : List Str := []
  errMsg : Option Str := none

namespace Dec

variable (conv : Conv) (heap : List Node) (s : Dec)

def path : List Str → Str
  | [] => []
  | el :: els => el ++ els.flatMap fun el => if el.head? = some 91 then el else 46 :: el

def errorGeneric (msg : Str) : Dec :=
  { s with errMsg := some (ascii "at field ".toList ++ path s.debug.reverse ++
      ascii ": ".toList ++ msg) }

def errorEmpty (typ : Str) : Dec :=
  s.errorGeneric (ascii "empty field; expected type ".toList ++ typ)

def errorWrongType (typ : Str) (x : Node) : Dec :=
  s.errorGeneric (ascii "got type ".toList ++ x.typeToStr ++ ascii "; expected ".toList ++ typ)

/-- The expression at the top, unless `is_empty`. -/
def top : Option Node := match s.objStack with
  | some x :: _ => match heap[x]? with
    | some .null => none
    | o => o
  | _ => none

/-- What the conversion makes of the expression at the top. -/
def read {α : Type} (empty typ : Str) (view : Node → Option α) : Except Dec α :=
  match s.top heap with
  | none => .error (s.errorEmpty empty)
  | some x => match view x with
    | none => .error (s.errorWrongType typ x)
    | some a => .ok a

def toInt : Node → Option Int
  | .int n => some n
  | .uint n => if n < 2 ^ 63 then some n else none
  | .str s => conv.toInt s
  | _ => none

def toUint : Node → Option Nat
  | .uint n => some n
  | .int n => if 0 ≤ n then some n.toNat else none
  | .str s => conv.toUint s
  | _ => none

def toStr : Node → Option Str
  | .str s => some s
  | x => conv.toStr x

def toList : Node → Option (List (Option Nat))
  | .list l => some l
  | _ => none

def toDict : Node → Option (Str → Option Nat)
  | .dict tab => some tab
  | _ => none

def int : Str := ascii "int".toList
def uint : Str := ascii "uint".toList
def string : Str := ascii "string".toList
def array : Str := ascii "array".toList
def arrayPointer : Str := ascii "array/pointer".toList
def dictionary : Str := ascii "dictionary".toList
def bigint : Str := ascii "bigint".toList

def decimal (n : Int) : Str :=
  (if n < 0 then [45] else []) ++ (Nat.toDigits 10 n.natAbs).map Char.toUInt8

def outOfRange (typ : Str) (n : Int) : Str :=
  typ ++ ascii " is out of range (value was ".toList ++ decimal n ++ ascii ")".toList

def push (x : Option Nat) : Dec := { s with objStack := x :: s.objStack }

/-- A field that is not there is an error, and a null pointer on the stack. -/
def enterField (f : Str) : Dec :=
  let s := { s with debug := f :: s.debug }
  match s.read heap dictionary dictionary toDict with
  | .error s => s.push none
  | .ok tab => match tab f with
    | none => (s.errorGeneric
        (ascii "cannot find field '".toList ++ f ++ ascii "'".toList)).push none
    | some x => s.push (some x)

def enterSlot (i : Nat) : Dec :=
  let s := { s with debug := slotName i :: s.debug }
  match s.read heap array array toList with
  | .error s => s.push none
  | .ok l =>
    if i < l.length then s.push (l.getD i none)
    else (s.errorGeneric (ascii "array slot ".toList ++ decimal i ++
      ascii " is out of bound\n".toList)).push none

def exit : Dec := { s with objStack := s.objStack.tail, debug := s.debug.tail }

/-- A `bigint` is set to whether there is a string. -/
def xdr : VXdr Dec where
  int32 _ s := (s.read heap int int (toInt conv)).bind fun n =>
    if 2 ^ 31 ≤ n ∨ n < -2 ^ 31 then
      .error (s.errorGeneric (outOfRange (ascii "int32_t".toList) n))
    else .ok (Int32.ofInt n, s)
  uint32 _ s := (s.read heap int int (toInt conv)).bind fun n =>
    if 2 ^ 32 ≤ n ∨ n < 0 then
      .error (s.errorGeneric (outOfRange (ascii "u_int32_t".toList) n))
    else .ok (UInt32.ofNat n.toNat, s)
  int64 _ s := (s.read heap int int (toInt conv)).map fun n => (Int64.ofInt n, s)
  uint64 _ s := (s.read heap uint uint (toUint conv)).map fun n => (UInt64.ofNat n, s)
  string _ s := (s.read heap string string (toStr conv)).map fun k => (k, s)
  bytes _ s := (s.read heap string string (toStr conv)).bind fun k => match conv.dearmor64 k with
    | none => .error (s.errorGeneric (ascii "failed to base-64 decode input string".toList))
    | some k => .ok (k, s)
  bigint _ s := (s.read heap bigint string (toStr conv)).map fun _ => (1, s)
  enterField f s := .ok (s.enterField heap f)
  exitField _ s := .ok s.exit
  enterArray _ s := (s.read heap array array toList).map fun l => (l.length, s)
  exitArray s := .ok s
  enterSlot i s := .ok (s.enterSlot heap i)
  exitSlot _ s := .ok s.exit
  enterPointer _ s := (s.read heap arrayPointer arrayPointer toList).map fun l => match l with
    | [] => (false, s.push none)
    | x :: _ => (true, s.push x)
  exitPointer _ s := .ok { s with objStack := s.objStack.tail }

end Dec

mutual

/-- What is left of a value: of every `bigint` it is known that there was one. -/
def Val.norm : Val → Val
  | .bigint _ => .bigint 1
  | .struct vs => .struct (normList vs)
  | .array vs => .array (normList vs)
  | .union tag arm => .union tag (normOption arm)
  | .pointer v => .pointer (normOption v)
  | v => v

def Val.normList : List Val → List Val
  | [] => []
  | v :: vs => v.norm :: normList vs

def Val.normOption : Option Val → Option Val
  | none => none
  | some v => some v.norm

end

mutual

def Val.OnesOnly : Val → Prop
  | .bigint n => n = 1
  | .struct vs | .array vs => OnesOnlyList vs
  | .union _ v | .pointer v => OnesOnlyOption v
  | _ => True

def Val.OnesOnlyList : List Val → Prop
  | [] => True
  | v :: vs => v.OnesOnly ∧ OnesOnlyList vs

def Val.OnesOnlyOption : Option Val → Prop
  | none => True
  | some v => v.OnesOnly

end

mutual

theorem Val.norm_eq_iff : ∀ v : Val, v.norm = v ↔ v.OnesOnly
  | .bigint n => by simp [norm, OnesOnly, eq_comm]
  | .struct vs => by simp [norm, OnesOnly, normList_eq_iff vs]
  | .array vs => by simp [norm, OnesOnly, normList_eq_iff vs]
  | .union _ arm => by simp [norm, OnesOnly, normOption_eq_iff arm]
  | .pointer v => by simp [norm, OnesOnly, normOption_eq_iff v]
  | .int32 _ | .uint32 _ | .int64 _ | .uint64 _ | .string _ | .bytes _ => by simp [norm, OnesOnly]

theorem Val.normList_eq_iff : ∀ vs : List Val, normList vs = vs ↔ OnesOnlyList vs
  | [] => by simp [normList, OnesOnlyList]
  | v :: vs => by simp [normList, OnesOnlyList, norm_eq_iff v, normList_eq_iff vs]

theorem Val.normOption_eq_iff : ∀ v : Option Val, normOption v = v ↔ OnesOnlyOption v
  | none => by simp [normOption, OnesOnlyOption]
  | some v => by simp [normOption, OnesOnlyOption, norm_eq_iff v]

end

/-- The type of a value without parts, and its expression. -/
def Val.type : Val → Option Ty
  | .int32 _ => some .int32
  | .uint32 _ => some .uint32
  | .int64 _ => some .int64
  | .uint64 _ => some .uint64
  | .string _ => some .string
  | .bytes _ => some .bytes
  | .bigint _ => some .bigint
  | _ => none

def Val.node (conv : Conv) : Val → Node
  | .int32 k => .int k.toInt
  | .uint32 k => .int k.toNat
  | .int64 k => .int k.toInt
  | .uint64 k => .uint k.toNat
  | .string k => .str k
  | .bytes k => .str (conv.armor64 k)
  | .bigint k => .str (conv.getstr k)
  | _ => .null

section Typing

variable (conv : Conv) (decls : Decls)

/-- A value of the type, of a depth of at most the first argument. -/
def WellTyped : Nat → Ty → Val → Prop
  | 0, _, _ => False
  | n + 1, t, v => match t, v with
    | .struct name, .struct vs => List.Forall₂ (fun f v => WellTyped n f.2 v) (decls.struct name) vs
    | .array t, .array vs => ∀ v ∈ vs, WellTyped n t v
    | .union name, .union tag arm => match decls.arm name tag with
      | none => False
      | some none => arm = none
      | some (some f) => ∃ v, arm = some v ∧ WellTyped n f.2 v
    | .pointer t, .pointer v => ∀ w, v = some w → WellTyped n t w
    | t, v => v.type = some t

/-- The expression is that of the value, and it and its parts are not below `lo`. -/
def Rep (lo : Nat) (heap : List Node) : Nat → Ty → Val → Nat → Prop
  | 0, _, _, _ => False
  | n + 1, t, v, x => lo ≤ x ∧ match t, v with
    | .struct name, .struct vs => ∃ tab, heap[x]? = some (.dict tab) ∧
      List.Forall₂ (fun f v => ∃ y, tab f.1 = some y ∧ Rep lo heap n f.2 v y)
        (decls.struct name) vs
    | .array t, .array vs => ∃ l, heap[x]? = some (.list l) ∧
      List.Forall₂ (fun o v => ∃ y, o = some y ∧ Rep lo heap n t v y) l vs
    | .union name, .union tag arm => ∃ tab y, heap[x]? = some (.dict tab) ∧
      tab (decls.tag name) = some y ∧ lo ≤ y ∧ heap[y]? = some (.int tag.toInt) ∧
      match decls.arm name tag with
      | none => False
      | some none => arm = none
      | some (some f) => ∃ v z, arm = some v ∧ tab f.1 = some z ∧ Rep lo heap n f.2 v z
    | .pointer t, .pointer v => match v with
      | none => heap[x]? = some (.list [])
      | some w => ∃ y, heap[x]? = some (.list [some y]) ∧ Rep lo heap n t w y
    | t, v => v.type = some t ∧ heap[x]? = some (v.node conv)

end Typing

section Proofs

variable {conv : Conv} {decls : Decls} {heap heap' : List Node} {lo lo' n x d : Nat} {t : Ty}
  {v : Val} {s s' s₁ : Enc} {r : Ref}

theorem WellTyped.succ (h : WellTyped decls n t v) : WellTyped decls (n + 1) t v := by
  induction n generalizing t v with
  | zero => cases h
  | succ n ih =>
    unfold WellTyped at h ⊢
    split at h
    · exact h.imp fun _ _ h => ih h
    · exact fun w hw => ih (h w hw)
    · split at h
      · exact h
      · next ha => exact h
      · next f ha =>
        obtain ⟨w, hw, h⟩ := h
        exact ⟨w, hw, ih h⟩
    · exact fun w hw => ih (h w hw)
    · exact h

theorem WellTyped.mono {m : Nat} (h : WellTyped decls n t v) (hm : n ≤ m) :
    WellTyped decls m t v := by
  induction hm with
  | refl => exact h
  | step _ ih => exact ih.succ

theorem Rep.frame (h : Rep conv decls lo heap n t v x) (hlo : lo' ≤ lo)
    (hheap : ∀ id ≥ lo, ∀ node, heap[id]? = some node → heap'[id]? = some node) :
    Rep conv decls lo' heap' n t v x := by
  induction n generalizing t v x with
  | zero => cases h
  | succ n ih =>
    unfold Rep at h ⊢
    obtain ⟨hx, h⟩ := h
    refine ⟨Nat.le_trans hlo hx, ?_⟩
    split at h
    · obtain ⟨tab, htab, h⟩ := h
      exact ⟨tab, hheap x hx _ htab, h.imp fun _ _ ⟨y, hy, h⟩ => ⟨y, hy, ih h⟩⟩
    · obtain ⟨l, hl, h⟩ := h
      exact ⟨l, hheap x hx _ hl, h.imp fun _ _ ⟨y, hy, h⟩ => ⟨y, hy, ih h⟩⟩
    · obtain ⟨tab, y, htab, hy, hlo', htag, h⟩ := h
      refine ⟨tab, y, hheap x hx _ htab, hy, Nat.le_trans hlo hlo', hheap y hlo' _ htag, ?_⟩
      split at h
      · exact h
      · exact h
      · obtain ⟨w, z, hw, hz, h⟩ := h
        exact ⟨w, z, hw, hz, ih h⟩
    · split at h
      · exact hheap x hx _ h
      · obtain ⟨y, hy, h⟩ := h
        exact ⟨y, hheap x hx _ hy, ih h⟩
    · exact ⟨h.1, hheap x hx _ h.2⟩

/-- A value was written to the place `r`, as the expression `x`. -/
structure Wrote (r : Ref) (s s' : Enc) (x : Nat) : Prop where
  objs : s'.objStack = some x :: s.objStack.tail
  refs : s'.refStack = s.refStack
  root : s'.root = match r with | .plain => some x | _ => s.root
  grows : s.heap.length ≤ s'.heap.length
  heap : ∀ id < s.heap.length,
    s'.heap[id]? = (s.heap[id]?).map fun node => if r.target = some id then r.put x node else node

/-- The place at the top of the stack is there. -/
structure Ready (r : Ref) (s : Enc) : Prop where
  objs : s.objStack ≠ []
  refs : s.refStack.head? = some r
  target : ∀ d, r.target = some d → d < s.heap.length

theorem setNew_spec (h : Ready r s) (node : Node) : ∃ s', s.setNew node = .ok s' ∧
    Wrote r s s' s.heap.length ∧ s'.heap[s.heap.length]? = some node ∧
    s'.heap.length = s.heap.length + 1 ∧ s'.debug = s.debug := by
  obtain ⟨o, os, ho⟩ := List.exists_cons_of_ne_nil h.objs
  obtain ⟨rs, hrs⟩ : ∃ rs, s.refStack = r :: rs := by
    have hrefs := h.refs
    cases hr : s.refStack with
    | nil => rw [hr] at hrefs; cases hrefs
    | cons r' rs =>
      rw [hr] at hrefs
      cases hrefs
      exact ⟨rs, rfl⟩
  unfold Enc.setNew Enc.setTop
  simp only [ho, hrs]
  refine ⟨_, rfl, ⟨?_, hrs.symm, rfl, ?_, fun id hid => ?_⟩, ?_, ?_, rfl⟩
  · rw [ho]
    rfl
  · cases r.target <;> simp
  · cases hd : r.target with
    | none => simp [List.getElem?_append_left hid]
    | some d =>
      rw [List.getElem?_modify, List.getElem?_append_left hid]
      cases s.heap[id]? <;> simp
  · cases hd : r.target with
    | none => simp
    | some d =>
      have hne := h.target d hd
      rw [List.getElem?_modify]
      simp
      omega
  · cases r.target <;> simp

theorem traverse_scalar (h : v.type = some t) (s : Enc) :
    traverse (Enc.xdr conv) decls (n + 1) t v s =
      (s.setNew (v.node conv)).map fun s => (v, s) := by
  cases v <;> cases h <;> simp only [traverse, Enc.xdr, Val.node] <;>
    cases s.setNew _ <;> rfl

/-- Only the expression `d`, and new ones, were written. -/
structure Grown (d : Nat) (s s' : Enc) : Prop where
  objs : s'.objStack = s.objStack
  refs : s'.refStack = s.refStack
  root : s'.root = s.root
  grows : s.heap.length ≤ s'.heap.length
  frame : ∀ id < s.heap.length, id ≠ d → s'.heap[id]? = s.heap[id]?

theorem Grown.trans (h : Grown d s s₁) (h' : Grown d s₁ s') : Grown d s s' where
  objs := h'.objs.trans h.objs
  refs := h'.refs.trans h.refs
  root := h'.root.trans h.root
  grows := Nat.le_trans h.grows h'.grows
  frame id hid hne := (h'.frame id (Nat.lt_of_lt_of_le hid h.grows) hne).trans (h.frame id hid hne)

theorem Wrote.grown (h : Wrote r s s₁ s.heap.length) (h' : Grown s.heap.length s₁ s') :
    Wrote r s s' s.heap.length where
  objs := h'.objs.trans h.objs
  refs := h'.refs.trans h.refs
  root := h'.root.trans h.root
  grows := Nat.le_trans h.grows h'.grows
  heap id hid := (h'.frame id (Nat.lt_of_lt_of_le hid h.grows) (Nat.ne_of_lt hid)).trans
    (h.heap id hid)

theorem Rep.grown (h : Rep conv decls lo s.heap n t v x) (hg : Grown d s s') (hlo : d < lo) :
    Rep conv decls lo s'.heap n t v x := by
  refine h.frame (Nat.le_refl _) fun id hid node hnode => ?_
  have hlt := (List.getElem?_eq_some_iff.1 hnode).1
  rw [hg.frame id hlt (by omega), hnode]

/-- The dictionary or the list at the top gets another element. -/
structure At (d : Nat) (node : Node) (s : Enc) : Prop where
  objs : s.objStack.head? = some (some d)
  node : s.heap[d]? = some node

theorem At.lt {node : Node} (h : At d node s) : d < s.heap.length :=
  (List.getElem?_eq_some_iff.1 h.node).1

theorem At.topDict {tab : Str → Option Nat} (h : At d (.dict tab) s) : s.topDict = .ok (d, s) := by
  have hobjs := h.objs
  unfold Enc.topDict
  cases ho : s.objStack with
  | nil =>
    rw [ho] at hobjs
    cases hobjs
  | cons o os =>
    rw [ho] at hobjs
    cases hobjs
    simp only [h.node]

theorem At.topList {l : List (Option Nat)} (h : At d (.list l) s) : s.topList = .ok d := by
  have hobjs := h.objs
  unfold Enc.topList
  cases ho : s.objStack with
  | nil =>
    rw [ho] at hobjs
    cases hobjs
  | cons o os =>
    rw [ho] at hobjs
    cases hobjs
    simp only [h.node]

def inside (r : Ref) (name : Str) (s : Enc) : Enc :=
  Enc.pushRef { s with debug := name :: s.debug } r

theorem At.enterField {tab : Str → Option Nat} (h : At d (.dict tab) s) (f : Str) :
    s.enterField f = .ok (inside (.dict d f) f s) := by
  have hdebug : At d (.dict tab) { s with debug := f :: s.debug } := ⟨h.objs, h.node⟩
  unfold Enc.enterField
  rw [hdebug.topDict]
  rfl

theorem At.enterSlot {l : List (Option Nat)} (h : At d (.list l) s) (i : Nat) :
    s.enterSlot i = .ok (inside (.list d i) (slotName i) s) := by
  have hdebug : At d (.list l) { s with debug := slotName i :: s.debug } := ⟨h.objs, h.node⟩
  unfold Enc.enterSlot
  dsimp only
  rw [hdebug.topList]
  rfl

theorem At.ready {node : Node} (h : At d node s) (hr : r.target = some d) (name : Str) :
    Ready r (inside r name s) := by
  refine ⟨List.cons_ne_nil _ _, rfl, fun d' hd' => ?_⟩
  cases hr.symm.trans hd'
  exact h.lt

variable (s') in
theorem At.leave {node : Node} (h : At d node s) (hr : r.target = some d) {name : Str}
    (hw : Wrote r (inside r name s) s₁ x) (hobjs : s'.objStack = s₁.objStack.tail)
    (hrefs : s'.refStack = s₁.refStack.tail) (hroot : s'.root = s₁.root)
    (hheap : s'.heap = s₁.heap) :
    Grown d s s' ∧ At d (r.put x node) s' := by
  have hd := hw.heap d h.lt
  have hnode : (inside r name s).heap[d]? = some node := h.node
  rw [hnode, Option.map_some, if_pos hr] at hd
  have hsame : s'.objStack = s.objStack := by
    rw [hobjs, hw.objs]
    rfl
  refine ⟨⟨hsame, ?_, ?_, ?_, fun id hid hne => ?_⟩, ⟨by rw [hsame, h.objs], by rw [hheap, hd]⟩⟩
  · rw [hrefs, hw.refs]
    rfl
  · rw [hroot, hw.root]
    cases r with
    | plain => cases hr
    | dict _ _ | list _ _ => rfl
  · rw [hheap]
    exact hw.grows
  · have hid' := hw.heap id hid
    have hother : r.target ≠ some id := fun he => hne (Option.some.inj (he.symm.trans hr))
    simp only [hother, if_false] at hid'
    rw [hheap, hid']
    exact Option.map_id'

theorem ok_bind {ε α β : Type} (a : α) (f : α → Except ε β) : (Except.ok a >>= f) = f a := rfl

/-- Values of the depth are written as they should be. -/
def Encodes (conv : Conv) (decls : Decls) (n : Nat) : Prop :=
  ∀ t v s r, WellTyped decls n t v → Ready r s → s.objStack.head? = some none →
    ∃ s' x, traverse (Enc.xdr conv) decls n t v s = .ok (v, s') ∧ Wrote r s s' x ∧
      Rep conv decls s.heap.length s'.heap n t v x

theorem encode_field (hn : Encodes conv decls n) {f : Str × Ty} {tab : Str → Option Nat}
    (hv : WellTyped decls n f.2 v) (h : At d (.dict tab) s) :
    ∃ s' y, field (Enc.xdr conv) (traverse (Enc.xdr conv) decls n) f v s = .ok (v, s') ∧
      Grown d s s' ∧ At d (.dict (Function.update tab f.1 (some y))) s' ∧
      Rep conv decls s.heap.length s'.heap n f.2 v y := by
  obtain ⟨s₁, y, hs₁, hw, hrep⟩ := hn _ _ _ _ hv (h.ready (r := .dict d f.1) rfl f.1) rfl
  obtain ⟨hg, hat⟩ := h.leave s₁.popRef rfl hw rfl rfl rfl rfl
  refine ⟨s₁.popRef, y, ?_, hg, hat, hrep⟩
  have henter : (Enc.xdr conv).enterField f.1 s = .ok (inside (.dict d f.1) f.1 s) :=
    h.enterField f.1
  simp only [field, henter, ok_bind, hs₁]
  rfl

theorem encode_fields (hn : Encodes conv decls n) {fs : List (Str × Ty)} {vs : List Val}
    {tab : Str → Option Nat} (hvs : List.Forall₂ (fun f v => WellTyped decls n f.2 v) fs vs)
    (hnames : (fs.map Prod.fst).Nodup) (h : At d (.dict tab) s) :
    ∃ s' tab', fields (Enc.xdr conv) (traverse (Enc.xdr conv) decls n) fs vs s = .ok (vs, s') ∧
      Grown d s s' ∧ At d (.dict tab') s' ∧ (∀ k ∉ fs.map Prod.fst, tab' k = tab k) ∧
      List.Forall₂ (fun f v => ∃ y, tab' f.1 = some y ∧
        Rep conv decls s.heap.length s'.heap n f.2 v y) fs vs := by
  induction hvs generalizing s tab with
  | nil => exact ⟨s, tab, rfl, ⟨rfl, rfl, rfl, Nat.le_refl _, fun _ _ _ => rfl⟩, h, fun _ _ => rfl,
      .nil⟩
  | @cons f v fs vs hv _ ih =>
    obtain ⟨s₁, y, hfield, hg, hat, hrep⟩ := encode_field hn hv h
    rw [List.map_cons, List.nodup_cons] at hnames
    obtain ⟨s', tab', hfields, hg', hat', hkeep, hreps⟩ := ih hnames.2 hat
    refine ⟨s', tab', ?_, hg.trans hg', hat', fun k hk => ?_, .cons ⟨y, ?_, ?_⟩ ?_⟩
    · simp only [fields, List.head!_cons, List.tail_cons, hfield, ok_bind, hfields]
      rfl
    · rw [List.map_cons, List.mem_cons, not_or] at hk
      rw [hkeep k hk.2, Function.update_of_ne hk.1]
    · rw [hkeep f.1 hnames.1, Function.update_self]
    · exact hrep.grown hg' h.lt
    · exact hreps.imp fun f v ⟨z, hz, hr⟩ =>
        ⟨z, hz, hr.frame hg.grows fun _ _ _ hnode => hnode⟩

theorem put_list (l : List (Option Nat)) :
    (Ref.list d l.length).put x (.list l) = .list (l ++ [some x]) := by
  simp [Ref.put]

theorem encode_slot (hn : Encodes conv decls n) {l : List (Option Nat)}
    (hv : WellTyped decls n t v) (h : At d (.list l) s) :
    ∃ s₁ y, traverse (Enc.xdr conv) decls n t v
        (inside (.list d l.length) (slotName l.length) s) = .ok (v, s₁) ∧
      Grown d s s₁.exitSlot ∧ At d (.list (l ++ [some y])) s₁.exitSlot ∧
      Rep conv decls s.heap.length s₁.exitSlot.heap n t v y := by
  obtain ⟨s₁, y, hs₁, hw, hrep⟩ := hn _ _ _ _ hv
    (h.ready (r := .list d l.length) rfl (slotName l.length)) rfl
  obtain ⟨hg, hat⟩ := h.leave s₁.exitSlot rfl hw rfl rfl rfl rfl
  exact ⟨s₁, y, hs₁, hg, put_list l ▸ hat, hrep⟩

theorem encode_slots (hn : Encodes conv decls n) {vs : List Val} {l : List (Option Nat)}
    (hvs : ∀ v ∈ vs, WellTyped decls n t v) (h : At d (.list l) s) :
    ∃ s' l', slots (Enc.xdr conv) (traverse (Enc.xdr conv) decls n t) vs.length l.length vs s =
        .ok (vs, s') ∧
      Grown d s s' ∧ At d (.list (l ++ l')) s' ∧
      List.Forall₂ (fun o v => ∃ y, o = some y ∧
        Rep conv decls s.heap.length s'.heap n t v y) l' vs := by
  induction vs generalizing s l with
  | nil => exact ⟨s, [], rfl, ⟨rfl, rfl, rfl, Nat.le_refl _, fun _ _ _ => rfl⟩,
      (List.append_nil l).symm ▸ h, .nil⟩
  | cons v vs ih =>
    obtain ⟨s₁, y, hs₁, hg, hat, hrep⟩ := encode_slot hn (hvs v List.mem_cons_self) h
    obtain ⟨s', l', hslots, hg', hat', hreps⟩ :=
      ih (fun w hw => hvs w (List.mem_cons_of_mem _ hw)) hat
    refine ⟨s', some y :: l', ?_, hg.trans hg', ?_, .cons ⟨y, rfl, hrep.grown hg' h.lt⟩ ?_⟩
    · have henter : (Enc.xdr conv).enterSlot l.length s =
          .ok (inside (.list d l.length) (slotName l.length) s) := h.enterSlot _
      have hexit : (Enc.xdr conv).exitSlot l.length s₁ = .ok s₁.exitSlot := rfl
      rw [List.length_append, List.length_singleton] at hslots
      simp only [slots, List.length_cons, List.head!_cons, List.tail_cons, henter, ok_bind, hs₁,
        hexit, hslots]
      rfl
    · rw [List.append_assoc] at hat'
      exact hat'
    · exact hreps.imp fun o w ⟨z, hz, hr⟩ =>
        ⟨z, hz, hr.frame hg.grows fun _ _ _ hnode => hnode⟩

theorem enterField_new (ho : s.objStack.head? = some none) {tab : Str → Option Nat}
    (hs : s.setNew (.dict fun _ => none) = .ok s₁) (hat : At s.heap.length (.dict tab) s₁)
    (f : Str) : s.enterField f = s₁.enterField f := by
  rw [hat.enterField]
  obtain ⟨heap, root, objs, refs, debug⟩ := s
  cases objs with
  | nil => cases ho
  | cons o os =>
    cases ho
    cases refs with
    | nil => cases hs
    | cons r rs =>
      cases hs
      rfl

theorem setNew_at (hr : Ready r s) (node : Node) : ∃ s₁, s.setNew node = .ok s₁ ∧
    Wrote r s s₁ s.heap.length ∧ At s.heap.length node s₁ ∧
    s₁.heap.length = s.heap.length + 1 := by
  obtain ⟨s₁, hs₁, hw, hnode, hlen, -⟩ := setNew_spec hr node
  exact ⟨s₁, hs₁, hw, ⟨by rw [hw.objs]; rfl, hnode⟩, hlen⟩

variable (conv decls n) in
theorem encode_scalar (hv : v.type = some t) (hr : Ready r s) :
    ∃ s', traverse (Enc.xdr conv) decls (n + 1) t v s = .ok (v, s') ∧
      Wrote r s s' s.heap.length ∧ s'.heap[s.heap.length]? = some (v.node conv) := by
  obtain ⟨s', hs', hw, hat, -⟩ := setNew_at hr (v.node conv)
  exact ⟨s', by rw [traverse_scalar hv, hs']; rfl, hw, hat.node⟩

theorem encode_struct (hn : Encodes conv decls n) {name : Nat} {vs : List Val}
    (hv : List.Forall₂ (fun f v => WellTyped decls n f.2 v) (decls.struct name) vs)
    (hr : Ready r s) (ho : s.objStack.head? = some none) :
    ∃ s' x, traverse (Enc.xdr conv) decls (n + 1) (.struct name) (.struct vs) s =
        .ok (.struct vs, s') ∧ Wrote r s s' x ∧
      Rep conv decls s.heap.length s'.heap (n + 1) (.struct name) (.struct vs) x := by
  obtain ⟨s₁, hs₁, hw, hat, hlen⟩ := setNew_at hr (.dict fun _ => none)
  obtain ⟨s', tab', hfields, hg, hat', -, hreps⟩ := encode_fields hn hv (decls.fields name).2 hat
  have hnew : fields (Enc.xdr conv) (traverse (Enc.xdr conv) decls n) (decls.struct name) vs s =
      .ok (vs, s') := by
    obtain ⟨f, fs, hfs⟩ := List.exists_cons_of_ne_nil (decls.fields name).1
    have henter : (Enc.xdr conv).enterField f.1 s = (Enc.xdr conv).enterField f.1 s₁ :=
      enterField_new ho hs₁ hat f.1
    rw [hfs, fields, field] at hfields ⊢
    rw [henter]
    exact hfields
  refine ⟨s', s.heap.length, ?_, hw.grown hg, Nat.le_refl _, tab', hat'.node, ?_⟩
  · simp only [traverse, Val.items, hnew, ok_bind]
    rfl
  · exact hreps.imp fun f v ⟨y, hy, hrep⟩ =>
      ⟨y, hy, hrep.frame (by omega) fun _ _ _ hnode => hnode⟩

theorem encode_array (hn : Encodes conv decls n) {vs : List Val}
    (hv : ∀ v ∈ vs, WellTyped decls n t v) (hr : Ready r s) :
    ∃ s' x, traverse (Enc.xdr conv) decls (n + 1) (.array t) (.array vs) s =
        .ok (.array vs, s') ∧ Wrote r s s' x ∧
      Rep conv decls s.heap.length s'.heap (n + 1) (.array t) (.array vs) x := by
  obtain ⟨s₁, hs₁, hw, hat, hlen⟩ := setNew_at hr (.list [])
  obtain ⟨s', l', hslots, hg, hat', hreps⟩ := encode_slots hn hv hat
  have henter : (Enc.xdr conv).enterArray vs.length s = .ok (vs.length, s₁) := by
    simp only [Enc.xdr, hs₁]
    rfl
  have hexit : (Enc.xdr conv).exitArray s' = .ok s' := rfl
  refine ⟨s', s.heap.length, ?_, hw.grown hg, Nat.le_refl _, l', hat'.node, ?_⟩
  · rw [List.length_nil] at hslots
    simp only [traverse, Val.items, henter, ok_bind, hslots, hexit]
    rfl
  · exact hreps.imp fun o v ⟨y, hy, hrep⟩ =>
      ⟨y, hy, hrep.frame (by omega) fun _ _ _ hnode => hnode⟩

theorem encode_pointer (hn : Encodes conv decls n) {w : Option Val}
    (hv : ∀ v, w = some v → WellTyped decls n t v) (hr : Ready r s) :
    ∃ s' x, traverse (Enc.xdr conv) decls (n + 1) (.pointer t) (.pointer w) s =
        .ok (.pointer w, s') ∧ Wrote r s s' x ∧
      Rep conv decls s.heap.length s'.heap (n + 1) (.pointer t) (.pointer w) x := by
  obtain ⟨s₁, hs₁, hw, hat, hlen⟩ := setNew_at hr (.list [])
  cases w with
  | none =>
    refine ⟨s₁, s.heap.length, ?_, hw, Nat.le_refl _, hat.node⟩
    have henter : (Enc.xdr conv).enterPointer false s = .ok (false, s₁) := by
      simp only [Enc.xdr, hs₁, ok_bind]
      rfl
    simp only [traverse, Val.inner, Option.isSome_none, henter, ok_bind, Bool.false_eq_true,
      if_false]
    rfl
  | some v =>
    obtain ⟨s₂, y, hs₂, hg, hat', hrep⟩ := encode_slot hn (hv v rfl) hat
    refine ⟨s₂.exitSlot, s.heap.length, ?_, hw.grown hg, Nat.le_refl _, y, hat'.node, ?_⟩
    · have henter : (Enc.xdr conv).enterPointer true s =
          .ok (true, inside (.list s.heap.length 0) (slotName 0) s₁) := by
        simp only [Enc.xdr, hs₁, ok_bind, if_true, hat.enterSlot]
        rfl
      have hexit : (Enc.xdr conv).exitPointer true s₂ = .ok s₂.exitSlot := rfl
      rw [List.length_nil] at hs₂
      simp only [traverse, Val.inner, Option.isSome_some, Option.getD_some, henter, ok_bind,
        if_true, hs₂, hexit]
      rfl
    · exact hrep.frame (by omega) fun _ _ _ hnode => hnode

theorem encode_union (hn : Encodes conv decls n) {name : Nat} {tag : Int32} {arm : Option Val}
    (hv : match decls.arm name tag with
      | none => False
      | some none => arm = none
      | some (some f) => ∃ v, arm = some v ∧ WellTyped decls n f.2 v)
    (hr : Ready r s) (ho : s.objStack.head? = some none) :
    ∃ s' x, traverse (Enc.xdr conv) decls (n + 1) (.union name) (.union tag arm) s =
        .ok (.union tag arm, s') ∧ Wrote r s s' x ∧
      Rep conv decls s.heap.length s'.heap (n + 1) (.union name) (.union tag arm) x := by
  obtain ⟨s₁, hs₁, hw, hat, hlen⟩ := setNew_at hr (.dict fun _ => none)
  have henter : (Enc.xdr conv).enterField (decls.tag name) s =
      .ok (inside (.dict s.heap.length (decls.tag name)) (decls.tag name) s₁) :=
    (enterField_new ho hs₁ hat _).trans (hat.enterField _)
  obtain ⟨s₂, hs₂, hw₂, hat₂, -⟩ := setNew_at
    (hat.ready (r := .dict s.heap.length (decls.tag name)) rfl (decls.tag name))
    (.int tag.toInt)
  have htag : (Enc.xdr conv).int32 tag
      (inside (.dict s.heap.length (decls.tag name)) (decls.tag name) s₁) = .ok (tag, s₂) := by
    simp only [Enc.xdr, hs₂]
    rfl
  have hexit : (Enc.xdr conv).exitField (decls.tag name) s₂ = .ok s₂.popRef := rfl
  obtain ⟨hg₂, hat₃⟩ := hat.leave s₂.popRef rfl hw₂ rfl rfl rfl rfl
  have hlen₁ : (inside (.dict s.heap.length (decls.tag name)) (decls.tag name) s₁).heap.length =
      s.heap.length + 1 := hlen
  have hnode : s₂.popRef.heap[s.heap.length + 1]? = some (.int tag.toInt) := hlen₁ ▸ hat₂.node
  cases harm : decls.arm name tag with
  | none =>
    rw [harm] at hv
    cases hv
  | some o =>
    cases o with
    | none =>
      rw [harm] at hv
      subst hv
      refine ⟨s₂.popRef, s.heap.length, ?_, hw.grown hg₂, Nat.le_refl _, _, s.heap.length + 1,
        hat₃.node, ?_, Nat.le_succ _, hnode, ?_⟩
      · simp only [traverse, Val.selector, henter, ok_bind, htag, hexit, harm]
        rfl
      · rw [hlen₁, Function.update_self]
      · rw [harm]
    | some f =>
      rw [harm] at hv
      obtain ⟨v, rfl, hv⟩ := hv
      obtain ⟨s', y, hfield, hg, hat', hrep⟩ := encode_field hn hv hat₃
      have hne : decls.tag name ≠ f.1 := (decls.arms name tag f.1 f.2 harm).symm
      refine ⟨s', s.heap.length, ?_, hw.grown (hg₂.trans hg), Nat.le_refl _, _,
        s.heap.length + 1, hat'.node, ?_, Nat.le_succ _, ?_, ?_⟩
      · simp only [traverse, Val.selector, Val.inner, Option.getD_some, henter, ok_bind, htag,
          hexit, harm, hfield]
        rfl
      · rw [Function.update_of_ne hne, hlen₁, Function.update_self]
      · have hlt := (List.getElem?_eq_some_iff.1 hnode).1
        rw [hg.frame _ hlt (by omega), hnode]
      · rw [harm]
        have hgrow := hg₂.grows
        exact ⟨v, y, rfl, by rw [Function.update_self],
          hrep.frame (by omega) fun _ _ _ hnode => hnode⟩

theorem encodes (n : Nat) : Encodes conv decls n := by
  induction n with
  | zero =>
    intro t v s r hv
    cases hv
  | succ n ih =>
    intro t v s r hv hr ho
    unfold WellTyped at hv
    split at hv
    · exact encode_struct ih hv hr ho
    · exact encode_array ih hv hr
    · exact encode_union ih hv hr ho
    · exact encode_pointer ih hv hr
    · next hstruct harray hunion hpointer =>
      obtain ⟨s', hs', hw, hnode⟩ := encode_scalar conv decls n hv hr
      refine ⟨s', s.heap.length, hs', hw, ?_⟩
      unfold Rep
      refine ⟨Nat.le_refl _, ?_⟩
      cases v <;> cases hv <;> exact ⟨rfl, hnode⟩

section Decoding

variable {st : Dec} {node : Node} {α : Type} {view : Node → Option α}

variable (view) in
theorem read_ok (ho : st.objStack.head? = some (some x)) (hx : heap[x]? = some node)
    (hne : node ≠ .null) {a : α} (ha : view node = some a) (empty typ : Str) :
    st.read heap empty typ view = .ok a := by
  obtain ⟨objs, debug, msg⟩ := st
  cases objs with
  | nil => cases ho
  | cons o os =>
    cases ho
    have htop : Dec.top heap ⟨some x :: os, debug, msg⟩ = some node := by
      unfold Dec.top
      simp only [hx]
      cases node with
      | null => exact absurd rfl hne
      | int _ | uint _ | str _ | list _ | dict _ => rfl
    simp only [Dec.read, htop, ha]

def within (name : Str) (o : Option Nat) (st : Dec) : Dec :=
  Dec.push { st with debug := name :: st.debug } o

variable (conv) in
theorem int32_read {k : Int32} (ho : st.objStack.head? = some (some x))
    (hx : heap[x]? = some (.int k.toInt)) (k₀ : Int32) :
    (Dec.xdr conv heap).int32 k₀ st = .ok (k, st) := by
  have hread := read_ok (Dec.toInt conv) ho hx nofun rfl Dec.int Dec.int
  have hlt := k.toInt_lt
  have hle := k.le_toInt
  have hrange : ¬ (2 ^ 31 ≤ k.toInt ∨ k.toInt < -2 ^ 31) := by omega
  simp only [Dec.xdr, hread, Except.bind, if_neg hrange, Int32.ofInt_toInt]

theorem decode_scalar (harmor : ∀ k, conv.dearmor64 (conv.armor64 k) = some k)
    (hv : v.type = some t) (ho : st.objStack.head? = some (some x))
    (hx : heap[x]? = some (v.node conv)) (v₀ : Val) :
    traverse (Dec.xdr conv heap) decls (n + 1) t v₀ st = .ok (v.norm, st) := by
  cases v <;> cases hv
  case int32 k =>
    simp only [traverse, int32_read conv ho hx]
    rfl
  case uint32 k =>
    have hread := read_ok (Dec.toInt conv) ho hx nofun rfl Dec.int Dec.int
    have hlt := k.toNat_lt
    have hrange : ¬ ((2 : Int) ^ 32 ≤ (k.toNat : Int) ∨ (k.toNat : Int) < 0) := by omega
    simp only [traverse, Dec.xdr, hread, Except.bind, if_neg hrange, Int.toNat_natCast,
      UInt32.ofNat_toNat]
    rfl
  case int64 k =>
    have hread := read_ok (Dec.toInt conv) ho hx nofun rfl Dec.int Dec.int
    simp only [traverse, Dec.xdr, hread, Except.map, Int64.ofInt_toInt]
    rfl
  case uint64 k =>
    have hread := read_ok (Dec.toUint conv) ho hx nofun rfl Dec.uint Dec.uint
    simp only [traverse, Dec.xdr, hread, Except.map, UInt64.ofNat_toNat]
    rfl
  case string k =>
    have hread := read_ok (Dec.toStr conv) ho hx nofun rfl Dec.string Dec.string
    simp only [traverse, Dec.xdr, hread, Except.map]
    rfl
  case bytes k =>
    have hread := read_ok (Dec.toStr conv) ho hx nofun rfl Dec.string Dec.string
    simp only [traverse, Dec.xdr, hread, Except.bind, harmor]
    rfl
  case bigint k =>
    have hread := read_ok (Dec.toStr conv) ho hx nofun rfl Dec.bigint Dec.string
    simp only [traverse, Dec.xdr, hread, Except.map]
    rfl

/-- Expressions of the depth are read as they should be. -/
def Decodes (conv : Conv) (decls : Decls) (lo : Nat) (heap : List Node) (n : Nat) : Prop :=
  ∀ t v x v₀ st, Rep conv decls lo heap n t v x → st.objStack.head? = some (some x) →
    traverse (Dec.xdr conv heap) decls n t v₀ st = .ok (v.norm, st)

theorem enterField_read {tab : Str → Option Nat} {y : Nat}
    (ho : st.objStack.head? = some (some x)) (hx : heap[x]? = some (.dict tab)) {f : Str}
    (hf : tab f = some y) : (Dec.xdr conv heap).enterField f st =
      .ok (within f (some y) st) := by
  have htop : ({ st with debug := f :: st.debug } : Dec).objStack.head? = some (some x) := ho
  have hread := read_ok Dec.toDict htop hx nofun rfl Dec.dictionary Dec.dictionary
  simp only [Dec.xdr, Dec.enterField, hread, hf]
  rfl

theorem decode_field (hn : Decodes conv decls lo heap n) {tab : Str → Option Nat} {y : Nat}
    (ho : st.objStack.head? = some (some x)) (hx : heap[x]? = some (.dict tab)) {f : Str × Ty}
    (hf : tab f.1 = some y) (hrep : Rep conv decls lo heap n f.2 v y) (v₀ : Val) :
    field (Dec.xdr conv heap) (traverse (Dec.xdr conv heap) decls n) f v₀ st =
      .ok (v.norm, st) := by
  have hgo := hn _ _ _ v₀ (within f.1 (some y) st) hrep rfl
  simp only [field, enterField_read ho hx hf, ok_bind, hgo]
  rfl

theorem decode_fields (hn : Decodes conv decls lo heap n) {tab : Str → Option Nat}
    (ho : st.objStack.head? = some (some x)) (hx : heap[x]? = some (.dict tab))
    {fs : List (Str × Ty)} {vs : List Val}
    (h : List.Forall₂ (fun f v => ∃ y, tab f.1 = some y ∧ Rep conv decls lo heap n f.2 v y) fs vs)
    (vs₀ : List Val) :
    fields (Dec.xdr conv heap) (traverse (Dec.xdr conv heap) decls n) fs vs₀ st =
      .ok (Val.normList vs, st) := by
  induction h generalizing vs₀ with
  | nil => rfl
  | cons hv _ ih =>
    obtain ⟨y, hy, hrep⟩ := hv
    simp only [fields, decode_field hn ho hx hy hrep, ok_bind, ih]
    rfl

theorem enterSlot_read {l pre : List (Option Nat)} {o : Option Nat}
    (ho : st.objStack.head? = some (some x)) (hx : heap[x]? = some (.list (pre ++ o :: l))) :
    (Dec.xdr conv heap).enterSlot pre.length st =
      .ok (within (slotName pre.length) o st) := by
  have htop : ({ st with debug := slotName pre.length :: st.debug } : Dec).objStack.head? =
      some (some x) := ho
  have hread := read_ok Dec.toList htop hx nofun rfl Dec.array Dec.array
  have hlt : pre.length < (pre ++ o :: l).length := by
    rw [List.length_append, List.length_cons]
    omega
  have hget : (pre ++ o :: l).getD pre.length none = o := by simp [List.getD]
  simp only [Dec.xdr, Dec.enterSlot, hread, if_pos hlt, hget]
  rfl

theorem decode_slots (hn : Decodes conv decls lo heap n) (pre : List (Option Nat))
    {l : List (Option Nat)} {vs : List Val} (ho : st.objStack.head? = some (some x))
    (hx : heap[x]? = some (.list (pre ++ l)))
    (h : List.Forall₂ (fun o v => ∃ y, o = some y ∧ Rep conv decls lo heap n t v y) l vs)
    (vs₀ : List Val) :
    slots (Dec.xdr conv heap) (traverse (Dec.xdr conv heap) decls n t) l.length pre.length vs₀
      st = .ok (Val.normList vs, st) := by
  induction h generalizing pre vs₀ with
  | nil => rfl
  | @cons o v l vs hv _ ih =>
    obtain ⟨y, rfl, hrep⟩ := hv
    have hrest := ih (pre ++ [some y]) (by rw [List.append_assoc]; exact hx) vs₀.tail
    have hgo := hn _ _ _ vs₀.head! (within (slotName pre.length) (some y) st) hrep rfl
    have hexit : (Dec.xdr conv heap).exitSlot pre.length
        (within (slotName pre.length) (some y) st) = .ok st := rfl
    rw [List.length_append, List.length_singleton] at hrest
    simp only [slots, List.length_cons, enterSlot_read ho hx, ok_bind, hgo, hexit, hrest]
    rfl

theorem decodes (harmor : ∀ k, conv.dearmor64 (conv.armor64 k) = some k) (n : Nat) :
    Decodes conv decls lo heap n := by
  induction n with
  | zero =>
    intro t v x v₀ st hrep
    cases hrep
  | succ n ih =>
    intro t v x v₀ st hrep ho
    unfold Rep at hrep
    obtain ⟨-, hrep⟩ := hrep
    split at hrep
    · obtain ⟨tab, hx, h⟩ := hrep
      simp only [traverse, decode_fields ih ho hx h, ok_bind]
      rfl
    · next t vs =>
      obtain ⟨l, hx, h⟩ := hrep
      have hread := read_ok Dec.toList ho hx nofun rfl Dec.array Dec.array
      have henter : (Dec.xdr conv heap).enterArray v₀.items.length st = .ok (l.length, st) := by
        simp only [Dec.xdr, hread]
        rfl
      have hslots := decode_slots ih [] ho hx h v₀.items
      have hexit : (Dec.xdr conv heap).exitArray st = .ok st := rfl
      rw [List.length_nil] at hslots
      simp only [traverse, henter, ok_bind, hslots, hexit]
      rfl
    · next name tag arm =>
      obtain ⟨tab, y, hx, hy, -, htag, h⟩ := hrep
      have htop : (within (decls.tag name) (some y) st).objStack.head? = some (some y) := rfl
      have hint := int32_read conv htop htag v₀.selector
      have hexit : (Dec.xdr conv heap).exitField (decls.tag name)
          (within (decls.tag name) (some y) st) = .ok st := rfl
      split at h
      · cases h
      · next harm =>
        subst h
        simp only [traverse, enterField_read ho hx hy, ok_bind, hint, hexit, harm]
        rfl
      · next f harm =>
        obtain ⟨w, z, rfl, hz, hrep⟩ := h
        simp only [traverse, enterField_read ho hx hy, ok_bind, hint, hexit, harm,
          decode_field ih ho hx hz hrep]
        rfl
    · next t w =>
      split at hrep
      · have hread := read_ok Dec.toList ho hrep nofun rfl Dec.arrayPointer
          Dec.arrayPointer
        have henter : (Dec.xdr conv heap).enterPointer v₀.inner.isSome st =
            .ok (false, st.push none) := by
          simp only [Dec.xdr, hread]
          rfl
        simp only [traverse, henter, ok_bind, Bool.false_eq_true, if_false]
        rfl
      · next w =>
        obtain ⟨y, hx, hrep⟩ := hrep
        have hread := read_ok Dec.toList ho hx nofun rfl Dec.arrayPointer
          Dec.arrayPointer
        have henter : (Dec.xdr conv heap).enterPointer v₀.inner.isSome st =
            .ok (true, st.push (some y)) := by
          simp only [Dec.xdr, hread]
          rfl
        have hgo := ih _ _ _ (v₀.inner.getD default) (st.push (some y)) hrep rfl
        simp only [traverse, henter, ok_bind, if_true, hgo]
        rfl
    · exact decode_scalar harmor hrep.1 ho hrep.2 v₀

end Decoding

/-- The value is encoded, and what comes of it is decoded to an equal value; the stacks are as deep
as they were. -/
def RoundTrips (conv : Conv) (decls : Decls) (n : Nat) (t : Ty) (v v₀ : Val) : Prop :=
  ∃ s x, traverse (Enc.xdr conv) decls n t v {} = .ok (v, s) ∧ s.root = some x ∧
    s.objStack.length = 1 ∧ s.refStack.length = 1 ∧ ∃ st,
    traverse (Dec.xdr conv s.heap) decls n t v₀ { objStack := [some x] } = .ok (v, st) ∧
    st.objStack.length = 1

theorem traverse_returns_iff (harmor : ∀ k, conv.dearmor64 (conv.armor64 k) = some k) {m : Nat}
    (hv : WellTyped decls m t v) (hm : m ≤ n) (v₀ : Val) :
    RoundTrips conv decls n t v v₀ ↔ v.OnesOnly := by
  obtain ⟨s, x, hs, hw, hrep⟩ := (encodes n : Encodes conv decls n) t v {} .plain (hv.mono hm)
    ⟨nofun, rfl, nofun⟩ rfl
  have hdec := decodes harmor n t v x v₀ { objStack := [some x] } hrep rfl
  rw [← Val.norm_eq_iff]
  constructor
  · rintro ⟨s', x', hs', hroot, -, -, st, hdec', -⟩
    cases hs.symm.trans hs'
    cases hw.root.symm.trans hroot
    exact (Prod.mk.inj (Except.ok.inj (hdec.symm.trans hdec'))).1
  · intro hnorm
    rw [hnorm] at hdec
    exact ⟨s, x, hs, hw.root, by rw [hw.objs]; rfl, by rw [hw.refs]; rfl, _, hdec, rfl⟩

end Proofs

section Runs

def someConv : Conv where
  armor64 := id
  dearmor64 := some
  getstr n := Dec.decimal n
  toInt _ := none
  toUint _ := none
  toStr _ := none

/-- A list of numbers, with a big one at its end or not. -/
def listDecls : Decls where
  struct _ := [(ascii "x".toList, .int32), (ascii "next".toList, .pointer (.struct 0))]
  tag _ := ascii "typ".toList
  arm _ _ := none
  fields _ := ⟨List.cons_ne_nil _ _, by decide⟩
  arms _ _ _ _ := nofun

def twoNumbers : Val :=
  .struct [.int32 7, .pointer (some (.struct [.int32 (-1), .pointer none]))]

theorem traverse_returns_iff_list :
    RoundTrips someConv listDecls 5 (.struct 0) twoNumbers (.struct []) ↔ twoNumbers.OnesOnly := by
  refine traverse_returns_iff (fun _ => rfl) (m := 5) ?_ (Nat.le_refl _) _
  refine .cons rfl (.cons ?_ .nil)
  rintro w hw
  cases hw
  exact .cons rfl (.cons nofun .nil)

/-- Every `bigint` comes back as 1. -/
theorem two_is_one : ¬ RoundTrips someConv listDecls 1 .bigint (.bigint 2) (.bigint 0) := by
  rintro ⟨s, x, hs, hroot, -, -, st, hdec, -⟩
  cases hs
  cases hroot
  cases hdec

end Runs

end Okws.JsonRpc

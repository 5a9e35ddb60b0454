import Okws.Heap

namespace Okws.Pub3

open Zbuf

/-- `str_opt_t`. -/
structure StrOpt where
  quoted : Bool := false
  utf8 : Bool := false
  compact : Bool := false
  sortFields : Bool := false

/-- What lies below the values: the escapes of JSON, the formats of numbers and places, and
`scalar_obj_t`. -/
structure Prims where
  jsonEscape : Bool → Str → Str
  doubleToStr : UInt64 → Str
  doubleToInt : UInt64 → Int64
  locationToStr : Nat → Str
  Scalar : Type
  ofInt : Int64 → Scalar
  ofUint : UInt64 → Scalar
  ofDouble : UInt64 → Scalar
  ofStr : Option Str → Scalar
  isNull : Scalar → Bool
  isInf : Scalar → Bool
  toInt64 : Scalar → Option Int64
  /-- `expr_t::alloc`. -/
  toConstant : Scalar → Constant
  math : MathOp → Scalar → Scalar → Scalar
  eq : Scalar → Scalar → Bool
  relation : RelOp → Scalar → Scalar → Bool

def jsonIntBitmax : Nat := 52

def isBig (i : Int) : Bool := 2 ^ jsonIntBitmax ≤ i || i ≤ -2 ^ jsonIntBitmax

def quoteInt (o : StrOpt) (i : Int) : Str :=
  if o.quoted && isBig i then 34 :: decimal i ++ [34] else decimal i

def vec2str (ts : List Str) (l r : UInt8) (compact : Bool) : Str :=
  l :: (ts.intersperse (if compact then [44] else [44, 32])).flatten ++ [r]

namespace Prims

variable (P : Prims)

def quote (o : StrOpt) (s : Str) : Str := if o.quoted then P.jsonEscape o.utf8 s else s

def constantToStr (o : StrOpt) : Constant → Str
  | .null => text "null"
  | .bool b => text (if b then "true" else "false")
  | .int i => quoteInt o i.toInt
  | .uint u => quoteInt o u.toNat
  | .double d => P.doubleToStr d
  | .str s => P.quote o s

def lambdaToStr (o : StrOpt) (l : Lambda) : Str :=
  P.quote o (text "<" ++ cstr l.name ++ text " @ " ++ cstr (P.locationToStr l.line) ++ text ">")

def compiledToStr (o : StrOpt) (f : Compiled) : Str :=
  P.quote o (text "<compiled function> " ++ cstr f.lib ++ text ":" ++ cstr f.name)

def sortKeys (o : StrOpt) (tab : Tab) : Tab :=
  if o.sortFields then tab.mergeSort fun a b => cstr a.1 ≤ cstr b.1 else tab

/-- `to_str`; a value may have no text.  If the value contains itself, there is no result. -/
def toStr (h : Heap) : Nat → StrOpt → Ptr → Option (Option Str)
  | 0, _, _ => none
  | n + 1, o, p => (h.view p).bind fun
    | .const c => some (P.constantToStr o c)
    | .regex b => some (P.quote o b)
    | .list els => do
      let ts ← els.mapM fun x => toStr h n { o with quoted := true } (x.getD .null)
      some (vec2str (ts.map (·.getD [])) 91 93 o.compact)
    | .dict tab => do
      let o := { o with quoted := true }
      let ts ← (sortKeys o tab).mapM fun b => do
        let t ← toStr h n o (b.2.getD .null)
        some (cstr (P.quote o b.1) ++ text (if o.compact then ":" else " : ") ++ cstr (t.getD []))
      some (vec2str ts 123 125 o.compact)
    | .lambda l _ => some (P.lambdaToStr o l)
    | .compiled f => some (P.compiledToStr o f)
    | .other | .empty => some none

def toScalar (h : Heap) (n : Nat) (p : Ptr) : Option P.Scalar := (h.view p).bind fun
  | .const (.bool b) => some (P.ofInt (if b then 1 else 0))
  | .const (.int i) => some (P.ofInt i)
  | .const (.uint u) => some (P.ofUint u)
  | .const (.double d) => some (P.ofDouble d)
  | .const (.str s) => some (P.ofStr s)
  | .dict _ => P.ofStr <$> P.toStr h n { quoted := true, sortFields := true } p
  | _ => P.ofStr <$> P.toStr h n { sortFields := true } p

def toInt : View → Option Int64
  | .const (.bool b) => some (if b then 1 else 0)
  | .const (.int i) => some i
  | .const (.uint u) => if u.toNat < 2 ^ 63 then some (.ofNat u.toNat) else none
  | .const (.double d) => some (P.doubleToInt d)
  | .const (.str s) => P.toInt64 (P.ofStr s)
  | _ => none

end Prims

namespace Heap

variable (h : Heap)

def isNull : Option Ptr → Option Bool
  | none => some true
  | some p => View.isNull <$> h.view p

def asList : Option Ptr → Option (Option (List (Option Ptr)))
  | none => some none
  | some p => View.toList <$> h.view p

/-- A value that is not a list is compared with a list as the list of itself. -/
def listMania (x₁ x₂ : Option Ptr) :
    Option (Option (List (Option Ptr) × List (Option Ptr))) := do
  match ← h.asList x₁, ← h.asList x₂ with
  | none, none => some none
  | none, some l₂ => some (some (x₁.toList.map some, l₂))
  | some l₁, none => some (some (l₁, x₂.toList.map some))
  | some l₁, some l₂ => some (some (l₁, l₂))

end Heap

section Compare

variable (P : Prims) (h : Heap)

def evalStatic : Nat → Option Ptr → Option Ptr → Bool → Option Bool
  | 0, _, _, _ => none
  | n + 1, x₁, x₂, pos => do
    let tmp ← match ← h.isNull x₁, ← h.isNull x₂ with
      | true, true => some true
      | true, false | false, true => some false
      | false, false => do match ← h.listMania x₁ x₂, x₁, x₂ with
        | some (l₁, l₂), _, _ =>
          if l₁.length = l₂.length then
            (l₁.zip l₂).allM fun y => evalStatic n y.1 y.2 true
          else some false
        | none, some p₁, some p₂ => do
          some (P.eq (← P.toScalar h n p₁) (← P.toScalar h n p₂))
        | none, _, _ => some false
    some (tmp == pos)

/-- `expr_relation_t::eval_final`: the answer, and whether an argument was null. -/
def relationFinal (op : RelOp) : Nat → Option Ptr → Option Ptr → Option (Bool × Bool)
  | 0, _, _ => none
  | n + 1, l, r => do
    let rec go : List (Option Ptr × Option Ptr) → Option (Bool × Bool)
      | [] => some (op == .lte || op == .gte, false)
      | y :: ys => do
        if ← evalStatic P h n y.1 y.2 true then go ys else relationFinal op n y.1 y.2
    match ← h.listMania l r with
    | some (ls, rs) =>
      if ls.length = rs.length then go (ls.zip rs)
      else match op with
        | .lte | .lt => some (ls.length < rs.length, false)
        | .gte | .gt => some (rs.length < ls.length, false)
    | none => do match l, r, ← h.isNull l, ← h.isNull r with
      | some p, some q, false, false => do
        some (P.relation op (← P.toScalar h n p) (← P.toScalar h n q), false)
      | _, _, _, _ => some (false, true)

end Compare

section Arithmetic

variable (P : Prims) (n : Nat)

/-- A value that is there and not null, with what is to be seen of it. -/
def operand (x : Option Ptr) : Mem (Option (Ptr × View)) := do
  let h ← get
  match x with
  | none => pure none
  | some p => match h.view p with
    | none => Mem.stuck
    | some v => pure (if v.isNull then none else some (p, v))

def scalar (p : Ptr) : Mem P.Scalar := do
  let h ← get
  match P.toScalar h n p with
  | none => Mem.stuck
  | some s => pure s

def newList (els : List (Option Ptr)) : Mem (Option Ptr) :=
  (fun a => some (.obj a)) <$> Mem.alloc (.list els none)

def newDict (tab : Tab) : Mem (Option Ptr) :=
  (fun a => some (.obj a)) <$> Mem.alloc (.dict tab none)

/-- `expr_add_t::eval_final`: a value, which may be missing, or an error. -/
def addFinal (pos : Bool) (e₁ e₂ : Option Ptr) : Mem (Except Str (Option Ptr)) := do
  let op := if pos then "addition" else "subtraction"
  match ← operand e₁, ← operand e₂ with
  | none, _ => pure (.error (text ("left-hand term of " ++ op ++ " evaluates to null")))
  | some _, none => pure (.error (text ("right-hand term of " ++ op ++ " evaluates to null")))
  | some (p₁, v₁), some (p₂, v₂) => match v₁, v₂ with
    | .list l₁, .list l₂ =>
      if pos then .ok <$> newList (l₁ ++ l₂)
      else pure (.error (text "cannot subtract lists"))
    | .list _, _ | _, .list _ =>
      pure (.error (text "addition on lists only works with 2 lists"))
    | .dict d₁, .dict d₂ => do
      let d ← copyTab d₁
      if pos then do
        let c ← copyTab d₂
        .ok <$> newDict (c.foldl Bindtab.insert d)
      else .ok <$> newDict (d.filter fun b => !(d₂.any (·.1 == b.1)))
    | .dict _, _ | _, .dict _ =>
      pure (.error (text "addition on dicts only work with 2 dicts"))
    | _, _ => do
      let s₁ ← scalar P n p₁
      let s₂ ← scalar P n p₂
      pure (.ok (some (.const (P.toConstant (P.math (if pos then .add else .sub) s₁ s₂)))))

/-- `expr_mult_t::eval_final`. -/
def multFinal (e₁ e₂ : Option Ptr) : Mem (Except Str (Option Ptr)) := do
  match ← operand e₁, ← operand e₂ with
  | none, _ => pure (.error (text "mult: left-hand factor was NULL"))
  | some _, none => pure (.error (text "mult: right-hand factor was NULL"))
  | some (p₁, v₁), some (p₂, v₂) =>
    if v₁.toDict.isSome || v₂.toDict.isSome then
      pure (.error (text "cannot multiply dictionaries"))
    else match v₁.toList, (P.toInt v₂).filter (·.toInt < 256) with
      | some l, some i => .ok <$> newList (List.replicate i.toInt.toNat l).flatten
      | l, _ =>
        if l.isSome || v₂.toList.isSome then
          pure (.error (text "can only multiply lists by small integers"))
        else do
          let o₁ ← scalar P n p₁
          let o₂ ← scalar P n p₂
          if P.isNull o₁ then
            pure (.error (text "mult: left-hand factor was not multipliable"))
          else if P.isNull o₂ then
            pure (.error (text "mutl: right-hand factor was not multipliable"))
          else if P.isNull (P.math .mult o₁ o₂) then
            pure (.error (text "mult: no plausible evaluation found!"))
          else pure (.ok (some (.const (P.toConstant (P.math .mult o₁ o₂)))))

/-- `expr_div_or_mod_t::eval_final`. -/
def divOrModFinal (div : Bool) (en ed : Option Ptr) : Mem (Except Str (Option Ptr)) := do
  let op := if div then "division" else "modulo"
  match ← operand en, ← operand ed with
  | none, _ => pure (.error (text (op ++ ": numerator was NULL")))
  | some _, none => pure (.error (text (op ++ ": denominator was NULL")))
  | some (pn, _), some (pd, _) => do
    let s ← scalar P n pn
    if P.isNull s then pure (.error (text (op ++ ": numerator was not a scalar")))
    else do
      let d ← scalar P n pd
      if P.isNull d then pure (.error (text (op ++ ": denominator was not a scalar")))
      else
        let out := P.math (if div then .div else .mod) s d
        if !P.isNull out then pure (.ok (some (.const (P.toConstant out))))
        else if P.isInf out then pure (.error (text (op ++ " by zero")))
        else pure (.error (text ("can't perform " ++ op ++ " on strings")))

def binaryopFinal : MathOp → Option Ptr → Option Ptr → Mem (Except Str (Option Ptr))
  | .add => addFinal P n true
  | .sub => addFinal P n false
  | .mult => multFinal P n
  | .div => divOrModFinal P n true
  | .mod => divOrModFinal P n false

end Arithmetic

section References

/-- `expr_dictref_t::eval_to_val_final`. -/
def dictrefValFinal (key : Str) (x : Option Ptr) : Mem (Except Str (Option Ptr)) := do
  let h ← get
  match x with
  | none => pure (.error (text "failed to evaluate expression (as a dictionary)"))
  | some p => match h.view p with
    | none => Mem.stuck
    | some v => match v.toDict with
      | none => pure (.error (text "can't coerce value to dictionary"))
      | some d => pure (.ok (d.lookup key).join)

/-- `expr_dictref_t::eval_to_ref_final`. -/
def dictrefRefFinal (key : Str) (dr : Option Ref) : Mem (Except Str (Option Ref)) :=
  match dr with
  | none => pure (.error (text "failed to evaluate dictionary"))
  | some r => do match ← r.getValue with
    | none => pure (.error (text "the dictionary referred to was null"))
    | some p => do match ← toDict p with
      | none => pure (.error (text "can't coerce value to dictionary"))
      | some d => pure (.ok (some (.dict d key)))

variable (P : Prims) (n : Nat)

def indexToStr (i : Ptr) : Mem (Option Str) := do
  let h ← get
  match P.toStr h n {} i with
  | none => Mem.stuck
  | some t => pure t

/-- `expr_vecref_t::eval_to_val_final`. -/
def vecrefValFinal (c i : Option Ptr) : Mem (Except Str (Option Ptr)) := do
  match ← operand c, ← operand i with
  | none, _ => pure (.error (text "container evaluates to null"))
  | some _, none => pure (.error (text "cannot evaluate key for lookup"))
  | some (_, .dict d), some (p, _) => do match ← indexToStr P n p with
    | some k => pure (.ok (d.lookup k).join)
    | none => pure (.error (text "cannot coerce dictionary index to string"))
  | some (_, .list l), some (_, v) => match P.toInt v with
    | some ii => pure (.ok (lookupList l ii.toInt))
    | none => pure (.error (text "indices into lists must be integers"))
  | some _, some _ => pure (.error (text "[]-reference into an object not a dict or list"))

/-- `expr_vecref_t::eval_to_ref_final`.  A container that is only looked at is made ready to be
changed. -/
def vecrefRefFinal (cr : Option Ref) (i : Option Ptr) : Mem (Except Str (Option Ref)) := do
  let c ← match cr with
    | none => pure none
    | some r => r.getValue
  match c, i with
  | none, _ => pure (.error (text "container evaluates to null"))
  | some _, none => pure (.error (text "cannot evaluate key for lookup"))
  | some c, some i => do match ← toDict c with
    | some d => do match ← indexToStr P n i with
      | some k => pure (.ok (some (.dict d k)))
      | none => pure (.error (text "cannot coerce dictionary index to string"))
    | none => do match ← toList c with
      | some l => do
        let h ← get
        match h.view i with
        | none => Mem.stuck
        | some v => match P.toInt v with
          | some ii => pure (.ok (some (.list l ii.toInt)))
          | none => pure (.error (text "indices into lists must be integers"))
      | none => pure (.error (text "[]-reference into an object not a dict or list"))

/-- `expr_assignment_t::eval_to_ref_final`. -/
def assignmentFinal (lhs : Option Ref) (rhs : Option Ptr) : Mem (Except Str (Option Ref)) :=
  match lhs with
  | none => pure (.error (text "error in assignment: LHS evaluates to null"))
  | some r => do
    if ← r.setValue (rhs.getD .null) then pure (.ok (some r))
    else pure (.error (text "error in assignment: invalid LHS"))

end References

end Okws.Pub3

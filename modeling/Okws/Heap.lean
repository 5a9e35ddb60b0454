import Okws.MightBlock

namespace Okws.Pub3

open Zbuf

def text (s : String) : Str := ascii s.toList

/-- A pointer to an expression: a literal is the node of the tree itself, and what is made while a
template is published lies on the heap. -/
inductive Ptr
  | node (x : Expr)
  | obj (a : Nat)

namespace Ptr

def const (c : Constant) : Ptr := node (.constant c)

def null : Ptr := const .null

end Ptr

inductive LayerType
  | none
  | universals
  | globals
  | locals
  | localsBarrier
  | localsBarrierWeak
  | unirefs
  | library
  deriving DecidableEq

/-- A layer of the environment.  Its table is an object. -/
structure Layer where
  bindings : Option Nat
  typ : LayerType

structure Lambda where
  line : Nat
  name : Str
  params : List Str
  optParams : List Str
  body : Option Zone

/-- The kinds of functions in libraries: those that get values, those that may wait, and the two
that evaluate their arguments themselves. -/
inductive FnKind
  | plain (safeArgs : Bool)
  | blocking
  | isnull
  | default
  deriving DecidableEq

structure Compiled where
  lib : Str
  name : Str
  kind : FnKind
  deriving DecidableEq

abbrev Tab := List (Str × Option Ptr)

/-- What a table that is copied on write was made of: a table of the tree, or a dictionary, which
may change meanwhile. -/
inductive Backing
  | tab (t : Tab)
  | dict (d : Nat)

/-- A list and a dictionary remember whether they were static when they were first asked; a copy on
write points to its own copy or to the original; a closure has the layers of the place where it was
made. -/
inductive Obj
  | list (els : List (Option Ptr)) (static : Option Bool)
  | dict (tab : Tab) (static : Option Bool)
  | cow (copy orig : Option Ptr)
  | lambda (l : Lambda) (md : Str) (stack : List Layer)
  | compiled (f : Compiled)
  | cowTab (orig : Backing) (copy : Option Nat)

abbrev Heap := List Obj

/-- Work on the heap.  Where the program would crash, there is no result. -/
abbrev Mem := StateT Heap Option

namespace Mem

def stuck {α : Type} : Mem α := fun _ => none

def load (a : Nat) : Mem Obj := fun h => (h[a]?).map (·, h)

def store (a : Nat) (o : Obj) : Mem Unit := fun h => some ((), h.set a o)

def alloc (o : Obj) : Mem Nat := fun h => some (h.length, h ++ [o])

end Mem

/-- What can be seen of a value through a constant pointer, where a copy on write is the object it
points to; `empty` is one that points nowhere. -/
inductive View
  | const (c : Constant)
  | regex (body : Str)
  | list (els : List (Option Ptr))
  | dict (tab : Tab)
  | lambda (l : Lambda) (closure : Option (Str × List Layer))
  | compiled (f : Compiled)
  | other
  | empty

namespace View

def ofNode : Expr → View
  | .constant c => .const c
  | .regex b _ => .regex b
  | .list _ els => .list (els.map fun x => some (.node x))
  | .dict _ bs => .dict (bs.map fun b => (b.1, b.2.map .node))
  | .lambda l n ps os b => .lambda ⟨l, n, ps, os, b⟩ none
  | _ => .other

def ofObj : Obj → Option View
  | .list els _ => some (.list els)
  | .dict tab _ => some (.dict tab)
  | .lambda l md stack => some (.lambda l (some (md, stack)))
  | .compiled f => some (.compiled f)
  -- a copy on write is never made of another one
  | .cow _ _ | .cowTab _ _ => none

def isNull : View → Bool
  | .const .null | .empty => true
  | _ => false

def toBool : View → Bool
  | .const (.bool b) => b
  | .const (.int i) => i != 0
  | .const (.uint u) => u != 0
  -- the sign does not matter
  | .const (.double d) => d <<< 1 != 0
  | .const (.str s) => !s.isEmpty
  | .list els => !els.isEmpty
  | .dict tab => !tab.isEmpty
  | .lambda _ _ => true
  | _ => false

def toList : View → Option (List (Option Ptr))
  | .list els => some els
  | _ => none

def toDict : View → Option Tab
  | .dict tab => some tab
  | _ => none

end View

namespace Heap

variable (h : Heap)

def pointee : Ptr → Option View
  | .node x => some (.ofNode x)
  | .obj a => h[a]?.bind View.ofObj

def constPtr : Ptr → Option Ptr
  | .node x => some (.node x)
  | .obj a => match h[a]? with
    | some (.cow c o) => c.orElse fun _ => o
    | _ => some (.obj a)

/-- `const_ptr` and what it points to. -/
def view : Ptr → Option View
  | .node x => some (.ofNode x)
  | .obj a => h[a]?.bind fun
    | .cow c o => match c.orElse fun _ => o with
      | none => some .empty
      | some p => h.pointee p
    | o => View.ofObj o

end Heap

/-- `is_str`, which a copy on write does not pass on. -/
def Ptr.isStr : Ptr → Bool
  | .node (.constant (.str _)) => true
  | _ => false

section Copy

/-- `copy`.  A function can neither be changed nor be told from a copy on write of it, and is its
own copy. -/
def copy : Ptr → Mem Ptr
  | .node x => match x with
    | .constant _ | .lambda _ _ _ _ _ => pure (.node x)
    | _ => .obj <$> Mem.alloc (.cow none (some (.node x)))
  | .obj a => do match ← Mem.load a with
    | .cow _ (some p) => .obj <$> Mem.alloc (.cow none (some p))
    | .cow (some p) none => .obj <$> Mem.alloc (.cow none (some p))
    | .cow none none => Mem.stuck
    | .lambda _ _ _ => pure (.obj a)
    | _ => .obj <$> Mem.alloc (.cow none (some (.obj a)))

def copyOpt : Option Ptr → Mem (Option Ptr)
  | none => pure none
  | some p => some <$> copy p

def copyEls : List (Option Ptr) → Mem (List (Option Ptr))
  | [] => pure []
  | none :: _ => Mem.stuck
  | some p :: ps => do
    let q ← copy p
    let qs ← copyEls ps
    pure (some q :: qs)

def copyTab : Tab → Mem Tab
  | [] => pure []
  | (k, x) :: bs => do
    let y ← copyOpt x
    let cs ← copyTab bs
    pure ((k, y) :: cs)

/-- `cow_copy`; regular expressions and compiled functions do not have it. -/
def cowCopy (p : Ptr) : Mem (Option Ptr) := do
  let h ← get
  match h.pointee p with
  | none => Mem.stuck
  | some (.list els) => (fun a => some (.obj a)) <$> (copyEls els >>= (Mem.alloc <| .list · none))
  | some (.dict tab) => (fun a => some (.obj a)) <$> (copyTab tab >>= (Mem.alloc <| .dict · none))
  | some (.const _) | some (.lambda _ _) => pure (some p)
  | some _ => pure none

def mutablePtr (a : Nat) (c o : Option Ptr) : Mem (Option Ptr) := match o with
  | none => pure c
  | some p => do
    let c ← cowCopy p
    Mem.store a (.cow c none)
    pure c

/-- `to_list` and `to_dict` through a pointer that is not constant: the object, if it is of the
kind that is wanted.  Nothing is said about a literal that is reached in this way, which would be
changed in the tree. -/
def toMutable (want : View → Bool) (p : Ptr) : Mem (Option Nat) := do
  let whole (p : Ptr) : Mem (Option Nat) := do
    let h ← get
    match p, h.pointee p with
    | _, none => Mem.stuck
    | .node _, some v => if want v then Mem.stuck else pure none
    | .obj a, some v => pure (if want v then some a else none)
  match p with
  | .node x => whole (.node x)
  | .obj a => do match ← Mem.load a with
    | .cow c o => do match ← mutablePtr a c o with
      | none => pure none
      | some q => whole q
    | _ => whole (.obj a)

def toList : Ptr → Mem (Option Nat) := toMutable fun v => v.toList.isSome

def toDict : Ptr → Mem (Option Nat) := toMutable fun v => v.toDict.isSome

end Copy

section Ref

/-- `mref_t`. -/
inductive Ref
  | const (x : Option Ptr)
  | dict (d : Nat) (slot : Str)
  | list (l : Nat) (index : Int)

def fixupIndex (size : Nat) (i : Int) (lax : Bool) : Option Nat :=
  let i := if i < 0 then i + size else i
  if i < 0 then (if lax then some 0 else none)
  else if i.toNat < size ∨ lax then some i.toNat
  else none

def lookupList (els : List (Option Ptr)) (i : Int) : Option Ptr :=
  (fixupIndex els.length i false).bind fun j => (els[j]?).join

def setList (els : List (Option Ptr)) (i : Int) (x : Ptr) : List (Option Ptr) :=
  match fixupIndex els.length i true with
  | none => els
  | some j => (els ++ List.replicate (j + 1 - els.length) none).set j (some x)

namespace Ref

def getValue : Ref → Mem (Option Ptr)
  | .const x => pure x
  | .dict d slot => do match ← Mem.load d with
    | .dict tab _ => pure (tab.lookup slot).join
    | _ => Mem.stuck
  | .list l i => do match ← Mem.load l with
    | .list els _ => pure (lookupList els i)
    | _ => Mem.stuck

def setValue (x : Ptr) : Ref → Mem Bool
  | .const _ => pure false
  | .dict d slot => do match ← Mem.load d with
    | .dict tab s => do
      Mem.store d (.dict (Bindtab.insert tab (slot, some x)) s)
      pure true
    | _ => Mem.stuck
  | .list l i => do match ← Mem.load l with
    | .list els s => do
      Mem.store l (.list (setList els i x) s)
      pure true
    | _ => Mem.stuck

end Ref

end Ref

/-- `is_static`.  Lists and dictionaries remember the answer. -/
def isStatic : Nat → Ptr → Mem Bool
  | _, .node x => pure x.isStatic
  | 0, .obj _ => Mem.stuck
  | n + 1, .obj a => do
    let all : List (Option Ptr) → Mem Bool := List.allM fun
      | none => pure true
      | some p => isStatic n p
    match ← Mem.load a with
    | .list _ (some b) | .dict _ (some b) => pure b
    | .list els none => do
      let b ← all els
      Mem.store a (.list els (some b))
      pure b
    | .dict tab none => do
      let b ← all (tab.map (·.2))
      Mem.store a (.dict tab (some b))
      pure b
    | .cow c o => match c.orElse fun _ => o with
      | none => pure false
      | some p => isStatic n p
    | _ => pure false

end Okws.Pub3

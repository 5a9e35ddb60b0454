import Okws.Convert
import Okws.Lib.Register

/-! `eval_t`: the environment, the flags and the output of a template that is being published. -/

namespace Okws.Pub3

open Zbuf Lib

/-- The control object in force.  `depth` tells which one it is: each `push_control` puts another
over it. -/
structure Control where
  brk : Bool := false
  cont : Bool := false
  exit : Bool := false
  rtrn : Option Ptr := none
  depth : Nat := 0

inductive ErrType
  | error
  | warning
  | eval
  deriving DecidableEq

/-- `runloc_t`. -/
structure Frame where
  md : Str
  func : Option Str
  line : Nat
  deriving DecidableEq

/-- The calls to `output_t`, which make up the text.  An error knows where it was reported, and
whether the output was muzzled. -/
inductive Out
  | raw (data : Str)
  | text (data : Str)
  | str (s : Str)
  | wssBoundary (on : Bool) (tag : Str)
  | err (stack : List Frame) (msg : Str) (typ : ErrType) (muzzle : Bool)
  deriving DecidableEq

structure Opts where
  config : Bool := false
  warnInlineNull : Bool := false
  warnNull : Bool := false
  warnRelargNull : Bool := false
  strictIncludeScoping : Bool := false
  utf8Json : Bool := false
  exitOnError : Bool := false
  noLocale : Bool := false

/-- The members of `eval_t` and of its `env_t`.  The line of the innermost frame is kept apart. -/
structure State where
  heap : Heap
  universals : Nat
  globals : Nat
  stack : List Layer
  globalFrames : Nat
  md : Str
  func : Option Str := none
  callers : List Frame := []
  control : Control := {}
  loud : Bool := true
  silent : Bool := false
  opts : Opts := {}
  muzzle : Bool := false
  out : List Out := []
  cwd : Option Str := none

abbrev Act := StateT State Option

def onHeap {α : Type} (m : Mem α) : Act α := fun s =>
  (m s.heap).map fun r => (r.1, { s with heap := r.2 })

namespace Heap

def dictTab (h : Heap) (d : Nat) : Option Tab := match h[d]? with
  | some (.dict t _) => some t
  | _ => none

def backing (h : Heap) : Backing → Option Tab
  | .tab t => some t
  | .dict d => h.dictTab d

/-- The table of a `bind_interface_t`. -/
def tab (h : Heap) (b : Nat) : Option Tab := match h[b]? with
  | some (.dict t _) => some t
  | some (.cowTab o none) => h.backing o
  | some (.cowTab _ (some c)) => h.dictTab c
  | _ => none

end Heap

/-- `mutate` of a table. -/
def mutate (b : Nat) : Mem Nat := do match ← Mem.load b with
  | .dict _ _ => pure b
  | .cowTab _ (some c) => pure c
  | .cowTab o none => do
    let h ← get
    match h.backing o with
    | none => Mem.stuck
    | some t => do
      let t' ← copyTab t
      let c ← Mem.alloc (.dict t' none)
      Mem.store b (.cowTab o (some c))
      pure c
  | _ => Mem.stuck

namespace State

variable (s : State)

/-- The value of a name in a table: nothing if the name is not there, and it may be there without a
value. -/
def lookupIn (b : Nat) (nm : Str) : Option (Option (Option Ptr)) :=
  (s.heap.tab b).map fun t => t.lookup nm

/-- `dec_stack_pointer`, on the number of layers. -/
def decStackPointer (l : Layer) (i : Nat) : Nat :=
  if l.typ = .localsBarrier then s.globalFrames + 1 else i

/-- The first layer that has the name, with what it has; the first argument bounds the number of
layers that are looked at. -/
def findLayer (nm : Str) : Nat → Nat → Option (Option (Layer × Option Ptr))
  | _, 0 => some none
  | 0, _ => none
  | f + 1, i + 1 => do
    let l ← s.stack[i]?
    match l.bindings with
    | none => findLayer nm f (s.decStackPointer l i)
    | some b => match ← s.lookupIn b nm with
      | some x => some (some (l, x))
      | none => findLayer nm f (s.decStackPointer l i)

def lookupVal (nm : Str) : Option (Option Ptr) := do
  match ← s.findLayer nm (s.stack.length + 1) s.stack.length with
  | none => some none
  | some (l, x) =>
    if l.typ = .unirefs then do
      let y ← s.lookupIn s.universals nm
      some (some (y.join.getD .null))
    else some (some (x.getD .null))

end State

def lookupRef (nm : Str) : Act Ref := do
  let s ← get
  match s.findLayer nm (s.stack.length + 1) s.stack.length with
  | none => fun _ => none
  | some none => pure (.dict s.globals nm)
  | some (some (l, _)) =>
    if l.typ = .unirefs then pure (.dict s.universals nm)
    else match l.bindings with
      | none => fun _ => none
      | some b => do
        let d ← onHeap (mutate b)
        pure (.dict d nm)

def getLayer (sc : VarScope) (s : State) : Nat := match sc with
  | .globals => s.globals
  | .universals => s.universals

section Stack

def pushLayer (l : Layer) : Act Unit := modify fun s => { s with stack := s.stack ++ [l] }

/-- `push_locals`, which tells the size of the stack before. -/
def pushLocals (b : Nat) (typ : LayerType) : Act Nat := do
  let s ← get
  pushLayer ⟨b, typ⟩
  pure s.stack.length

def popTo (i : Nat) : Act Unit := modify fun s => { s with stack := s.stack.take i }

def stackSize : Act Nat := do pure (← get).stack.length

def isBarrier (l : Layer) : Bool := l.typ = .localsBarrier

def pushLambda (b : Nat) (closure : Option (List Layer)) : Act Nat := do
  let n ← stackSize
  match closure with
  | none => pushLayer ⟨b, .locals⟩
  | some ls => modify fun s => { s with
      stack := s.stack ++ (if ls.head?.any isBarrier then ls else ⟨none, .localsBarrier⟩ :: ls) ++
        [⟨b, .locals⟩] }
  pure n

/-- `capture_closure`, on the layers from the top down and those that are captured already. -/
def captureClosure : List Layer → List Layer → List Layer
  | [], _ => []
  | l :: ls, c => match l.typ with
    | .unirefs | .locals => captureClosure ls (l :: c)
    | .localsBarrier | .localsBarrierWeak => l :: c
    | .none | .universals | .globals | .library => c

def pushBindings (typ : DeclType) : Act Nat := do
  let s ← get
  match typ with
  | .universals => pure (if s.opts.config then s.globals else s.universals)
  | .globals => pure s.globals
  | .locals => do
    let b ← onHeap (Mem.alloc (.dict [] none))
    pushLayer ⟨b, .locals⟩
    pure b

/-- `push_references`, with the names only. -/
def pushReferences (bindings : List (Str × Option Expr)) (typ : DeclType) : Act Unit :=
  if typ = .universals then do
    let b ← onHeap (Mem.alloc (.dict (bindtab (bindings.map fun b => (b.1, none))) none))
    pushLayer ⟨b, .unirefs⟩
  else pure ()

def insertTab (b : Nat) (nm : Str) (x : Option Ptr) : Act Unit := onHeap do
  match ← Mem.load b with
  | .dict t st => Mem.store b (.dict (Bindtab.insert t (nm, x)) st)
  | _ => Mem.stuck

end Stack

section Flags

def setControl (c : Control) : Act Unit := modify fun s => { s with control := c }

def handleForloop : Act Bool := do
  let c := (← get).control
  setControl { c with brk := false, cont := false }
  pure (!c.brk && c.rtrn.isNone)

def resetForloop : Act Unit := do
  setControl { (← get).control with brk := false, cont := false }

def handleZone : Act Bool := do
  let c := (← get).control
  pure (!c.brk && c.rtrn.isNone && !c.cont && !c.exit)

def setSilent (b : Bool) : Act Bool := do
  let s ← get
  set { s with silent := b }
  pure s.silent

def setLoud (b : Bool) : Act Bool := do
  let s ← get
  set { s with loud := b }
  pure s.loud

end Flags

section Output

/-- Errors are recorded also when the output is muzzled. -/
def output (o : Out) : Act Unit := modify fun s => match o with
  | .raw _ | .text _ | .str _ => if s.muzzle then s else { s with out := s.out ++ [o] }
  | _ => { s with out := s.out ++ [o] }

/-- `output_t::output_err`, and what `eval_t` does to its flags. -/
def outputErrAt (stack : List Frame) (msg : Str) (typ : ErrType) : Act Unit := do
  let s ← get
  output (.err stack msg typ s.muzzle)
  if s.opts.exitOnError then setControl { s.control with exit := true } else pure ()

end Output

/-- What a run is asked about afterwards: that it wrote a value, inserted one into a string, and
reported an error at the line in force; that it came to what the functions that do not wait
leave out; that `exit` went on where nothing tests it, or a jump left a heredoc; that a zone was
published where nothing pops the layers that it leaves; and that a function of a library was
called. -/
inductive Step
  | shown (n : Nat) (s : State) (x : Ptr)
  | inserted (n : Nat) (s : State) (x : Ptr)
  | unlocated
  | skippedInclude
  | skippedHeredoc
  | skippedBlocking
  | strayed
  | jumped
  | unscoped (z : Zone)
  | library (f : Compiled)

abbrev Eval := Prog Nat State Step

abbrev act {α : Type} (m : Act α) : Eval α := Prog.lift m

abbrev mem {α : Type} (m : Mem α) : Eval α := Prog.lift (onHeap m)

theorem ensures_mem {α : Type} {G : Step → Prop} {s : State} {m : Mem α} {P : α → State → Prop}
    (hm : ∀ a h', m s.heap = some (a, h') → P a { s with heap := h' }) :
    Ensures G (mem m) s P := by
  refine .lift fun a t hf => ?_
  obtain ⟨⟨b, h'⟩, hb, hf⟩ := Option.map_eq_some_iff.mp hf
  cases hf
  exact hm _ _ hb

/-- `exit` was executed, and what comes now does not ask for it. -/
def noteExit : Eval Unit := Prog.noteIf (fun s => s.control.exit) .strayed

/-- A heredoc that was begun with the flags `c` ends with others. -/
def noteJump (c : Control) : Eval Unit := Prog.noteIf (fun s =>
  s.control.brk && !c.brk || s.control.cont && !c.cont || s.control.exit && !c.exit ||
    s.control.rtrn.isSome && c.rtrn.isNone) .jumped

def setLineno (l : Nat) : Eval Unit := Prog.setReg l

/-- `output_err`, with the innermost frame. -/
def outputErr (msg : Str) (typ : ErrType) : Eval Unit := do
  let l ← Prog.getReg
  act do
    let s ← get
    outputErrAt [⟨s.md, s.func, l⟩] msg typ

/-- `report_error` of something that has no line, while a function is called. -/
def reportHere (msg : Str) : Eval Unit := outputErr msg .eval

/-- `report_error` of a node. -/
def reportError (line : Nat) (msg : Str) : Eval Unit :=
  if line = 0 then do
    Prog.note fun _ => .unlocated
    reportHere msg
  else do
    setLineno line
    reportHere msg

/-- The last part of an evaluation: a value, or an error. -/
def final {α : Type} (line : Nat) (m : Mem (Except Str (Option α))) : Eval (Option α) := do
  match ← mem m with
  | .ok x => pure x
  | .error msg => do
    reportError line msg
    pure none

end Okws.Pub3

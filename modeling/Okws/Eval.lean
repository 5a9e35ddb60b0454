import Okws.Env

/-! Publishing without waiting: `eval_to_val` and its kin, and `v_publish_nonblock`. -/

namespace Okws.Pub3

open Zbuf Lib

inductive Status
  | ok
  | failed (code : Nat)
  deriving DecidableEq

/-- `callable_t`. -/
inductive Callable
  | lambda (l : Lambda) (closure : Option (Str × List Layer))
  | compiled (f : Compiled)

def View.toCallable : View → Option Callable
  | .lambda l c => some (.lambda l c)
  | .compiled f => some (.compiled f)
  | _ => none

/-- What a template is published with: the functions of the libraries, which may call functions
that they were given; those that wait; the files that are included; and the text that a list of
calls to `output_t` makes, after those that came before. -/
structure Host extends Prims where
  vEval1 : Compiled → (Callable → List Ptr → Eval (Option Ptr)) → List (Option Ptr) →
    Eval (Option Ptr)
  vPubToVal2 : Compiled → List (Option Ptr) → Eval (Option Ptr)
  publish : Str → Eval Status
  toStrbuf : List Out → List Out → Str

/-- A `for` that has found its list. -/
structure ForLoop where
  line : Nat
  iter : Str
  body : Option Zone
  list : Nat
  locals : Nat

/-- The functions that call each other, either those that do not wait or those that do: the value,
a reference and the value to be changed of an expression, the call of a function, the two kinds of
nodes, and one turn of the two kinds of loops. -/
structure Evals where
  toVal : Ptr → Eval (Option Ptr)
  toRef : Ptr → Eval (Option Ref)
  toMval : Ptr → Eval (Option Ptr)
  call : Callable → List Ptr → Eval (Option Ptr)
  zone : Zone → Eval Status
  statement : Statement → Eval Status
  whileLoop : Expr → Option Zone → Eval Unit
  forLoop : ForLoop → Nat → Status → Eval Status

def Evals.stuck : Evals where
  toVal _ := Prog.stuck
  toRef _ := Prog.stuck
  toMval _ := Prog.stuck
  call _ _ := Prog.stuck
  zone _ := Prog.stuck
  statement _ := Prog.stuck
  whileLoop _ _ := Prog.stuck
  forLoop _ _ _ := Prog.stuck

section Shared

/-- The elements of a list that is not static; one without a value is null. -/
def mapEls (f : Ptr → Eval (Option Ptr)) : List (Option Ptr) → Eval (List (Option Ptr))
  | [] => pure []
  | none :: xs => do
    let ys ← mapEls f xs
    pure (some .null :: ys)
  | some p :: xs => do
    let y ← f p
    let ys ← mapEls f xs
    pure (some (y.getD .null) :: ys)

/-- The bindings of a dictionary that is not static; one without a value is left out. -/
def mapTab (f : Ptr → Eval (Option Ptr)) : Tab → Eval Tab
  | [] => pure []
  | (_, none) :: bs => mapTab f bs
  | (k, some p) :: bs => do
    let y ← f p
    let cs ← mapTab f bs
    pure (y.toList.map (fun q => (k, some q)) ++ cs)

def newCow (p : Ptr) : Mem (Option Ptr) :=
  (fun a => some (.obj a)) <$> Mem.alloc (.cow none (some p))

/-- `expr_list_t::eval_to_mval`, and `pub_to_mval`. -/
def listToMval (n : Nat) (f : Ptr → Eval (Option Ptr)) (p : Ptr) (els : List (Option Ptr)) :
    Eval (Option Ptr) := do
  if ← mem (isStatic n p) then mem (newCow p)
  else do
    let ys ← mapEls f els
    mem (newList ys)

/-- `expr_dict_t::eval_to_mval`, and `pub_to_mval`. -/
def dictToMval (n : Nat) (f : Ptr → Eval (Option Ptr)) (p : Ptr) (tab : Tab) :
    Eval (Option Ptr) := do
  if ← mem (isStatic n p) then mem (newCow p)
  else do
    let bs ← mapTab f tab
    mem (newDict bs)

def viewOf (p : Ptr) : Mem View := do
  let h ← get
  match h.view p with
  | none => Mem.stuck
  | some v => pure v

/-- `to_dict` of a value, to make a table of it that is copied on write. -/
def backingOf (p : Ptr) : Mem (Option Backing) := do
  match (← viewOf p).toDict with
  | none => pure none
  | some t => do
    let h ← get
    match h.constPtr p with
    | some (.obj d) => pure (some (.dict d))
    | _ => pure (some (.tab t))

def toBoolOpt : Option Ptr → Mem Bool
  | none => pure false
  | some p => View.toBool <$> viewOf p

def isNullOpt : Option Ptr → Mem Bool
  | none => pure true
  | some p => View.isNull <$> viewOf p

def getValueOpt : Option Ref → Mem (Option Ptr)
  | none => pure none
  | some r => r.getValue

def refToCopy (x : Option Ptr) : Mem (Option Ref) := do
  let y ← copyOpt x
  pure (some (.const y))

/-- `callable_t::eval_to_ref`, from the value. -/
def callToRef (x : Option Ptr) : Mem (Option Ref) := do
  let y ← copyOpt x
  pure (y.map fun q => .const (some q))

/-- `lambda_t::copy`. -/
def close (l : Lambda) : Act Ptr := do
  let s ← get
  .obj <$> onHeap (Mem.alloc (.lambda l s.md (captureClosure s.stack.reverse [])))

variable (H : Host) (n : Nat)

def eqFinal (x₁ x₂ : Option Ptr) (pos : Bool) : Mem Bool := fun h =>
  (evalStatic H.toPrims h n x₁ x₂ pos).map (·, h)

def relationReport (line : Nat) (op : RelOp) (l r : Option Ptr) : Eval Bool := do
  let b ← act fun s => (relationFinal H.toPrims s.heap op n l r).map fun b =>
    ((b.1, b.2 && s.opts.warnRelargNull), s)
  Prog.when b.2 (reportError line (text "one or more relational arguments were null"))
  pure b.1

/-- `expr_varref_t::eval_to_val`. -/
def varrefToVal (line : Nat) (nm : Str) : Eval (Option Ptr) := do
  let x ← act fun s => (s.lookupVal nm).map (·, s)
  let s ← act get
  Prog.when (x.isNone && !s.silent && s.opts.warnNull)
    (reportError line (text "cannot resolve variable: '" ++ cstr nm ++ text "'"))
  pure x

/-- `expr_scoped_varref_t::eval_to_val`, which finds null where there is nothing. -/
def scopedToVal (sc : VarScope) (nm : Str) : Eval (Option Ptr) :=
  act fun s => (s.lookupIn (getLayer sc s) nm).map fun x => (some (x.join.getD .null), s)

def scopedToRef (sc : VarScope) (nm : Str) : Eval (Option Ref) :=
  act fun s => some (some (.dict (getLayer sc s) nm), s)

def writtenStr (quoted : Bool) (p : Ptr) : Act (Option Str) := fun s =>
  (H.toStr s.heap n { quoted := quoted, utf8 := s.opts.utf8Json } p).map (·, s)

/-- The text of a value that is inserted into a string. -/
def insertedStr (utf8 : Bool) (p : Ptr) : Act (Option Str) := fun s =>
  (H.toStr s.heap n { utf8 := utf8 && s.opts.utf8Json } p).map (·, s)

def insertOpt (utf8 : Bool) : Option Ptr → Eval (Option Str)
  | none => pure none
  | some p => do
    Prog.note fun s => .inserted n s p
    act (insertedStr H n utf8 p)

def toIdentifier : Expr → Str
  | .varref _ nm => nm
  | _ => text "unknown"

/-- What `call_t` makes of the value of its function. -/
def callee (line : Nat) (fn : Expr) : Option Ptr → Eval (Option Callable)
  | none => do
    reportError line (text "cannot resolve function \"" ++ toIdentifier fn ++ text "\"")
    pure none
  | some p => do
    match (← mem (viewOf p)).toCallable with
    | none => do
      reportError line (text "expected a function; got something else")
      pure none
    | some f => pure (some f)

namespace Lambda

variable (l : Lambda)

def maxSize : Nat := l.params.length + l.optParams.length

def checkArgs (as : Nat) : Eval Bool :=
  if l.params.length ≤ as ∧ as ≤ l.maxSize then pure true
  else do
    reportHere (text "Wrong number of parameters to call " ++ cstr (H.lambdaToStr {} l) ++
      text " (expected " ++ decimal l.params.length ++ text ", got " ++ decimal as ++
      text " (max " ++ decimal l.maxSize ++ text "))")
    pure false

end Lambda

/-- `bind_args`, with the names that the arguments get. -/
def bindArgs (f : Ptr → Eval (Option Ref)) : List Ptr → List Str → Tab → Eval Tab
  | a :: as, nm :: nms, t => do
    let r ← f a
    let x ← mem (getValueOpt r)
    bindArgs f as nms (Bindtab.insert t (nm, some (x.getD .null)))
  | _, _, t => pure t

def evalArgs (safeArgs : Bool) (f : Ptr → Eval (Option Ptr)) : List Ptr →
    Eval (List (Option Ptr))
  | [] => pure []
  | a :: as => do
    let x ← f a
    let xs ← evalArgs safeArgs f as
    pure ((if safeArgs then some (x.getD .null) else x) :: xs)

def okPubMaxStack : Nat := 256

def callLib (f : Compiled) (m : Eval (Option Ptr)) : Eval (Option Ptr) := do
  Prog.note fun _ => .library f
  m

/-- What `pop_lambda_call` needs. -/
structure LambdaState where
  bindingStackSize : Nat
  oldControl : Control
  overflow : Bool

def pushLambdaCall (l : Lambda) (closure : Option (Str × List Layer)) (t : Tab) :
    Eval LambdaState := do
  let line ← Prog.getReg
  let r ← act do
    let s ← get
    set { s with
      callers := ⟨s.md, s.func, line⟩ :: s.callers
      md := closure.elim (text "<top-level>") (·.1)
      func := some l.name }
    let b ← onHeap (Mem.alloc (.dict t none))
    let size ← pushLambda b (closure.map (·.2))
    setControl { depth := s.control.depth + 1 }
    let s' ← get
    if okPubMaxStack < s'.callers.length + 1 then do
      outputErrAt (⟨s'.md, s'.func, 0⟩ :: s'.callers) (text "call stack overflow") .error
      pure (LambdaState.mk size s.control true)
    else pure (LambdaState.mk size s.control false)
  setLineno 0
  pure r

def popLambdaCall (st : LambdaState) : Eval (Option Ptr) := do
  noteExit
  let r ← act do
    let s ← get
    match s.callers with
    | [] => fun _ => none
    | f :: fs => do
      set { s with control := st.oldControl, callers := fs, md := f.md, func := f.func }
      popTo st.bindingStackSize
      pure (f.line, s.control.rtrn)
  setLineno r.1
  pure r.2

def publishAll {α : Type} (f : α → Eval Status) : List α → Status → Eval Status
  | [], ret => pure ret
  | z :: zs, ret => do
    if ← act handleZone then do
      let tmp ← f z
      publishAll f zs (if tmp = .ok then ret else tmp)
    else pure ret

def outputOr (t : Option Str) (m : Eval Unit) : Eval Unit := match t with
  | some t => act (output (.str t))
  | none => m

def nullWarn (dowarn : Bool) (line : Nat) : Eval Unit :=
  Prog.when dowarn (reportError line (text "Inline expression %\x7b\x7d evaluates to NULL"))

/-- The body of a `while`, whose layers are popped. -/
def whileBody (f : Zone → Eval Status) : Option Zone → Eval Unit
  | none => pure ()
  | some z => do
    let size ← act stackSize
    let _ ← f z
    act (popTo size)

/-- The zone of a `for` without rows, whose layers stay. -/
def emptyZone {α : Type} (f : Zone → Eval α) (z : Zone) : Eval α := do
  Prog.note fun _ => .unscoped z
  f z

def findClause (f : Expr → Eval Bool) : List (Option Expr × Option Zone) → Eval (Option Zone)
  | [] => pure none
  | (none, z) :: _ => pure z
  | (some x, z) :: cs => do
    if ← f x then pure z else findClause f cs

/-- The bindings of a declaration, which see those before them. -/
def declare (f : Ptr → Eval (Option Ptr)) (frame : Nat) (locals : Bool) :
    List (Str × Option Expr) → Eval Unit
  | [] => pure ()
  | (nm, none) :: bs => do
    Prog.when locals (act (insertTab frame nm (some .null)))
    declare f frame locals bs
  | (nm, some x) :: bs => do
    let y ← f (.node x)
    act (insertTab frame nm (some (y.getD .null)))
    declare f frame locals bs

/-- `decl_block_t::v_publish_nonblock`, and `v_publish`. -/
def declBlock (f : Ptr → Eval (Option Ptr)) (typ : DeclType)
    (bindings : List (Str × Option Expr)) : Eval Status := do
  if Expr.bindingsStatic bindings && typ == .locals then do
    act do
      let b ← onHeap (Mem.alloc
        (.cowTab (.tab ((bindtab bindings).map fun b => (b.1, b.2.map .node))) none))
      pushLayer ⟨b, .locals⟩
    pure .ok
  else do
    let frame ← act (pushBindings typ)
    declare f frame (typ == .locals) bindings
    act (pushReferences bindings typ)
    pure .ok

def listEls (l : Nat) : Mem (List (Option Ptr)) := do match ← Mem.load l with
  | .list els _ => pure els
  | _ => Mem.stuck

/-- The list of a `for`, with its size. -/
def listSize : Option Nat → Mem (Option (Nat × Nat))
  | none => pure none
  | some l => do
    let els ← listEls l
    pure (some (l, els.length))

def rowValue (f : Ptr → Eval (Option Ref)) : Option Ptr → Eval (Option Ptr)
  | none => pure none
  | some row => do
    let rr ← f row
    mem (getValueOpt rr)

def setRow (l i : Nat) (x : Ptr) : Mem Unit := do match ← Mem.load l with
  | .list els st => Mem.store l (.list (els.set i (some x)) st)
  | _ => Mem.stuck

def returnValue (f : Ptr → Eval (Option Ptr)) : Option Expr → Eval (Option Ptr)
  | none => pure none
  | some x => f (.node x)

def setRtrn (x : Option Ptr) : Act Unit :=
  modify fun s => { s with control := { s.control with rtrn := some (x.getD .null) } }

def toSwitchStr : Constant → Str
  | .bool b => text (if b then "1" else "0")
  | c => H.constantToStr {} c

/-- The zone of the last case for which `q` holds. -/
def lastCase (q : Option Constant → Bool) (cases : List (Option Constant × Option Zone)) :
    Option (Option Zone) :=
  (cases.findRev? fun c => q c.1).map (·.2)

/-- The lookup of `switch_t::find_case`, for the text of the key. -/
def lookupCase (cases : List (Option Constant × Option Zone)) (k : Option Str) : Option Zone :=
  let found := match k with
    | some k => lastCase (fun c => c.any fun c => c != Constant.null && toSwitchStr H c == k) cases
    | none => lastCase (fun c => c == some Constant.null) cases
  (found.join).orElse fun _ => (lastCase (fun c => c.isNone) cases).join

end Shared

namespace Nonblock

variable (H : Host) (n : Nat) (E : Evals)

def evalAsBool (x : Expr) : Eval Bool := do
  let l ← act (setSilent true)
  let v ← E.toVal (.node x)
  let _ ← act (setSilent l)
  mem (toBoolOpt v)

def evalAsNull (p : Ptr) : Eval Bool := do
  let l ← act (setSilent true)
  let v ← E.toVal p
  let _ ← act (setSilent l)
  mem (isNullOpt v)

def evalAsStr (x : Expr) : Eval (Option Str) := do
  match ← E.toVal (.node x) with
  | none => pure none
  | some p => do
    Prog.note fun s => .shown n s p
    act (writtenStr H n false p)

/-- `eval_as_str` of the key of a `switch`, which is called on both ways. -/
def evalKey (x : Expr) : Eval (Option Str) := do
  match ← E.toVal (.node x) with
  | none => pure none
  | some p => act (writtenStr H n false p)

/-- `eval_logical`, of the expressions that have it. -/
def evalLogical : Expr → Eval Bool
  | .or _ t₁ t₂ => do
    if ← evalAsBool E t₁ then pure true else evalAsBool E t₂
  | .and _ f₁ f₂ => do
    if ← evalAsBool E f₁ then evalAsBool E f₂ else pure false
  | .not _ e => do
    let b ← evalAsBool E e
    pure !b
  | .eq _ o₁ o₂ pos => do
    let x₁ ← E.toVal (.node o₁)
    let x₂ ← E.toVal (.node o₂)
    mem (eqFinal H n x₁ x₂ pos)
  | .relation line l r op => do
    let x ← E.toVal (.node l)
    let y ← E.toVal (.node r)
    relationReport H n line op x y
  | _ => Prog.stuck

/-- The loop of `expr_shell_str_t::eval_to_val`. -/
def shellStr : List Expr → Eval Str
  | [] => pure []
  | x :: xs => do
    let v ← E.toVal (.node x)
    let s ← insertOpt H n false v
    let t ← shellStr xs
    pure (s.getD [] ++ t)

def evalPrepare (line : Nat) (fn : Expr) : Eval (Option Callable) := do
  setLineno line
  let f ← E.toVal (.node fn)
  callee line fn f

def evalCall (line : Nat) (fn : Expr) (arglist : List Expr) : Eval (Option Ptr) := do
  match ← evalPrepare E line fn with
  | none => pure none
  | some f => E.call f (arglist.map .node)

/-- `expr_assignment_t::eval_to_ref`. -/
def evalAssignment (line : Nat) (lhs rhs : Expr) : Eval (Option Ref) := do
  let r ← E.toMval (.node rhs)
  let l ← E.toRef (.node lhs)
  final line (assignmentFinal l r)

/-- `eval_to_val` of what lies on the heap. -/
def objToVal (a : Nat) : Obj → Eval (Option Ptr)
  | .list els _ => listToMval n E.toMval (.obj a) els
  | .dict tab _ => dictToMval n E.toMval (.obj a) tab
  | .cow c o => match c.orElse fun _ => o with
    | none => pure none
    | some p => E.toVal p
  | .lambda l _ _ => some <$> act (close l)
  | .compiled _ => pure (some (.obj a))
  | .cowTab _ _ => Prog.stuck

def evalToVal : Ptr → Eval (Option Ptr)
  | .node x => match x with
    | .constant _ | .regex _ _ => pure (some (.node x))
    | .or _ _ _ | .and _ _ _ | .not _ _ | .eq _ _ _ _ | .relation _ _ _ _ => do
      let b ← evalLogical H n E x
      pure (some (.const (.bool b)))
    | .binaryop line o₁ o₂ op => do
      let x₁ ← E.toVal (.node o₁)
      let x₂ ← E.toVal (.node o₂)
      final line (binaryopFinal H.toPrims n op x₁ x₂)
    | .dictref line d key => do
      let v ← E.toVal (.node d)
      final line (dictrefValFinal key v)
    | .vecref line v i => do
      let c ← E.toVal (.node v)
      let j ← E.toVal (.node i)
      final line (vecrefValFinal H.toPrims n c j)
    | .varref line nm => varrefToVal line nm
    | .scopedVarref _ nm sc => scopedToVal sc nm
    | .list _ els => listToMval n E.toMval (.node x) (els.map fun y => some (.node y))
    | .dict _ bs => dictToMval n E.toMval (.node x) (bs.map fun b => (b.1, b.2.map .node))
    | .shellStr _ els => do
      let s ← shellStr H n E els
      pure (some (.const (.str s)))
    | .assignment line lhs rhs => do
      let r ← evalAssignment E line lhs rhs
      mem (getValueOpt r)
    | .call line fn arglist _ => evalCall E line fn arglist
    | .lambda line nm ps os b => some <$> act (close ⟨line, nm, ps, os, b⟩)
    | .heredoc _ _ => do
      Prog.note fun _ => .skippedHeredoc
      pure none
  | .obj a => do
    let o ← mem (Mem.load a)
    objToVal n E a o

/-- `eval_to_ref`; most expressions have a reference to a copy of their value. -/
def evalToRef : Ptr → Eval (Option Ref)
  | .node x => match x with
    | .dictref line d key => do
      let r ← E.toRef (.node d)
      final line (dictrefRefFinal key r)
    | .vecref line v i => do
      let c ← E.toRef (.node v)
      let j ← E.toVal (.node i)
      final line (vecrefRefFinal H.toPrims n c j)
    | .varref _ nm => some <$> act (lookupRef nm)
    | .scopedVarref _ nm sc => scopedToRef sc nm
    | .assignment line lhs rhs => evalAssignment E line lhs rhs
    | .call line fn arglist _ => do
      let v ← evalCall E line fn arglist
      mem (callToRef v)
    | .lambda line nm ps os b => do
      let p ← act (close ⟨line, nm, ps, os, b⟩)
      pure (some (.const (some p)))
    | .heredoc _ _ => do
      Prog.note fun _ => .skippedHeredoc
      pure none
    | _ => do
      let v ← evalToVal H n E (.node x)
      mem (refToCopy v)
  | .obj a => do
    let v ← evalToVal H n E (.obj a)
    mem (refToCopy v)

def evalToMval : Ptr → Eval (Option Ptr)
  | .node x => match x with
    | .list _ _ | .dict _ _ => evalToVal H n E (.node x)
    | .dictref _ _ _ | .vecref _ _ _ | .varref _ _ | .scopedVarref _ _ _ => do
      let r ← evalToRef H n E (.node x)
      mem (getValueOpt r)
    | _ => do
      let v ← evalToVal H n E (.node x)
      mem (copyOpt v)
  | .obj a => do match ← mem (Mem.load a) with
    | .list els _ => listToMval n E.toMval (.obj a) els
    | .dict tab _ => dictToMval n E.toMval (.obj a) tab
    | _ => do
      let v ← evalToVal H n E (.obj a)
      mem (copyOpt v)

/-- `eval_to_val` of functions.  One that may wait is not called. -/
def evalFn : Callable → List Ptr → Eval (Option Ptr)
  | .lambda l closure, args => do
    if ← l.checkArgs H args.length then do
      let t ← bindArgs E.toRef args (l.params ++ l.optParams) []
      let st ← pushLambdaCall l closure t
      if !st.overflow then
        match l.body with
        | none => Prog.stuck
        | some z => do
          let _ ← E.zone z
          let r ← popLambdaCall st
          pure (some (r.getD .null))
      else do
        let r ← popLambdaCall st
        pure (some (r.getD .null))
    else pure (some .null)
  | .compiled f, args => match f.kind, args with
    | .plain safeArgs, _ => do
      let xs ← evalArgs safeArgs E.toMval args
      callLib f (H.vEval1 f E.call xs)
    | .blocking, _ => do
      Prog.note fun _ => .skippedBlocking
      let _ ← evalArgs true E.toMval args
      pure (some .null)
    | .isnull, [a] => do
      let b ← evalAsNull E a
      pure (some (.const (.bool b)))
    | .isnull, _ => do
      reportHere (text "isnull() takes 1 argument")
      pure (some (.const (.bool true)))
    | .default, [a] => do
      if ← evalAsNull E a then pure (some (.const (.str []))) else E.toVal a
    | .default, [a, b] => do
      let isNull ← evalAsNull E a
      let d ← E.toVal b
      if isNull then pure d else E.toVal a
    | .default, _ => do
      reportHere (text "default() expects 1 or 2 args")
      pure none

/-- `v_publish_nonblock` of zones. -/
def publishZone : Zone → Eval Status
  | .raw _ data => do
    act (output (.raw data))
    pure .ok
  | .text _ data => do
    act (output (.text data))
    pure .ok
  | .wssBoundary _ on tag => do
    act (output (.wssBoundary on tag))
    pure .ok
  | .html _ children => publishAll E.zone children .ok
  | .inlineExpr line x => do
    let s ← act get
    let dowarn := s.opts.warnInlineNull
    let oldLoud ← act (if dowarn then setLoud true else pure false)
    let t ← evalAsStr H n E x
    outputOr t (nullWarn dowarn line)
    Prog.when dowarn (act (discard (setLoud oldLoud)))
    pure .ok
  | .pub _ statements => publishAll E.statement statements .ok

def evalList (arr : Expr) : Eval (Option Nat) := do
  let old ← act (setSilent true)
  let m ← E.toRef (.node arr)
  let x ← mem (getValueOpt m)
  let l ← mem (match x with
    | none => pure none
    | some p => toList p)
  let _ ← act (setSilent old)
  pure l

/-- One turn of the loop of `while_t`. -/
def whileTurn (cond : Expr) (body : Option Zone) : Eval Unit := do
  if ← act handleForloop then do
    noteExit
    if ← evalAsBool E cond then do
      whileBody E.zone body
      E.whileLoop cond body
    else pure ()
  else pure ()

/-- One turn of the loop of `for_t`. -/
def forTurn (f : ForLoop) (i : Nat) (status : Status) : Eval Status := do
  if ← act handleForloop then do
    noteExit
    let els ← mem (listEls f.list)
    if i < els.length then do
      let rev ← rowValue E.toRef (els[i]?).join
      match rev, f.body with
      | none, _ => do
        reportError f.line (text "for: row " ++ decimal i ++ text " is undefined!")
        E.forLoop f (i + 1) status
      | some _, none => E.forLoop f (i + 1) status
      | some x, some z => do
        act (insertTab f.locals f.iter (some x))
        let size ← act (pushLocals f.locals .locals)
        let tmp ← E.zone z
        act (popTo size)
        mem (setRow f.list i x)
        E.forLoop f (i + 1) (if tmp = .ok then status else tmp)
    else pure status
  else pure status

def findCase (key : Expr) (cases : List (Option Constant × Option Zone)) :
    Eval (Option Zone) := do
  let k ← evalKey H n E key
  match lookupCase H cases k with
  | some z => pure (some z)
  | none => do
    Prog.note fun _ => .unlocated
    outputErr (text "no case found for key ='" ++ cstr (k.getD (text "(null)")) ++
      text "'") .warning
    pure none

/-- The loop of `print_t`. -/
def printArgs : List Expr → Eval Unit
  | [] => pure ()
  | x :: xs => do
    let t ← evalAsStr H n E x
    outputOr t (pure ())
    printArgs xs

/-- `v_publish_nonblock` of statements. -/
def publishStatement : Statement → Eval Status
  | .zone _ none => Prog.stuck
  | .zone _ (some z) => E.zone z
  | .expr _ x => do
    let _ ← E.toRef (.node x)
    pure .ok
  | .while _ cond body => do
    act resetForloop
    E.whileLoop cond body
    pure .ok
  | .for line iter arr body empty => do
    let v ← evalList E arr
    match ← mem (listSize v), empty with
    | none, none => do
      reportError line (text "for: second argument is not an iterable vector")
      pure .ok
    | none, some z | some (_, 0), some z => emptyZone E.zone z
    | some (_, 0), none => pure .ok
    | some (l, _), _ => do
      let locals ← mem (Mem.alloc (.dict [] none))
      act resetForloop
      E.forLoop ⟨line, iter, body, l, locals⟩ 0 .ok
  | .if _ clauses => do
    match ← findClause (evalAsBool E) clauses with
    | none => pure .ok
    | some z => E.zone z
  | .decl _ typ bindings => declBlock E.toMval typ bindings
  | .switch _ key cases => do
    match ← findCase H n E key cases with
    | none => pure .ok
    | some z => do
      -- the status of the zone is dropped
      let _ ← E.zone z
      pure .ok
  | .include line _ file _ => do
    Prog.note fun _ => .skippedInclude
    let fn ← evalKey H n E file
    reportError line (text "include skipped in nonblock context: " ++ fn.getD [])
    pure .ok
  | .print _ args => do
    printArgs H n E args
    pure .ok
  | .fndef line nm ps os b => do
    let p ← act (close ⟨line, nm, ps, os, b⟩)
    let s ← act get
    act (insertTab s.globals nm (some p))
    pure .ok
  | .break _ => do
    act (modify fun s => { s with control := { s.control with brk := true } })
    pure .ok
  | .return _ val => do
    let x ← returnValue E.toVal val
    act (setRtrn x)
    pure .ok
  | .exit _ => do
    act (modify fun s => { s with control := { s.control with exit := true } })
    pure .ok
  | .continue _ => do
    act (modify fun s => { s with control := { s.control with cont := true } })
    pure .ok

def step : Evals where
  toVal := evalToVal H n E
  toRef := evalToRef H n E
  toMval := evalToMval H n E
  call := evalFn H E
  zone := publishZone H n E
  statement := publishStatement H n E
  whileLoop := whileTurn E
  forLoop := forTurn E

end Nonblock

/-- The functions that do not wait, with calls up to the given depth. -/
def nonblock (H : Host) : Nat → Evals
  | 0 => .stuck
  | n + 1 => Nonblock.step H n (nonblock H n)

end Okws.Pub3

import Okws.Eval

/-! Publishing with waits: `pub_to_val` and its kin, and `v_publish`.  What cannot block is left to
the functions that do not wait. -/

namespace Okws.Pub3

open Zbuf Lib

def Callable.mightBlock : Callable → Bool
  | .lambda l _ => zoneMightBlock l.body
  | .compiled f => f.kind = .blocking

def Zone.line : Zone → Nat
  | .raw l _ | .text l _ | .wssBoundary l _ _ | .html l _ | .inlineExpr l _ | .pub l _ => l

def Statement.line : Statement → Nat
  | .zone l _ | .expr l _ | .while l _ _ | .for l _ _ _ _ | .if l _ | .decl l _ _ | .switch l _ _
  | .include l _ _ _ | .print l _ | .fndef l _ _ _ _ | .break l | .return l _ | .exit l
  | .continue l => l

namespace Block

variable (H : Host) (n : Nat) (E A : Evals)

def pubAsBool (x : Expr) : Eval Bool := do
  let l ← act (setSilent true)
  let v ← A.toVal (.node x)
  let _ ← act (setSilent l)
  mem (toBoolOpt v)

def pubAsNull (p : Ptr) : Eval Bool := do
  let l ← act (setSilent true)
  let v ← A.toVal p
  let _ ← act (setSilent l)
  mem (isNullOpt v)

def pubAsStr (x : Expr) : Eval (Option Str) := do
  match ← A.toVal (.node x) with
  | none => pure none
  | some p => do
    Prog.note fun s => .shown n s p
    act (writtenStr H n (!p.isStr) p)

/-- `pub_logical`, of the expressions that have it. -/
def pubLogical : Expr → Eval Bool
  | .or _ t₁ t₂ => do
    if ← pubAsBool A t₁ then pure true else pubAsBool A t₂
  | .and _ f₁ f₂ => do
    if ← pubAsBool A f₁ then pubAsBool A f₂ else pure false
  | .not _ e => do
    let b ← pubAsBool A e
    pure !b
  | .eq _ o₁ o₂ pos => do
    let x₁ ← A.toVal (.node o₁)
    let x₂ ← A.toVal (.node o₂)
    mem (eqFinal H n x₁ x₂ pos)
  | .relation line l r op => do
    let x ← A.toVal (.node l)
    let y ← A.toVal (.node r)
    relationReport H n line op x y
  | _ => Prog.stuck

def pubLogicalIf (x : Expr) : Eval Bool :=
  if x.mightBlock then pubLogical H n A x else Nonblock.evalLogical H n E x

/-- The loop of `expr_shell_str_t::pub_to_val`. -/
def shellStr : List Expr → Eval Str
  | [] => pure []
  | x :: xs => do
    let v ← A.toVal (.node x)
    let s ← insertOpt H n true v
    let t ← shellStr xs
    pure (s.getD [] ++ t)

def pubFnToVal (fn : Expr) : Eval (Option Ptr) :=
  if fn.mightBlock then A.toVal (.node fn) else E.toVal (.node fn)

def pubPrepare (line : Nat) (fn : Expr) : Eval (Option Callable) := do
  setLineno line
  let f ← pubFnToVal E A fn
  callee line fn f

def pubCall (line : Nat) (fn : Expr) (arglist : List Expr) : Eval (Option Ptr) := do
  match ← pubPrepare E A line fn with
  | none => pure none
  | some f =>
    if f.mightBlock || exprsMightBlock arglist then A.call f (arglist.map .node)
    else E.call f (arglist.map .node)

/-- `expr_assignment_t::pub_to_ref`. -/
def pubAssignment (line : Nat) (lhs rhs : Expr) : Eval (Option Ref) := do
  let r ← A.toMval (.node rhs)
  let l ← A.toRef (.node lhs)
  final line (assignmentFinal l r)

/-- `heredoc_t::pub_to_val`, which publishes into an output of its own. -/
def pubHeredoc : Option Zone → Eval (Option Ptr)
  | none => pure (some .null)
  | some z => do
    Prog.note fun _ => .unscoped z
    let old ← act get
    act (modify fun s => { s with out := [], muzzle := false })
    let xs ← A.zone z
    noteJump old.control
    let new ← act get
    act (modify fun s => { s with out := old.out, muzzle := old.muzzle })
    pure (some (if xs = .ok then .const (.str (H.toStrbuf old.out new.out)) else .null))

def pubToVal : Ptr → Eval (Option Ptr)
  | .node x => match x with
    | .or _ _ _ | .and _ _ _ | .not _ _ | .eq _ _ _ _ | .relation _ _ _ _ => do
      let b ← pubLogicalIf H n E A x
      pure (some (.const (.bool b)))
    | .binaryop line o₁ o₂ op => do
      let x₁ ← A.toVal (.node o₁)
      let x₂ ← A.toVal (.node o₂)
      final line (binaryopFinal H.toPrims n op x₁ x₂)
    | .dictref line d key => do
      let v ← A.toVal (.node d)
      final line (dictrefValFinal key v)
    | .vecref line v i => do
      let c ← A.toVal (.node v)
      let j ← A.toVal (.node i)
      final line (vecrefValFinal H.toPrims n c j)
    | .list _ els => listToMval n A.toMval (.node x) (els.map fun y => some (.node y))
    | .dict _ bs => dictToMval n A.toMval (.node x) (bs.map fun b => (b.1, b.2.map .node))
    | .shellStr _ els => do
      let s ← shellStr H n A els
      pure (some (.const (.str s)))
    | .assignment line lhs rhs => do
      let r ← pubAssignment A line lhs rhs
      mem (getValueOpt r)
    | .call line fn arglist _ => pubCall E A line fn arglist
    | .heredoc _ body => pubHeredoc H A body
    | .constant _ | .regex _ _ | .varref _ _ | .scopedVarref _ _ _ | .lambda _ _ _ _ _ =>
      Nonblock.evalToVal H n E (.node x)
  | .obj a => do match ← mem (Mem.load a) with
    | .list els _ => listToMval n A.toMval (.obj a) els
    | .dict tab _ => dictToMval n A.toMval (.obj a) tab
    | o => Nonblock.objToVal n E a o

def pubToRef : Ptr → Eval (Option Ref)
  | .node x => match x with
    | .dictref line d key => do
      let r ← A.toRef (.node d)
      final line (dictrefRefFinal key r)
    | .vecref line v i => do
      let c ← A.toRef (.node v)
      let j ← A.toVal (.node i)
      final line (vecrefRefFinal H.toPrims n c j)
    | .varref _ _ | .scopedVarref _ _ _ => Nonblock.evalToRef H n E (.node x)
    | .assignment line lhs rhs => pubAssignment A line lhs rhs
    | .call line fn arglist _ => do
      let v ← pubCall E A line fn arglist
      mem (callToRef v)
    | _ => do
      let v ← pubToVal H n E A (.node x)
      mem (refToCopy v)
  | .obj a => do
    let v ← pubToVal H n E A (.obj a)
    mem (refToCopy v)

def pubToMval : Ptr → Eval (Option Ptr)
  | .node x => match x with
    | .list _ _ | .dict _ _ => pubToVal H n E A (.node x)
    | .dictref _ _ _ | .vecref _ _ _ | .varref _ _ | .scopedVarref _ _ _ => do
      let r ← pubToRef H n E A (.node x)
      mem (getValueOpt r)
    | _ => do
      let v ← pubToVal H n E A (.node x)
      mem (copyOpt v)
  | .obj a => do match ← mem (Mem.load a) with
    | .list els _ => listToMval n A.toMval (.obj a) els
    | .dict tab _ => dictToMval n A.toMval (.obj a) tab
    | _ => do
      let v ← pubToVal H n E A (.obj a)
      mem (copyOpt v)

/-- `pub_to_val` of functions.  Only the arguments of a function of a library are evaluated with
waits, unless it may wait itself. -/
def pubFn : Callable → List Ptr → Eval (Option Ptr)
  | .lambda l closure, args => do
    if ← l.checkArgs H args.length then do
      let t ← bindArgs A.toRef args (l.params ++ l.optParams) []
      let st ← pushLambdaCall l closure t
      if !st.overflow then
        match l.body with
        | none => Prog.stuck
        | some z => do
          let _ ← A.zone z
          let r ← popLambdaCall st
          pure (some (r.getD .null))
      else do
        let r ← popLambdaCall st
        pure (some (r.getD .null))
    else pure (some .null)
  | .compiled f, args => match f.kind, args with
    | .plain safeArgs, _ => do
      let xs ← evalArgs safeArgs A.toMval args
      callLib f (H.vEval1 f E.call xs)
    | .blocking, _ => do
      let xs ← evalArgs true A.toMval args
      callLib f (H.vPubToVal2 f xs)
    | .isnull, [a] => do
      let b ← pubAsNull A a
      pure (some (.const (.bool b)))
    | .isnull, _ => do
      reportHere (text "isnull() takes 1 argument")
      pure (some (.const (.bool true)))
    | .default, [a] => do
      if ← pubAsNull A a then pure (some (.const (.str []))) else A.toVal a
    | .default, [a, b] => do
      let isNull ← pubAsNull A a
      let d ← A.toVal b
      if isNull then pure d else A.toVal a
    | .default, _ => do
      reportHere (text "default() expects 1 or 2 args")
      pure none

/-- `v_publish` of zones. -/
def vPublishZone : Zone → Eval Status
  | .html _ children => publishAll A.zone children .ok
  | .inlineExpr line x => do
    let s ← act get
    let dowarn := s.opts.warnInlineNull
    let oldLoud ← act (if dowarn then setLoud true else pure false)
    let t ← pubAsStr H n A x
    outputOr t (nullWarn dowarn line)
    Prog.when dowarn (act (discard (setLoud oldLoud)))
    pure .ok
  | .pub _ statements => publishAll A.statement statements .ok
  | z => Nonblock.publishZone H n E z

def pubList (arr : Expr) : Eval (Option Nat) := do
  let old ← act (setSilent true)
  let m ← A.toRef (.node arr)
  let x ← mem (getValueOpt m)
  let l ← mem (match x with
    | none => pure none
    | some p => toList p)
  let _ ← act (setSilent old)
  pure l

/-- One turn of the loop of `while_t`. -/
def whileTurn (cond : Expr) (body : Option Zone) : Eval Unit := do
  if ← act handleForloop then do
    noteExit
    let go ← pubAsBool A cond
    if go then do
      whileBody A.zone body
      A.whileLoop cond body
    else pure ()
  else pure ()

/-- One turn of the loop of `for_t`. -/
def forTurn (f : ForLoop) (i : Nat) (status : Status) : Eval Status := do
  if ← act handleForloop then do
    noteExit
    let els ← mem (listEls f.list)
    if i < els.length then do
      let rev ← rowValue A.toRef (els[i]?).join
      match rev, f.body with
      | none, _ => do
        reportError f.line (text "for: row " ++ decimal i ++ text " is undefined!")
        A.forLoop f (i + 1) status
      | some _, none => A.forLoop f (i + 1) status
      | some x, some z => do
        act (insertTab f.locals f.iter (some x))
        let size ← act (pushLocals f.locals .locals)
        let tmp ← A.zone z
        act (popTo size)
        mem (setRow f.list i x)
        A.forLoop f (i + 1) (if tmp = .ok then status else tmp)
    else pure status
  else pure status

/-- The loop of `print_t`. -/
def printArgs : List Expr → Eval Unit
  | [] => pure ()
  | x :: xs => do
    let t ← pubAsStr H n A x
    outputOr t (pure ())
    printArgs xs

def pubToBindtab : Expr → Eval (Option Nat)
  | .dict l bs => do
    let tab : Tab := bs.map fun b => (b.1, b.2.map .node)
    if ← mem (isStatic n (.node (.dict l bs))) then
      some <$> mem (Mem.alloc (.cowTab (.tab tab) none))
    else do
      let t ← mapTab A.toMval tab
      some <$> mem (Mem.alloc (.dict t none))
  | x => do match ← A.toVal (.node x) with
    | none => pure none
    | some p => do match ← mem (backingOf p) with
      | none => pure none
      | some o => some <$> mem (Mem.alloc (.cowTab o none))

/-- `eval_t::publish` of an included file, in layers and with flags of its own. -/
def publishFile (load : Bool) (fn : Str) (bi : Option Nat) : Eval Status := do
  let old ← act get
  let typ : LayerType :=
    if old.opts.strictIncludeScoping then .localsBarrier else .localsBarrierWeak
  act (modify fun s => { s with
    muzzle := s.muzzle || load
    control := { depth := s.control.depth + 1 } })
  let size ← act (bi.elim stackSize (pushLocals · typ))
  let rs ← H.publish fn
  act do
    popTo size
    modify fun s => { s with muzzle := old.muzzle, control := old.control }
  pure rs

/-- `include_t::v_publish`. -/
def vPublishInclude (line : Nat) (load : Bool) (file : Expr) (dict : Option Expr) :
    Eval Status := do
  let fn ← pubAsStr H n A file
  let bi ← match dict with
    | none => pure none
    | some d => pubToBindtab n A d
  match fn with
  | none | some [] => do
    reportError line (text "include: cannot evaluate filename")
    pure .ok
  | some f =>
    if dict.isSome && bi.isNone then do
      reportError line (text "include: cannot evalute parameters")
      pure .ok
    else publishFile H load (cstr f) bi

/-- `v_publish` of statements. -/
def vPublishStatement : Statement → Eval Status
  | .zone _ none => Prog.stuck
  | .zone _ (some z) => A.zone z
  | .expr _ x => do
    let _ ← A.toRef (.node x)
    pure .ok
  | .while _ cond body => do
    act resetForloop
    A.whileLoop cond body
    pure .ok
  | .for line iter arr body empty => do
    let v ← pubList A arr
    match ← mem (listSize v), empty with
    | none, none => do
      reportError line (text "for: second argument is not an iterable vector")
      pure .ok
    | none, some z | some (_, 0), some z => emptyZone A.zone z
    | some (_, 0), none => pure .ok
    | some (l, _), _ => do
      let locals ← mem (Mem.alloc (.dict [] none))
      act resetForloop
      A.forLoop ⟨line, iter, body, l, locals⟩ 0 .ok
  | .if _ clauses => do
    match ← findClause (pubAsBool A) clauses with
    | none => pure .ok
    | some z => A.zone z
  | .decl _ typ bindings => declBlock A.toMval typ bindings
  | .switch _ key cases => do
    match ← Nonblock.findCase H n E key cases with
    | none => pure .ok
    | some z => A.zone z
  | .include line load file env => vPublishInclude H n A line load file env
  | .print _ args => do
    printArgs H n A args
    pure .ok
  | .return _ val => do
    let x ← returnValue A.toVal val
    act (setRtrn x)
    pure .ok
  | s => Nonblock.publishStatement H n E s

/-- `ast_node_t::publish`. -/
def publishZone (z : Zone) : Eval Status := do
  setLineno (Zone.line z)
  if z.mightBlock then vPublishZone H n E A z else Nonblock.publishZone H n E z

def publishStatement (s : Statement) : Eval Status := do
  setLineno (Statement.line s)
  if s.mightBlock then vPublishStatement H n E A s else Nonblock.publishStatement H n E s

def step : Evals where
  toVal := pubToVal H n E A
  toRef := pubToRef H n E A
  toMval := pubToMval H n E A
  call := pubFn H E A
  zone := publishZone H n E A
  statement := publishStatement H n E A
  whileLoop := whileTurn A
  forLoop := forTurn A

end Block

/-- The functions that may wait, with calls up to the given depth. -/
def block (H : Host) : Nat → Evals
  | 0 => .stuck
  | n + 1 => Block.step H n (nonblock H n) (block H n)

end Okws.Pub3

import Okws.File

namespace Okws.Pub3

open Zbuf Lib

inductive Leave
  | rtrn (x : Ptr)
  | exit

/-- How a statement ends that does not come to its end. -/
inductive Jump
  | brk
  | cont
  | leave (l : Leave)

/-- The functions that call each other, where zones and statements say how they end, a loop never
ends with a jump of its own, and a turn of a loop is told how the turn before ended. -/
structure Flows where
  toVal : Ptr → Eval (Option Ptr)
  toRef : Ptr → Eval (Option Ref)
  toMval : Ptr → Eval (Option Ptr)
  call : Callable → List Ptr → Eval (Option Ptr)
  zone : Zone → Eval (Status × Option Jump)
  statement : Statement → Eval (Status × Option Jump)
  whileLoop : Expr → Option Zone → Option Jump → Eval (Unit × Option Leave)
  forLoop : ForLoop → Nat → Status → Option Jump → Eval (Status × Option Leave)

namespace Flows

def stuck : Flows where
  toVal _ := Prog.stuck
  toRef _ := Prog.stuck
  toMval _ := Prog.stuck
  call _ _ := Prog.stuck
  zone _ := Prog.stuck
  statement _ := Prog.stuck
  whileLoop _ _ _ := Prog.stuck
  forLoop _ _ _ _ := Prog.stuck

end Flows

namespace Flow

/-- An `exit` in the midst of an expression asks for the end of the file, as an error may do. -/
def ask : Option Jump → Act Unit
  | some (.leave .exit) => modify fun s => { s with control := { s.control with exit := true } }
  | _ => pure ()

/-- A zone whose end is the end of all jumps, as in a heredoc or a file. -/
def ended (m : Eval (Status × Option Jump)) : Eval Status := do
  let r ← m
  act (ask r.2)
  pure r.1

end Flow

def Flows.evals (R : Flows) : Evals where
  toVal := R.toVal
  toRef := R.toRef
  toMval := R.toMval
  call := R.call
  zone z := Flow.ended (R.zone z)
  statement _ := Prog.stuck
  whileLoop _ _ := Prog.stuck
  forLoop _ _ _ := Prog.stuck

namespace Flow

def publishAll {α : Type} (f : α → Eval (Status × Option Jump)) :
    List α → Status → Eval (Status × Option Jump)
  | [], ret => pure (ret, none)
  | z :: zs, ret => do
    if ← act handleZone then do
      let r ← f z
      match r.2 with
      | none => publishAll f zs (if r.1 = .ok then ret else r.1)
      | some j => pure (if r.1 = .ok then ret else r.1, some j)
    else pure (ret, none)

def whileBody (f : Zone → Eval (Status × Option Jump)) : Option Zone → Eval (Unit × Option Jump)
  | none => pure ((), none)
  | some z => do
    let size ← act stackSize
    let r ← f z
    act (popTo size)
    pure ((), r.2)

def value : Option Jump → Ptr
  | some (.leave (.rtrn x)) => x
  | _ => .null

def asked : Act Bool := do pure (← get).control.exit

def turn {α : Type} (a : α) (k : Eval (α × Option Leave)) :
    Option Jump → Eval (α × Option Leave)
  | some .brk => pure (a, none)
  | some (.leave l) => pure (a, some l)
  | none | some .cont => do
    if ← act asked then pure (a, none) else k

variable (H : Host) (n : Nat) (R S : Flows)

def whileTurn (cond : Expr) (body : Option Zone) : Option Jump → Eval (Unit × Option Leave) :=
  turn () do
    let go ← Nonblock.evalAsBool R.evals cond
    if go then do
      let r ← whileBody R.zone body
      R.whileLoop cond body r.2
    else pure ((), none)

def forTurn (f : ForLoop) (i : Nat) (status : Status) :
    Option Jump → Eval (Status × Option Leave) :=
  turn status do
    let els ← mem (listEls f.list)
    if i < els.length then do
      let rev ← rowValue R.toRef (els[i]?).join
      match rev, f.body with
      | none, _ => do
        reportError f.line (text "for: row " ++ decimal i ++ text " is undefined!")
        R.forLoop f (i + 1) status none
      | some _, none => R.forLoop f (i + 1) status none
      | some x, some z => do
        act (insertTab f.locals f.iter (some x))
        let size ← act (pushLocals f.locals .locals)
        let r ← R.zone z
        act (popTo size)
        mem (setRow f.list i x)
        R.forLoop f (i + 1) (if r.1 = .ok then status else r.1) r.2
    else pure (status, none)

def callBody (l : Lambda) (closure : Option (Str × List Layer)) (t : Tab) :
    Eval (Option Ptr) := do
  let st ← pushLambdaCall l closure t
  if !st.overflow then
    match l.body with
    | none => Prog.stuck
    | some z => do
      let r ← R.zone z
      act (ask r.2)
      let e ← act asked
      let _ ← popLambdaCall st
      act (ask (if e then some (.leave .exit) else none))
      pure (some (value r.2))
  else do
    let e ← act asked
    let _ ← popLambdaCall st
    act (ask (if e then some (.leave .exit) else none))
    pure (some .null)

/-- A loop, and what its end is to the statements around it. -/
def whileStatement (cond : Expr) (body : Option Zone) : Eval (Status × Option Jump) := do
  let r ← R.whileLoop cond body none
  pure (.ok, r.2.map .leave)

def forStatement (f : ForLoop) : Eval (Status × Option Jump) := do
  let r ← R.forLoop f 0 .ok none
  pure (r.1, r.2.map .leave)

namespace Nonblock

def evalFn : Callable → List Ptr → Eval (Option Ptr)
  | .lambda l closure, args => do
    if ← l.checkArgs H args.length then do
      let t ← bindArgs R.toRef args (l.params ++ l.optParams) []
      callBody R l closure t
    else pure (some .null)
  | .compiled f, args => Pub3.Nonblock.evalFn H R.evals (.compiled f) args

def publishZone : Zone → Eval (Status × Option Jump)
  | .html _ children => publishAll R.zone children .ok
  | .pub _ statements => publishAll R.statement statements .ok
  | z => (·, none) <$> Pub3.Nonblock.publishZone H n R.evals z

def publishStatement : Statement → Eval (Status × Option Jump)
  | .zone _ none => Prog.stuck
  | .zone _ (some z) => R.zone z
  | .while _ cond body => whileStatement R cond body
  | .for line iter arr body empty => do
    let v ← Pub3.Nonblock.evalList R.evals arr
    match ← mem (listSize v), empty with
    | none, none => do
      reportError line (text "for: second argument is not an iterable vector")
      pure (.ok, none)
    | none, some z | some (_, 0), some z => emptyZone R.zone z
    | some (_, 0), none => pure (.ok, none)
    | some (l, _), _ => do
      let locals ← mem (Mem.alloc (.dict [] none))
      forStatement R ⟨line, iter, body, l, locals⟩
  | .if _ clauses => do
    match ← findClause (Pub3.Nonblock.evalAsBool R.evals) clauses with
    | none => pure (.ok, none)
    | some z => R.zone z
  | .switch _ key cases => do
    match ← Pub3.Nonblock.findCase H n R.evals key cases with
    | none => pure (.ok, none)
    | some z => do
      let r ← R.zone z
      pure (.ok, r.2)
  | .break _ => pure (.ok, some .brk)
  | .continue _ => pure (.ok, some .cont)
  | .return _ val => do
    let x ← returnValue R.toVal val
    pure (.ok, some (.leave (.rtrn (x.getD .null))))
  | .exit _ => pure (.ok, some (.leave .exit))
  | s => (·, none) <$> Pub3.Nonblock.publishStatement H n R.evals s

def step : Flows where
  toVal := Pub3.Nonblock.evalToVal H n R.evals
  toRef := Pub3.Nonblock.evalToRef H n R.evals
  toMval := Pub3.Nonblock.evalToMval H n R.evals
  call := evalFn H R
  zone := publishZone H n R
  statement := publishStatement H n R
  whileLoop := whileTurn R
  forLoop := forTurn R

end Nonblock

namespace Block

def pubFn : Callable → List Ptr → Eval (Option Ptr)
  | .lambda l closure, args => Nonblock.evalFn H S (.lambda l closure) args
  | .compiled f, args => Pub3.Block.pubFn H R.evals S.evals (.compiled f) args

def vPublishZone : Zone → Eval (Status × Option Jump)
  | .html _ children => publishAll S.zone children .ok
  | .pub _ statements => publishAll S.statement statements .ok
  | z => (·, none) <$> Pub3.Block.vPublishZone H n R.evals S.evals z

variable (publish : Str → Eval Status)

def vPublishStatement : Statement → Eval (Status × Option Jump)
  | .switch _ key cases => do
    match ← Pub3.Nonblock.findCase H n R.evals key cases with
    | none => pure (.ok, none)
    | some z => S.zone z
  | .include line load file d =>
    (·, none) <$> Pub3.Block.vPublishInclude { H with publish := publish } n S.evals line load file d
  | .print line args =>
    (·, none) <$> Pub3.Block.vPublishStatement H n R.evals S.evals (.print line args)
  | s => Nonblock.publishStatement H n S s

def publishZone (z : Zone) : Eval (Status × Option Jump) := do
  setLineno (Zone.line z)
  if z.mightBlock then vPublishZone H n R S z else Nonblock.publishZone H n R z

def publishStatement (s : Statement) : Eval (Status × Option Jump) := do
  setLineno (Statement.line s)
  if s.mightBlock then vPublishStatement H n R S publish s else Nonblock.publishStatement H n R s

def step : Flows where
  toVal := Pub3.Block.pubToVal H n R.evals S.evals
  toRef := Pub3.Block.pubToRef H n R.evals S.evals
  toMval := Pub3.Block.pubToMval H n R.evals S.evals
  call := pubFn H R S
  zone := publishZone H n R S
  statement := publishStatement H n R S publish
  whileLoop := whileTurn S
  forLoop := forTurn S

end Block

def nonblock (H : Host) : Nat → Flows
  | 0 => .stuck
  | n + 1 => Nonblock.step H n (nonblock H n)

/-- Files that are included are published by `publish`. -/
def block (H : Host) (publish : Str → Eval Status) : Nat → Flows
  | 0 => .stuck
  | n + 1 => Block.step H n (nonblock H n) (block H publish n) publish

/-- Files that are published in this way, one inside the other to the given depth. -/
def files (H : Host) (P : Publisher) : Nat → Str → Eval Status
  | 0, _ => Prog.stuck
  | k + 1, fn => publishPath (block (H.withFiles P k) (files H P k) k).evals P fn

end Flow

end Okws.Pub3

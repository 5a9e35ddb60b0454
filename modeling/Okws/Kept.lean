import Mathlib
import Okws.File

namespace Okws.Pub3

open Zbuf Lib

/-- All but the heap, the layers, the flags and the output. -/
def State.fixed (s : State) : State :=
  { s with heap := [], stack := [], control := { depth := s.control.depth }, out := [] }

/-- `import`, which pushes what it is given. -/
def Compiled.imports (f : Compiled) : Bool := f.name == text "import"

/-- What is published where nothing pops declares nothing, and `import` is not called. -/
def Step.Scoped : Step → Prop
  | .unscoped z => z.declares = false
  | .library f => f.imports = false
  | _ => True

instance : DecidablePred Step.Scoped
  | .unscoped z => inferInstanceAs (Decidable (z.declares = false))
  | .library f => inferInstanceAs (Decidable (f.imports = false))
  | .shown _ _ _ | .inserted _ _ _ | .unlocated | .skippedInclude | .skippedHeredoc
  | .skippedBlocking | .strayed | .jumped => .isTrue trivial

def Step.Stays : Step → Prop
  | .jumped => False
  | _ => True

instance : DecidablePred Step.Stays
  | .jumped => .isFalse id
  | .shown _ _ _ | .inserted _ _ _ | .unlocated | .skippedInclude | .skippedHeredoc
  | .skippedBlocking | .strayed | .unscoped _ | .library _ => .isTrue trivial

def Control.jumps (c : Control) : Bool := c.brk || c.rtrn.isSome || c.cont || c.exit

/-- The layers that there were are still there, and what is written stays; if `p` there are no
other layers, and if `q` the flags are the same, except that an error may ask for the end of the
file. -/
structure Kept (p q : Prop) (s t : State) : Prop where
  fixed : t.fixed = s.fixed
  layers : s.stack <+: t.stack
  out : s.out <+: t.out
  same : p → t.stack = s.stack
  control : q → t.control = s.control ∨
    s.opts.exitOnError = true ∧ t.control = { s.control with exit := true }

namespace Kept

variable {p q p' q' : Prop} {s t u : State}

theorem refl (s : State) : Kept p q s s where
  fixed := rfl
  layers := List.prefix_rfl
  out := List.prefix_rfl
  same _ := rfl
  control _ := .inl rfl

theorem trans (h : Kept p q s t) (h' : Kept p q t u) : Kept p q s u where
  fixed := h'.fixed.trans h.fixed
  layers := h.layers.trans h'.layers
  out := h.out.trans h'.out
  same hp := (h'.same hp).trans (h.same hp)
  control hq := by
    have hopts : t.fixed.opts = s.fixed.opts := congrArg State.opts h.fixed
    change t.opts = s.opts at hopts
    obtain hc | ⟨ho, hc⟩ := h'.control hq
    · rw [hc]
      exact h.control hq
    · rw [hopts] at ho
      refine .inr ⟨ho, hc.trans ?_⟩
      obtain hc | ⟨_, hc⟩ := h.control hq <;> rw [hc]

instance : Std.Refl (Kept p q) := ⟨refl⟩

instance : IsTrans State (Kept p q) := ⟨fun _ _ _ => trans⟩

theorem weaken (h : Kept p q s t) (hp : p' → p) (hq : q' → q) : Kept p' q' s t where
  fixed := h.fixed
  layers := h.layers
  out := h.out
  same := fun hp' => h.same (hp hp')
  control := fun hq' => h.control (hq hq')

theorem ofHeap (h : Heap) : Kept p q s { s with heap := h } where
  fixed := rfl
  layers := List.prefix_rfl
  out := List.prefix_rfl
  same _ := rfl
  control _ := .inl rfl

theorem ofControl {c : Control} (hc : c.depth = s.control.depth) :
    Kept p False s { s with control := c } where
  fixed := by simp only [State.fixed, hc]
  layers := List.prefix_rfl
  out := List.prefix_rfl
  same _ := rfl
  control := False.elim

theorem afterControl {c : Control} (h : Kept p False { s with control := c } t)
    (hc : c.depth = s.control.depth) : Kept p False s t := (ofControl hc).trans h

theorem grow (ls : List Layer) : Kept False q s { s with stack := s.stack ++ ls } where
  fixed := rfl
  layers := List.prefix_append ..
  out := List.prefix_rfl
  same := False.elim
  control _ := .inl rfl

theorem unsilent (h : Kept p q { s with silent := true } t) :
    Kept p q s { t with silent := s.silent } where
  fixed := congrArg (fun u : State => { u with silent := s.silent }) h.fixed
  layers := h.layers
  out := h.out
  same := h.same
  control := h.control

theorem unloud (h : Kept p q { s with loud := true } t) : Kept p q s { t with loud := s.loud } where
  fixed := congrArg (fun u : State => { u with loud := s.loud }) h.fixed
  layers := h.layers
  out := h.out
  same := h.same
  control := h.control

theorem take_stack (h : Kept p q s t) : t.stack.take s.stack.length = s.stack :=
  (List.prefix_iff_eq_take.mp h.layers).symm

end Kept

section Basic

variable {G : Step → Prop} {p q : Prop} {α : Type}

theorem onHeap_steps (m : Mem α) : Steps (Kept p q) (onHeap m) := by
  intro s a t h
  obtain ⟨r, _, hr⟩ := Option.map_eq_some_iff.mp h
  cases hr
  exact .ofHeap _

theorem mem_keeps (m : Mem α) : Keeps G (Kept p q) (mem m) := .lift (onHeap_steps m)

theorem look_keeps {f : State → Option α} :
    Keeps G (Kept p q) (act fun s => (f s).map (·, s)) := by
  refine .lift fun s a t h => ?_
  obtain ⟨r, _, hr⟩ := Option.map_eq_some_iff.mp h
  cases hr
  exact .refl s

theorem get_keeps : Keeps G (Kept p q) (act get) := .lift .get

theorem output_frame (o : Out) (s : State) : ∃ os, output o s = some ((), { s with out := os }) ∧
    s.out <+: os := by
  cases o <;> simp only [output, modify, modifyGet, MonadStateOf.modifyGet, StateT.modifyGet,
    Pure.pure] <;> (try split) <;> exact ⟨_, rfl, by simp⟩

theorem output_keeps (o : Out) : Keeps G (Kept p q) (act (output o)) := by
  refine .lift fun s a t h => ?_
  obtain ⟨os, ho, hos⟩ := output_frame o s
  rw [ho] at h
  cases h
  exact ⟨rfl, List.prefix_rfl, hos, fun _ => rfl, fun _ => .inl rfl⟩

theorem outputErrAt_kept {stack : List Frame} {msg : Str} {typ : ErrType} {s t : State}
    (h : outputErrAt stack msg typ s = some ((), t)) : Kept p q s t := by
  obtain ⟨os, ho, hos⟩ := output_frame (.err stack msg typ s.muzzle) s
  have hout : Kept p q s { s with out := os } :=
    ⟨rfl, List.prefix_rfl, hos, fun _ => rfl, fun _ => .inl rfl⟩
  refine hout.trans ?_
  simp only [outputErrAt, get, getThe, MonadStateOf.get, StateT.get, Bind.bind, StateT.bind,
    Pure.pure, Option.bind_some, ho] at h
  split at h
  · next he =>
    cases h
    exact ⟨rfl, List.prefix_rfl, List.prefix_rfl, fun _ => rfl, fun _ => .inr ⟨he, rfl⟩⟩
  · cases h
    exact .refl _

theorem outputErr_keeps (msg : Str) (typ : ErrType) :
    Keeps G (Kept p q) (outputErr msg typ) :=
  .bind .getReg fun _ => .lift fun _ _ _ h => outputErrAt_kept h

theorem reportError_keeps (line : Nat) (msg : Str) :
    Keeps G (Kept p q) (reportError line msg) :=
  .ite (fun _ => .bind (.note _) fun _ => outputErr_keeps _ _)
    fun _ => .bind (.setReg _) fun _ => outputErr_keeps _ _

theorem final_keeps (line : Nat) (m : Mem (Except Str (Option α))) :
    Keeps G (Kept p q) (final line m) := by
  refine .bind (mem_keeps _) fun r => ?_
  cases r with
  | ok x => exact .pure x
  | error msg => exact .bind (reportError_keeps line msg) fun _ => .pure none

theorem silent_keeps {β : Type} {m : Eval α} {k : α → Eval β} (hm : Keeps G (Kept p q) m)
    (hk : ∀ a, Keeps G (Kept p q) (k a)) :
    Keeps G (Kept p q) (do
      let l ← act (setSilent true)
      let v ← m
      let _ ← act (setSilent l)
      k v) := by
  intro s
  refine .bind (.lift fun l s₁ h => ?_)
  cases h
  refine .bind ((hm _).imp fun v t ht => .bind (.lift fun _ t' h => ?_))
  cases h
  exact ((hk v) _).imp fun _ u hu => ht.unsilent.trans hu

theorem relationReport_keeps (H : Host) (n line : Nat) (op : RelOp) (x y : Option Ptr) :
    Keeps G (Kept p q) (relationReport H n line op x y) := by
  refine .bind (.lift fun s a t h => ?_) fun b => .bind (.when _ (reportError_keeps _ _))
    fun _ => .pure _
  obtain ⟨r, _, hr⟩ := Option.map_eq_some_iff.mp h
  cases hr
  exact .refl s

theorem varrefToVal_keeps (line : Nat) (nm : Str) : Keeps G (Kept p q) (varrefToVal line nm) :=
  .bind look_keeps fun x => .bind get_keeps fun _ => .bind (.when _ (reportError_keeps _ _))
    fun _ => .pure x

theorem scopedToVal_keeps (sc : VarScope) (nm : Str) :
    Keeps G (Kept p q) (scopedToVal sc nm) := by
  refine .lift fun s a t h => ?_
  obtain ⟨r, _, hr⟩ := Option.map_eq_some_iff.mp h
  cases hr
  exact .refl s

theorem scopedToRef_keeps (sc : VarScope) (nm : Str) :
    Keeps G (Kept p q) (scopedToRef sc nm) := by
  unfold scopedToRef
  refine .lift fun s a t h => ?_
  cases h
  exact .refl s

theorem lookupRef_steps (nm : Str) : Steps (Kept p q) (lookupRef nm) := by
  refine .bind .get fun s => ?_
  split
  · exact fun _ _ _ h => nomatch h
  · exact .pure _
  · split
    · exact .pure _
    · split
      · exact fun _ _ _ h => nomatch h
      · exact .bind (onHeap_steps _) fun _ => .pure _

theorem close_keeps (l : Lambda) : Keeps G (Kept p q) (act (close l)) :=
  .lift (.bind .get fun _ => .map (onHeap_steps _))

theorem callee_keeps (line : Nat) (fn : Expr) (f : Option Ptr) :
    Keeps G (Kept p q) (callee line fn f) := by
  cases f with
  | none => exact .bind (reportError_keeps line _) fun _ => .pure none
  | some f =>
    refine .bind (mem_keeps _) fun v => ?_
    cases v.toCallable with
    | none => exact .bind (reportError_keeps line _) fun _ => .pure none
    | some c => exact .pure (some c)

theorem insertTab_steps (b : Nat) (nm : Str) (x : Option Ptr) :
    Steps (Kept p q) (insertTab b nm x) := onHeap_steps _

theorem writtenStr_keeps (H : Host) (n : Nat) (quoted : Bool) (x : Ptr) :
    Keeps G (Kept p q) (act (writtenStr H n quoted x)) := look_keeps

theorem insertOpt_keeps (H : Host) (n : Nat) (utf8 : Bool) (x : Option Ptr) :
    Keeps G (Kept p q) (insertOpt H n utf8 x) := by
  cases x with
  | none => exact .pure none
  | some x => exact .bind (.note _) fun _ => look_keeps

theorem outputOr_keeps (t : Option Str) {m : Eval Unit} (hm : Keeps G (Kept p q) m) :
    Keeps G (Kept p q) (outputOr t m) := by
  cases t with
  | none => exact hm
  | some t => exact output_keeps _

end Basic

section Lists

variable {G : Step → Prop} {p q : Prop} {f : Ptr → Eval (Option Ptr)}

theorem mapEls_keeps (h : ∀ x, Keeps G (Kept p q) (f x)) (els : List (Option Ptr)) :
    Keeps G (Kept p q) (mapEls f els) := by
  induction els with
  | nil => exact .pure []
  | cons x xs ih =>
    cases x with
    | none => exact .bind ih fun ys => .pure _
    | some x => exact .bind (h x) fun y => .bind ih fun ys => .pure _

theorem mapTab_keeps (h : ∀ x, Keeps G (Kept p q) (f x)) (tab : Tab) :
    Keeps G (Kept p q) (mapTab f tab) := by
  induction tab with
  | nil => exact .pure []
  | cons b bs ih =>
    obtain ⟨k, x⟩ := b
    cases x with
    | none => exact ih
    | some x => exact .bind (h x) fun y => .bind ih fun cs => .pure _

theorem listToMval_keeps (h : ∀ x, Keeps G (Kept p q) (f x)) (n : Nat) (x : Ptr)
    (els : List (Option Ptr)) : Keeps G (Kept p q) (listToMval n f x els) :=
  .bind (mem_keeps _) fun _ => .ite (fun _ => mem_keeps _) fun _ =>
    .bind (mapEls_keeps h els) fun _ => mem_keeps _

theorem dictToMval_keeps (h : ∀ x, Keeps G (Kept p q) (f x)) (n : Nat) (x : Ptr) (tab : Tab) :
    Keeps G (Kept p q) (dictToMval n f x tab) :=
  .bind (mem_keeps _) fun _ => .ite (fun _ => mem_keeps _) fun _ =>
    .bind (mapTab_keeps h tab) fun _ => mem_keeps _

theorem evalArgs_keeps (h : ∀ x, Keeps G (Kept p q) (f x)) (safeArgs : Bool) (as : List Ptr) :
    Keeps G (Kept p q) (evalArgs safeArgs f as) := by
  induction as with
  | nil => exact .pure []
  | cons a as ih => exact .bind (h a) fun x => .bind ih fun xs => .pure _

theorem bindArgs_keeps {f : Ptr → Eval (Option Ref)} (h : ∀ x, Keeps G (Kept p q) (f x))
    (as : List Ptr) (nms : List Str) (t : Tab) : Keeps G (Kept p q) (bindArgs f as nms t) := by
  induction as generalizing nms t with
  | nil => exact .pure t
  | cons a as ih =>
    cases nms with
    | nil => exact .pure t
    | cons nm nms => exact .bind (h a) fun r => .bind (mem_keeps _) fun x => ih nms _

theorem declare_keeps (h : ∀ x, Keeps G (Kept p q) (f x)) (frame : Nat) (locals : Bool)
    (bs : List (Str × Option Expr)) : Keeps G (Kept p q) (declare f frame locals bs) := by
  induction bs with
  | nil => exact .pure ()
  | cons b bs ih =>
    obtain ⟨nm, x⟩ := b
    cases x with
    | none => exact .bind (.when locals (.lift (insertTab_steps _ _ _))) fun _ => ih
    | some x => exact .bind (h _) fun y => .bind (.lift (insertTab_steps _ _ _)) fun _ => ih

theorem pushLayer_steps (l : Layer) : Steps (Kept False q) (pushLayer l) := .modify fun _ => .grow _

theorem pushLocals_steps (b : Nat) (typ : LayerType) : Steps (Kept False q) (pushLocals b typ) :=
  .bind .get fun _ => .bind (pushLayer_steps _) fun _ => .pure _

theorem pushBindings_steps (typ : DeclType) : Steps (Kept False q) (pushBindings typ) := by
  refine .bind .get fun s => ?_
  cases typ with
  | universals | globals => exact .pure _
  | locals => exact .bind (onHeap_steps _) fun _ => .bind (pushLayer_steps _) fun _ => .pure _

theorem pushReferences_steps (bs : List (Str × Option Expr)) (typ : DeclType) :
    Steps (Kept False q) (pushReferences bs typ) := by
  unfold pushReferences
  split
  · exact .bind (onHeap_steps _) fun _ => pushLayer_steps _
  · exact .pure ()

theorem declBlock_globals (h : ∀ x, Keeps G (Kept p q) (f x)) (bs : List (Str × Option Expr)) :
    Keeps G (Kept p q) (declBlock f .globals bs) := by
  refine .ite (fun hl => absurd (Bool.and_eq_true_iff.mp hl).2 (by decide)) fun _ => ?_
  exact .bind (.lift (.bind .get fun _ => .pure _)) fun frame =>
    .bind (declare_keeps h frame _ bs) fun _ => .bind (.lift (.pure _)) fun _ => .pure _

theorem declBlock_keeps (h : ∀ x, Keeps G (Kept False q) (f x)) (typ : DeclType)
    (bs : List (Str × Option Expr)) : Keeps G (Kept False q) (declBlock f typ bs) :=
  .ite
    (fun _ => .bind (.lift (.bind (onHeap_steps _) fun _ => pushLayer_steps _)) fun _ => .pure _)
    fun _ => .bind (.lift (pushBindings_steps typ)) fun frame =>
      .bind (declare_keeps h frame _ bs) fun _ =>
        .bind (.lift (pushReferences_steps bs typ)) fun _ => .pure _

theorem findClause_keeps {f : Expr → Eval Bool} (h : ∀ x, Keeps G (Kept p q) (f x))
    (cs : List (Option Expr × Option Zone)) : Keeps G (Kept p q) (findClause f cs) := by
  induction cs with
  | nil => exact .pure none
  | cons c cs ih =>
    obtain ⟨x, z⟩ := c
    cases x with
    | none => exact .pure z
    | some x => exact .bind (h x) fun b => .ite (fun _ => .pure z) fun _ => ih

theorem findClause_declares {f : Expr → Eval Bool} (cs : List (Option Expr × Option Zone)) :
    (findClause f cs).Returns fun z => clausesDeclare cs = false → zoneDeclares z = false := by
  induction cs with
  | nil => exact .pure fun _ => rfl
  | cons c cs ih =>
    obtain ⟨x, z⟩ := c
    have hhead : clausesDeclare ((x, z) :: cs) = false → zoneDeclares z = false :=
      fun h => (Bool.or_eq_false_iff.mp h).1
    cases x with
    | none => exact .pure hhead
    | some x =>
      exact .last fun _ => .ite (.pure hhead)
        (ih.imp fun _ h hcs => h (Bool.or_eq_false_iff.mp hcs).2)

theorem lastCase_declares (c : Option Constant → Bool) {cs : List (Option Constant × Option Zone)}
    (h : casesDeclare cs = false) : zoneDeclares (lastCase c cs).join = false := by
  unfold lastCase
  cases hf : cs.findRev? fun b => c b.1 with
  | none => rfl
  | some b =>
    rw [List.findRev?_eq_find?_reverse] at hf
    exact declares_of_cases h (List.mem_reverse.mp (List.mem_of_find?_eq_some hf))

theorem lookupCase_declares (H : Host) {cs : List (Option Constant × Option Zone)}
    (h : casesDeclare cs = false) (k : Option Str) : zoneDeclares (lookupCase H cs k) = false := by
  have horElse (o o' : Option Zone) (ho : zoneDeclares o = false) (ho' : zoneDeclares o' = false) :
      zoneDeclares (o.orElse fun _ => o') = false := by
    cases o with
    | none => exact ho'
    | some z => exact ho
  refine horElse _ _ ?_ (lastCase_declares _ h)
  cases k with
  | none => exact lastCase_declares _ h
  | some k => exact lastCase_declares _ h

theorem rowValue_keeps {f : Ptr → Eval (Option Ref)} (h : ∀ x, Keeps G (Kept p q) (f x))
    (x : Option Ptr) : Keeps G (Kept p q) (rowValue f x) := by
  cases x with
  | none => exact .pure none
  | some x => exact .bind (h x) fun _ => mem_keeps _

theorem returnValue_keeps (h : ∀ x, Keeps G (Kept p q) (f x)) (x : Option Expr) :
    Keeps G (Kept p q) (returnValue f x) := by
  cases x with
  | none => exact .pure none
  | some x => exact h _

end Lists

/-- `t` is a state in a call that was made in `s`. -/
structure Inside (s t : State) : Prop where
  callers : ∃ line, t.callers = ⟨s.md, s.func, line⟩ :: s.callers
  fixed : ({ t with callers := s.callers, md := s.md, func := s.func, control := s.control } :
    State).fixed = s.fixed
  layers : s.stack <+: t.stack
  out : s.out <+: t.out

theorem Inside.kept {s t u : State} (h : Inside s t) (h' : Kept False False t u) : Inside s u where
  callers := by
    have hc : u.fixed.callers = t.fixed.callers := congrArg State.callers h'.fixed
    change u.callers = t.callers at hc
    rw [hc]
    exact h.callers
  fixed := .trans (congrArg (fun v : State => { v with
    callers := s.callers, md := s.md, func := s.func, control := { depth := s.control.depth } })
      h'.fixed) h.fixed
  layers := h.layers.trans h'.layers
  out := h.out.trans h'.out

section Calls

variable {G : Step → Prop} {p q : Prop}

theorem pushLambda_grows (b : Nat) (closure : Option (List Layer)) (s : State) :
    ∃ ls, pushLambda b closure s = some (s.stack.length, { s with stack := s.stack ++ ls }) := by
  cases closure with
  | none => exact ⟨_, rfl⟩
  | some c =>
    refine ⟨(if c.head?.any isBarrier then c else ⟨none, .localsBarrier⟩ :: c) ++
      [⟨b, .locals⟩], ?_⟩
    rw [← List.append_assoc]
    rfl

theorem pushLambdaCall_inside (l : Lambda) (closure : Option (Str × List Layer)) (tab : Tab)
    (s : State) : Ensures G (pushLambdaCall l closure tab) s fun st t =>
      Inside s t ∧ st.bindingStackSize = s.stack.length ∧ st.oldControl = s.control := by
  refine .bind (.getReg fun line => .bind (.lift fun st t h => .bind (.setReg 0 (.pure ?_))))
  obtain ⟨ls, hls⟩ := pushLambda_grows s.heap.length (closure.map (·.2))
    { s with
      heap := s.heap ++ [.dict tab none]
      callers := ⟨s.md, s.func, line⟩ :: s.callers
      md := closure.elim (text "<top-level>") (·.1)
      func := some l.name }
  let s' : State := { s with
    heap := s.heap ++ [.dict tab none]
    stack := s.stack ++ ls
    callers := ⟨s.md, s.func, line⟩ :: s.callers
    md := closure.elim (text "<top-level>") (·.1)
    func := some l.name
    control := { depth := s.control.depth + 1 } }
  have hs' : Inside s s' := ⟨⟨line, rfl⟩, rfl, List.prefix_append .., List.prefix_rfl⟩
  simp only [get, getThe, MonadStateOf.get, StateT.get, set, StateT.set, onHeap, Mem.alloc,
    Bind.bind, StateT.bind, Pure.pure, Option.bind_some, Option.map_some, hls, setControl,
    modify, modifyGet, MonadStateOf.modifyGet, StateT.modifyGet] at h
  split at h
  · obtain ⟨⟨_, u⟩, hu, h⟩ := Option.bind_eq_some_iff.mp h
    cases h
    exact ⟨hs'.kept (outputErrAt_kept hu), rfl, rfl⟩
  · cases h
    exact ⟨hs', rfl, rfl⟩

theorem popLambdaCall_kept {s u : State} (h : Inside s u) {st : LambdaState}
    (hsize : st.bindingStackSize = s.stack.length) (hctl : st.oldControl = s.control) :
    Ensures G (popLambdaCall st) u fun _ t => Kept p q s t := by
  refine .bind (.noteIf fun _ => .bind (.lift fun r t ht => .bind (.setReg _ (.pure ?_))))
  obtain ⟨line, hc⟩ := h.callers
  simp only [get, getThe, MonadStateOf.get, StateT.get, set, StateT.set, Bind.bind, StateT.bind,
    Pure.pure, Option.bind_some, hc, popTo, modify, modifyGet, MonadStateOf.modifyGet,
    StateT.modifyGet, hsize, hctl] at ht
  cases ht
  have htake : u.stack.take s.stack.length = s.stack := (List.prefix_iff_eq_take.mp h.layers).symm
  have hlayers : s.stack <+: u.stack.take s.stack.length := ⟨[], by rw [List.append_nil, htake]⟩
  exact ⟨h.fixed, hlayers, h.out, fun _ => htake, fun _ => .inl rfl⟩

theorem callBody_keeps {f : Zone → Eval Status} (hf : ∀ z, Keeps G (Kept False False) (f z))
    (l : Lambda) (closure : Option (Str × List Layer)) (tab : Tab) :
    Keeps G (Kept p q) (do
      let st ← pushLambdaCall l closure tab
      if !st.overflow then
        match l.body with
        | none => Prog.stuck
        | some z => do
          let _ ← f z
          let r ← popLambdaCall st
          pure (some (r.getD .null))
      else do
        let r ← popLambdaCall st
        pure (some (r.getD .null))) := by
  intro s
  refine .bind ((pushLambdaCall_inside l closure tab s).imp fun st t ⟨hin, hsize, hctl⟩ => ?_)
  refine .ite (fun _ => ?_) fun _ => ?_
  · cases l.body with
    | none => exact .stuck
    | some z =>
      refine .bind ((hf z t).imp fun _ u hu => ?_)
      exact .bind ((popLambdaCall_kept (hin.kept hu) hsize hctl).imp fun _ _ h => .pure h)
  · exact .bind ((popLambdaCall_kept hin hsize hctl).imp fun _ _ h => .pure h)

theorem callLib_keeps {f : Compiled} (hG : p → G (.library f) → f.imports = false)
    {m : Eval (Option Ptr)} (hm : Keeps G (Kept (p ∧ f.imports = false) q) m) :
    Keeps G (Kept p q) (callLib f m) := fun s =>
  .bind (.note fun hf => (hm s).imp fun _ _ hk => hk.weaken (fun hp => ⟨hp, hG hp hf⟩) id)

end Calls

end Okws.Pub3

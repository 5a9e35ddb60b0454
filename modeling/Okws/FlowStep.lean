import Okws.FlowSim

namespace Okws.Pub3

open Zbuf Lib

variable {H : Host} {n : Nat} {E A : Evals} {R S : Flows}

section Calls

theorem pushLambdaCall_flags (G : Step → Prop) (l : Lambda) (closure : Option (Str × List Layer))
    (tab : Tab) (s : State) : Ensures G (pushLambdaCall l closure tab) s fun _ t => Settled t := by
  refine .bind (.getReg fun line => .bind (.lift fun st t h => .bind (.setReg 0 (.pure ?_))))
  obtain ⟨ls, hls⟩ := pushLambda_grows s.heap.length (closure.map (·.2))
    { s with
      heap := s.heap ++ [.dict tab none]
      callers := ⟨s.md, s.func, line⟩ :: s.callers
      md := closure.elim (text "<top-level>") (·.1)
      func := some l.name }
  simp only [get, getThe, MonadStateOf.get, StateT.get, set, StateT.set, onHeap, Mem.alloc,
    Bind.bind, StateT.bind, Pure.pure, Option.bind_some, Option.map_some, hls, setControl,
    modify, modifyGet, MonadStateOf.modifyGet, StateT.modifyGet] at h
  split at h
  · obtain ⟨⟨_, u⟩, hu, h⟩ := Option.bind_eq_some_iff.mp h
    cases h
    exact Settled.kept ⟨rfl, rfl, rfl⟩ (outputErrAt_kept (p := True) hu)
  · cases h
    exact ⟨rfl, rfl, rfl⟩

theorem popLambdaCall_jump {t : State} (ht : Settled t) (st : LambdaState) (j : Option Jump)
    (x : Nat)
    (hl : ∀ e ∈ ((popLambdaCall st >>= fun r => (pure (some (r.getD .null)) : Eval (Option Ptr)))
      x (t.jump j)).log, e.Straight) :
    (do
      act (Flow.ask j)
      let e ← act Flow.asked
      let _ ← popLambdaCall st
      act (Flow.ask (if e then some (.leave .exit) else none))
      pure (some (Flow.value j)) : Eval (Option Ptr)) x t =
    (popLambdaCall st >>= fun r => pure (some (r.getD .null))) x (t.jump j) := by
  obtain ⟨_, _, _, _, _, _, _, callers, ⟨_, _, exit, _⟩, _, _, _, _, _, _⟩ := t
  obtain ⟨hb, hc, hr⟩ := ht
  cases hb
  cases hc
  cases hr
  cases exit with
  | true =>
    refine absurd (hl .strayed ?_) Step.strayed_crooked
    cases callers <;> obtain _ | _ | _ | (y | _) := j <;> exact List.mem_cons_self
  | false =>
    obtain _ | _ | _ | (y | _) := j
    case some.leave.exit =>
      refine absurd (hl .strayed ?_) Step.strayed_crooked
      cases callers <;> exact List.mem_cons_self
    all_goals cases callers <;> rfl

theorem zone_call (h : Sim E R) (z : Zone) {s : State} (hs : Settled s) (st : LambdaState)
    (x : Nat)
    (hl : ∀ e ∈ ((do
      let _ ← E.zone z
      let r ← popLambdaCall st
      pure (some (r.getD .null)) : Eval (Option Ptr)) x s).log, e.Straight) :
    (do
      let r ← R.zone z
      act (Flow.ask r.2)
      let e ← act Flow.asked
      let _ ← popLambdaCall st
      act (Flow.ask (if e then some (.leave .exit) else none))
      pure (some (Flow.value r.2)) : Eval (Option Ptr)) x s =
    (do
      let _ ← E.zone z
      let r ← popLambdaCall st
      pure (some (r.getD .null))) x s := by
  have hz : (∀ e ∈ (E.zone z x s).log, e.Straight) → Carry id s (E.zone z x s) (R.zone z x s) :=
    h.zone z x s trivial
  generalize hr : E.zone z x s = r at hz
  generalize hr' : R.zone z x s = r' at hz
  obtain ⟨_ | ⟨a, y, t⟩, l⟩ := r
  · rw [Prog.bind_none _ hr] at hl ⊢
    cases hz hl
    rw [Prog.bind_none _ hr']
  · rw [Prog.bind_some _ hr] at hl ⊢
    have hz := hz fun e he => hl e (List.mem_append_left _ he)
    generalize hq : (⟨some (a, y, t), l⟩ : Run Nat State Step Status) = q at hz
    cases hz with
    | none => cases hq
    | some b y t' l hset =>
      cases hq
      rw [Prog.bind_some _ hr', popLambdaCall_jump (hset hs) st b.2 y fun e he =>
        hl e (List.mem_append_right _ he)]
      rfl

theorem callBody_settles (h : Sim E R) (l : Lambda) (closure : Option (Str × List Layer))
    (tab : Tab) :
    Settles (do
      let st ← pushLambdaCall l closure tab
      if !st.overflow then
        match l.body with
        | none => Prog.stuck
        | some z => do
          let _ ← E.zone z
          let r ← popLambdaCall st
          pure (some (r.getD .null))
      else do
        let r ← popLambdaCall st
        pure (some (r.getD .null))) (Flow.callBody R l closure tab) := by
  refine ⟨?_, callBody_keeps h.calm.anyZone l closure tab⟩
  intro x y s hxy hl
  cases hxy trivial
  have hflags := pushLambdaCall_flags (fun _ => True) l closure tab s x
  rw [Flow.callBody] at *
  generalize hr : pushLambdaCall l closure tab x s = r at hflags
  obtain ⟨_ | ⟨st, y, t⟩, log⟩ := r
  · rw [Prog.bind_none _ hr, Prog.bind_none _ hr]
    exact .none log
  · have ht : Settled t := hflags _ rfl fun _ _ => trivial
    rw [Prog.bind_some _ hr] at hl
    rw [Prog.bind_some _ hr, Prog.bind_some _ hr]
    have hl := fun e he => hl e (List.mem_append_right _ he)
    refine .of_eq ?_ log
    cases ho : st.overflow with
    | true =>
      rw [ho] at hl
      exact popLambdaCall_jump ht st none y hl
    | false =>
      rw [ho] at hl
      cases hb : l.body with
      | none => rfl
      | some z =>
        rw [hb] at hl
        exact zone_call h z ht st y hl

/-- The functions of the libraries know of the evaluator what they call, and nothing else. -/
structure Host.Uniform (H : Host) : Prop where
  vEval1 : ∀ (G : Step → Prop) f call call' xs,
    (∀ g as, Agrees G True True (call g as) (call' g as)) →
    Agrees G True True (H.vEval1 f call xs) (H.vEval1 f call' xs)

theorem callLib_agrees {G : Step → Prop} {f : Compiled} {m m' : Eval (Option Ptr)}
    (h : Agrees G True True m m') : Agrees G True True (callLib f m) (callLib f m') :=
  .bind (.note _) fun _ => h

theorem evalFn_agrees (hH : H.Uniform) (h : Sim E R) (f : Callable) (args : List Ptr) :
    Agrees Step.Straight True True (Nonblock.evalFn H E f args)
      (Flow.Nonblock.evalFn H R f args) := by
  cases f with
  | lambda l closure =>
    exact .bind (.refl _) fun _ => .ite
      (fun _ => .bind (bindArgs_agrees h.near.toRef _ _ _) fun t =>
        (callBody_settles h l closure t).agrees)
      fun _ => .pure _
  | compiled f =>
    dsimp only [Nonblock.evalFn, Flow.Nonblock.evalFn]
    cases f.kind with
    | plain safeArgs =>
      exact .bind (evalArgs_agrees h.near.toMval safeArgs args) fun xs =>
        callLib_agrees (hH.vEval1 _ f _ _ xs h.near.call)
    | blocking =>
      exact .bind (.note _) fun _ => .bind (evalArgs_agrees h.near.toMval true args) fun _ => .pure _
    | isnull =>
      match args with
      | [a] => exact .bind (Nonblock.evalAsNull_agrees h.near a) fun _ => .pure _
      | [] | _ :: _ :: _ => exact .refl _
    | default =>
      match args with
      | [a] =>
        exact .bind (Nonblock.evalAsNull_agrees h.near a) fun _ => .ite (fun _ => .pure _) fun _ =>
          h.near.toVal a
      | [a, b] =>
        exact .bind (Nonblock.evalAsNull_agrees h.near a) fun _ => .bind (h.near.toVal b) fun d =>
          .ite (fun _ => .pure d) fun _ => h.near.toVal a
      | [] | _ :: _ :: _ :: _ => exact .refl _

end Calls

theorem Sim.eval (hT : H.Tidy) (hU : H.Uniform) (h : Sim E R) :
    Sim (Nonblock.step H n E) (Flow.Nonblock.step H n R) where
  near := {
    located := .inl trivial
    toVal := Nonblock.evalToVal_agrees h.near
    toRef := Nonblock.evalToRef_agrees h.near
    toMval := Nonblock.evalToMval_agrees h.near
    toVal_call := Nonblock.evalToVal_agrees h.near
    call := evalFn_agrees hU h }
  calm := h.calm.eval hT (Step.clean H)
  zone := Flow.Nonblock.publishZone_carries h
  still z _ hs := Flow.Nonblock.publishZone_still R z hs
  statement := Flow.Nonblock.publishStatement_carries h
  whileLoop := whileTurn_carries h
  forLoop := forTurn_carries h

end Okws.Pub3

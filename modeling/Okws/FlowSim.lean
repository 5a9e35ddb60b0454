import Okws.FlowCarry

namespace Okws.Pub3

open Zbuf Lib

/-- The functions with flags carry on those without. -/
structure Sim (E : Evals) (R : Flows) : Prop where
  near : Near Step.Straight True E R.evals
  calm : Calm Step.Straight False True E
  zone : ∀ z, Carries (fun _ => True) none id (E.zone z) (R.zone z)
  still : ∀ z s, s.control.jumps = true →
    Ensures (fun _ => True) (R.zone z) s fun r _ => r.2 = none
  statement : ∀ s, Carries Settled none id (E.statement s) (R.statement s)
  whileLoop : ∀ c b j, Carries Settled j leaves (E.whileLoop c b) (R.whileLoop c b j)
  forLoop : ∀ f i st j, Carries Settled j leaves (E.forLoop f i st) (R.forLoop f i st j)

section Loops

variable {E : Evals} {R : Flows}

theorem publishAll_jumped {α : Type} (f : α → Eval Status) (zs : List α) (ret : Status)
    (j : Jump) {x : Nat} {s : State} :
    publishAll f zs ret x (s.jump (some j)) = ⟨some (ret, x, s.jump (some j)), []⟩ := by
  cases zs with
  | nil => rfl
  | cons z zs =>
    have hz : (act handleZone : Eval Bool) x (s.jump (some j)) =
        ⟨some (false, x, s.jump (some j)), []⟩ := by
      show Prog.lift handleZone x (s.jump (some j)) = _
      rw [Prog.lift, handleZone_jumps (jump_jumps s j)]
    rw [publishAll, Prog.bind_some _ hz]
    rfl

theorem publishAll_carries {α : Type} {f : α → Eval Status}
    {g : α → Eval (Status × Option Jump)} (h : ∀ x, Carries Settled none id (f x) (g x))
    (zs : List α) (ret : Status) :
    Carries (fun _ => True) none id (publishAll f zs ret) (Flow.publishAll g zs ret) := by
  induction zs generalizing ret with
  | nil => exact .pure rfl
  | cons z zs ih =>
    intro x s _ hl
    change ∀ e ∈ (publishAll f (z :: zs) ret x s).log, e.Straight at hl
    change Carry id s (publishAll f (z :: zs) ret x s) (Flow.publishAll g (z :: zs) ret x s)
    rw [publishAll, Flow.publishAll] at *
    cases hj : s.control.jumps with
    | true =>
      have hz : (act handleZone : Eval Bool) x s = ⟨some (false, x, s), []⟩ := by
        show Prog.lift handleZone x s = _
        rw [Prog.lift, handleZone_jumps hj]
      rw [Prog.bind_some _ hz, Prog.bind_some _ hz]
      exact .some (ret, none) x s [] id
    | false =>
      have hz : (act handleZone : Eval Bool) x s = ⟨some (true, x, s), []⟩ := by
        show Prog.lift handleZone x s = _
        rw [Prog.lift, handleZone_calm hj]
      rw [Prog.bind_some _ hz] at hl
      rw [Prog.bind_some _ hz, Prog.bind_some _ hz]
      refine Carries.bind (h z) (fun r => ?_) x s (.of_calm hj) hl
      obtain ⟨tmp, _ | j⟩ := r
      · exact (ih _).weaken fun _ _ => trivial
      · intro x s _ _
        dsimp only [id]
        rw [publishAll_jumped]
        exact .some (_, some j) x s [] id

theorem whileBody_carries {f : Zone → Eval Status} {g : Zone → Eval (Status × Option Jump)}
    (h : ∀ z, Carries (fun _ => True) none id (f z) (g z)) (body : Option Zone) :
    Carries Settled none id (whileBody f body) (Flow.whileBody g body) := by
  cases body with
  | none => exact .pure rfl
  | some z =>
    refine .bind (.inert .stackSize) fun size => ?_
    refine .bind ((h z).weaken fun _ _ => trivial) fun r => ?_
    show Carries Settled r.2 id (act (popTo size)) ((fun _ => ((), r.2)) <$> act (popTo size))
    exact .map (.inert (.popTo size)) fun _ => rfl

theorem emptyZone_carries {f : Zone → Eval Status} {g : Zone → Eval (Status × Option Jump)}
    (h : ∀ z, Carries (fun _ => True) none id (f z) (g z)) (z : Zone) :
    Carries Settled none id (emptyZone f z) (emptyZone g z) := by
  exact .bind (.note _) fun _ => (h z).weaken fun _ _ => trivial

theorem enter_carries {α : Type} {a : α} {k : Eval α} {k' : Eval (α × Option Leave)}
    (hk : Carries Settled none leaves k k') :
    Carries Settled none leaves (noteExit >>= fun _ => k)
      (act Flow.asked >>= fun e => if e then pure (a, none) else k') := by
  intro x s hs hl
  change ∀ e ∈ ((noteExit >>= fun _ => k) x s).log, e.Straight at hl
  change Carry leaves s ((noteExit >>= fun _ => k) x s) _
  have hasked : (act Flow.asked : Eval Bool) x s = ⟨some (s.control.exit, x, s), []⟩ := rfl
  have hnote : noteExit x s = ⟨some ((), x, s), if s.control.exit then [.strayed] else []⟩ := rfl
  rw [Prog.bind_some _ hnote] at hl
  rw [Prog.bind_some _ hnote, Prog.bind_some _ hasked]
  cases he : s.control.exit with
  | true =>
    rw [he] at hl
    exact absurd (hl .strayed List.mem_cons_self) Step.strayed_crooked
  | false =>
    rw [he] at hl
    exact hk x s hs hl

theorem handleForloop_jump {s : State} (hs : Settled s) (x : Nat) (j : Option Jump) :
    (act handleForloop : Eval Bool) x (s.jump j) = match j with
      | none | some .cont => ⟨some (true, x, s), []⟩
      | some .brk => ⟨some (false, x, s), []⟩
      | some (.leave (.rtrn y)) => ⟨some (false, x, s.jump (some (.leave (.rtrn y)))), []⟩
      | some (.leave .exit) => ⟨some (true, x, s.jump (some (.leave .exit))), []⟩ := by
  obtain ⟨_, _, _, _, _, _, _, _, ⟨_, _, _, _⟩, _, _, _, _, _, _⟩ := s
  obtain ⟨hb, hc, hr⟩ := hs
  cases hb
  cases hc
  cases hr
  obtain _ | _ | _ | (y | _) := j <;> rfl

theorem turn_carries {α : Type} {a : α} {k : Eval α} {k' : Eval (α × Option Leave)}
    (hk : Carries Settled none leaves k k') (j : Option Jump) :
    Carries Settled j leaves
      (act handleForloop >>= fun b => if b then noteExit >>= fun _ => k else pure a)
      (Flow.turn a k' j) := by
  intro x s hs hl
  have hf := handleForloop_jump hs x j
  obtain _ | _ | _ | (y | _) := j
  · rw [Prog.bind_some _ hf] at hl ⊢
    exact enter_carries hk x s hs hl
  · rw [Prog.bind_some _ hf]
    exact .some (a, none) x s [] id
  · rw [Prog.bind_some _ hf] at hl ⊢
    exact enter_carries hk x s hs hl
  · rw [Prog.bind_some _ hf]
    exact .some (a, some (Leave.rtrn y)) x s [] id
  -- the flag of `exit` is not asked for
  · rw [Prog.bind_some _ hf] at hl
    exact absurd (hl .strayed List.mem_cons_self) Step.strayed_crooked

theorem reset_carries {α β : Type} {φ : β → α × Option Jump} {m : Eval α} {m' : Eval β}
    (h : Carries Settled none φ m m') :
    Carries Settled none φ (act resetForloop >>= fun _ => m) m' := by
  intro x s hs hl
  have hr : (act resetForloop : Eval Unit) x s = ⟨some ((), x, s), []⟩ := by
    show (⟨some ((), x, { s with control := { s.control with brk := false, cont := false } }), []⟩ :
      Run Nat State Step Unit) = _
    rw [hs.cleared]
  change ∀ e ∈ ((act resetForloop >>= fun _ => m) x s).log, e.Straight at hl
  change Carry φ s ((act resetForloop >>= fun _ => m) x s) (m' x s)
  rw [Prog.bind_some _ hr] at hl ⊢
  exact h x s hs hl

end Loops

section Sim

variable {H : Host} {n : Nat} {E : Evals} {R : Flows}

namespace Sim

end Sim

theorem Settles.refl {α : Type} {m : Eval α} (h : Keeps Step.Straight (Kept False True) m) :
    Settles m m := ⟨.refl m, h⟩

theorem Settles.mem {α : Type} (m : Mem α) : Settles (mem m) (Pub3.mem m) := .refl (mem_keeps m)

theorem reportError_settles (line : Nat) (msg : Str) :
    Settles (reportError line msg) (reportError line msg) := .refl (reportError_keeps line msg)

theorem whileTurn_carries (h : Sim E R) (cond : Expr) (body : Option Zone) (j : Option Jump) :
    Carries Settled j leaves (Nonblock.whileTurn E cond body) (Flow.whileTurn R cond body j) := by
  refine turn_carries ?_ j
  refine .after ⟨Nonblock.evalAsBool_agrees h.near cond, Nonblock.evalAsBool_keeps h.calm cond⟩
    fun go => .ite (fun _ => ?_) fun _ => .pure rfl
  exact .bind (whileBody_carries h.zone body) fun r => h.whileLoop cond body r.2

theorem forTurn_carries (h : Sim E R) (f : ForLoop) (i : Nat) (status : Status)
    (j : Option Jump) :
    Carries Settled j leaves (Nonblock.forTurn E f i status) (Flow.forTurn R f i status j) := by
  refine turn_carries ?_ j
  refine .after (.mem _) fun els => .ite (fun _ => ?_) fun _ => .pure rfl
  refine .after ⟨rowValue_agrees h.near.toRef _, rowValue_keeps h.calm.toRef _⟩ fun rev => ?_
  cases rev with
  | none => exact .after (reportError_settles _ _) fun _ => h.forLoop _ _ _ _
  | some x =>
    cases f.body with
    | none => exact h.forLoop _ _ _ _
    | some z =>
      refine .after (.refl (.lift (insertTab_steps _ _ _))) fun _ => ?_
      refine .after (.refl (.lift (pushLocals_steps _ _))) fun size => ?_
      refine .bind ((h.zone z).weaken fun _ _ => trivial) fun r => ?_
      refine .bind (.inert (.popTo size)) fun _ => ?_
      exact .bind (.inert (.onHeap _)) fun _ => h.forLoop _ _ _ _

theorem whileStatement_carries (h : Sim E R) (cond : Expr) (body : Option Zone) :
    Carries Settled none id (do
      act resetForloop
      E.whileLoop cond body
      pure Status.ok) (Flow.whileStatement R cond body) :=
  reset_carries (.bind (h.whileLoop cond body none) fun _ => .pure rfl)

theorem forStatement_carries (h : Sim E R) (f : ForLoop) :
    Carries Settled none id (do
      act resetForloop
      E.forLoop f 0 .ok) (Flow.forStatement R f) := by
  refine reset_carries ?_
  show Carries Settled none id _ (leaves <$> R.forLoop f 0 .ok none)
  exact .map (h.forLoop f 0 .ok none) fun _ => rfl

theorem publishAll_still {α : Type} (g : α → Eval (Status × Option Jump)) (zs : List α)
    (ret : Status) {s : State} (hs : s.control.jumps = true) :
    Ensures (fun _ => True) (Flow.publishAll g zs ret) s fun r _ => r.2 = none := by
  cases zs with
  | nil => exact .pure rfl
  | cons z zs =>
    refine .bind (.lift fun b t h => ?_)
    rw [handleZone_jumps hs] at h
    cases h
    exact .pure rfl

theorem map_still {α : Type} (m : Eval α) (s : State) :
    Ensures (fun _ => True) ((·, (none : Option Jump)) <$> m) s fun r _ => r.2 = none :=
  .bind fun _ _ _ _ => .pure rfl

theorem Settles.carries {α : Type} {pre : State → Prop} {m m' : Eval α} (h : Settles m m') :
    Carries pre none id m ((·, none) <$> m') :=
  .map (.ofSettles h) fun _ => rfl

namespace Flow.Nonblock

theorem publishZone_still (R : Flows) (z : Zone) {s : State} (hs : s.control.jumps = true) :
    Ensures (fun _ => True) (publishZone H n R z) s fun r _ => r.2 = none := by
  cases z with
  | html line children => exact publishAll_still _ children _ hs
  | pub line statements => exact publishAll_still _ statements _ hs
  | raw | text | wssBoundary | inlineExpr => exact map_still _ s

theorem publishInline_settles (h : Sim E R) (line : Nat) (x : Expr) :
    Settles (Pub3.Nonblock.publishZone H n E (.inlineExpr line x))
      (Pub3.Nonblock.publishZone H n R.evals (.inlineExpr line x)) where
  agrees := .bind (.refl _) fun _ => .bind (.refl _) fun _ =>
    .bind (Pub3.Nonblock.evalAsStr_agrees h.near x) fun _ => .refl _
  keeps := Pub3.Nonblock.publishInline_keeps h.calm line x

theorem publishZone_carries (h : Sim E R) (z : Zone) :
    Carries (fun _ => True) none id (Pub3.Nonblock.publishZone H n E z) (publishZone H n R z) := by
  cases z with
  | raw | text | wssBoundary =>
    exact (Settles.refl (.bind (output_keeps _) fun _ => .pure _)).carries
  | html line children =>
    exact publishAll_carries (fun z => (h.zone z).weaken fun _ _ => trivial) children _
  | inlineExpr line x => exact (publishInline_settles h line x).carries
  | pub line statements => exact publishAll_carries h.statement statements _

theorem publishFor_carries (h : Sim E R) (line : Nat) (iter : Str) (arr : Expr)
    (body empty : Option Zone) :
    Carries Settled none id (Pub3.Nonblock.publishStatement H n E (.for line iter arr body empty))
      (publishStatement H n R (.for line iter arr body empty)) := by
  refine .after ⟨Pub3.Nonblock.evalList_agrees h.near arr,
    Pub3.Nonblock.evalList_keeps h.calm arr⟩ fun v => .after (.mem _) fun l => ?_
  rcases l with _ | ⟨l, _ | k⟩ <;> cases empty
  · exact .after (reportError_settles line _) fun _ => .pure rfl
  · exact emptyZone_carries h.zone _
  · exact .pure rfl
  · exact emptyZone_carries h.zone _
  all_goals exact .after (.mem _) fun locals => forStatement_carries h _

theorem publishStatement_carries (h : Sim E R) (s : Statement) :
    Carries Settled none id (Pub3.Nonblock.publishStatement H n E s)
      (publishStatement H n R s) := by
  have hzone (z : Zone) : Carries Settled none id (E.zone z) (R.zone z) :=
    (h.zone z).weaken fun _ _ => trivial
  cases s with
  | zone line z =>
    cases z with
    | none => exact .stuck
    | some z => exact hzone z
  | expr line x => exact Settles.carries ⟨.bind (h.near.toRef _) fun _ => .pure _,
      .bind (h.calm.toRef _) fun _ => .pure _⟩
  | «while» line cond body => exact whileStatement_carries h cond body
  | «for» line iter arr body empty => exact publishFor_carries h line iter arr body empty
  | «if» line clauses =>
    refine .after ⟨findClause_agrees (Pub3.Nonblock.evalAsBool_agrees h.near) clauses,
      findClause_keeps (Pub3.Nonblock.evalAsBool_keeps h.calm) clauses⟩ fun z => ?_
    cases z with
    | none => exact .pure rfl
    | some z => exact hzone z
  | decl line typ bindings =>
    exact Settles.carries ⟨declBlock_agrees h.near.toMval typ bindings,
      declBlock_keeps h.calm.toMval typ bindings⟩
  | switch line key cases =>
    refine .after ⟨Pub3.Nonblock.findCase_agrees h.near key cases,
      Pub3.Nonblock.findCase_keeps h.calm key cases⟩ fun z => ?_
    cases z with
    | none => exact .pure rfl
    | some z => exact .bind (hzone z) fun r => .pure rfl
  | «include» line load file =>
    exact Settles.carries
      ⟨.bind (.note _) fun _ => .bind (Pub3.Nonblock.evalKey_agrees h.near file) fun _ => .refl _,
      .bind (.note _) fun _ => .bind (Pub3.Nonblock.evalKey_keeps h.calm file) fun _ =>
        .bind (reportError_keeps line _) fun _ => .pure _⟩
  | print line args =>
    exact Settles.carries
      ⟨.bind (Pub3.Nonblock.printArgs_agrees h.near args) fun _ => .pure _,
      .bind (Pub3.Nonblock.printArgs_keeps h.calm args) fun _ => .pure _⟩
  | fndef =>
    exact (Settles.refl (.bind (close_keeps _) fun _ => .bind get_keeps fun _ =>
      .bind (.lift (insertTab_steps _ _ _)) fun _ => .pure _)).carries
  | «break» => exact .jumps _ .brk fun _ => rfl
  | exit => exact .jumps _ (.leave .exit) fun _ => rfl
  | «continue» => exact .jumps _ .cont fun _ => rfl
  | «return» line val =>
    refine .after ⟨returnValue_agrees h.near.toVal val, returnValue_keeps h.calm.toVal val⟩
      fun x => ?_
    exact .jumps _ (.leave (.rtrn (x.getD .null))) fun _ => rfl

end Flow.Nonblock

end Sim

end Okws.Pub3

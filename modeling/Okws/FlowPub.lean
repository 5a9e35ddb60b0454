import Okws.FlowStep

namespace Okws.Pub3

open Zbuf Lib

def State.settle (s : State) : State :=
  { s with control := { exit := s.control.exit, depth := s.control.depth } }

/-- The second program ends as the first one does, but that nothing is left of the jumps. -/
def Fades {α : Type} (pre : State → Prop) (m m' : Eval α) : Prop :=
  ∀ x s, pre s → (∀ e ∈ (m x s).log, e.Straight) →
    m' x s.settle = ⟨(m x s).out.map fun r => (r.1, r.2.1, r.2.2.settle), (m x s).log⟩

theorem Settled.settle {s : State} (h : Settled s) : s.settle = s := by
  obtain ⟨_, _, _, _, _, _, _, _, ⟨_, _, _, _, _⟩, _, _, _, _, _, _⟩ := s
  obtain ⟨hb, hc, hr⟩ := h
  cases hb
  cases hc
  cases hr
  rfl

namespace Fades

variable {α β : Type} {pre : State → Prop}

theorem pure (a : α) : Fades pre (Pure.pure a) (Pure.pure a) := fun _ _ _ _ => rfl

theorem stuck : Fades pre (Prog.stuck : Eval α) Prog.stuck := fun _ _ _ _ => rfl

theorem lift {f : Act α} (hf : ∀ s, f s.settle = (f s).map fun r => (r.1, r.2.settle)) :
    Fades pre (act f) (act f) := by
  intro x s _ _
  show Prog.lift f x s.settle = ⟨(Prog.lift f x s).out.map _, (Prog.lift f x s).log⟩
  unfold Prog.lift
  rw [hf]
  cases f s <;> rfl

theorem getReg : Fades pre Prog.getReg Prog.getReg := fun _ _ _ _ => rfl

theorem setReg (l : Nat) : Fades pre (setLineno l) (setLineno l) := fun _ _ _ _ => rfl

theorem bind {m m' : Eval α} {k k' : α → Eval β} (hm : Fades pre m m')
    (hk : ∀ a, Fades (fun _ => True) (k a) (k' a)) : Fades pre (m >>= k) (m' >>= k') := by
  intro x s hs hl
  have hm := hm x s hs
  generalize hr : m x s = r at hm
  obtain ⟨_ | ⟨a, y, t⟩, l⟩ := r
  · rw [Prog.bind_none k hr] at hl ⊢
    exact Prog.bind_none k' (hm hl)
  · rw [Prog.bind_some k hr] at hl ⊢
    rw [Prog.bind_some k' (hm fun e he => hl e (List.mem_append_left _ he)),
      hk a y t trivial fun e he => hl e (List.mem_append_right _ he)]

theorem after {m : Eval α} {k k' : α → Eval β}
    (hm : ∀ s, Settled s → Ensures Step.Straight m s fun _ t => Settled t)
    (hk : ∀ a, Fades Settled (k a) (k' a)) : Fades Settled (m >>= k) (m >>= k') := by
  intro x s hs hl
  have hm := hm s hs x
  rw [hs.settle]
  generalize hr : m x s = r at hm
  obtain ⟨_ | ⟨a, y, t⟩, l⟩ := r
  · rw [Prog.bind_none k hr, Prog.bind_none k' hr]
    rfl
  · rw [Prog.bind_some k hr] at hl ⊢
    have ht := hm _ rfl fun e he => hl e (List.mem_append_left _ he)
    have hk := hk a y t ht fun e he => hl e (List.mem_append_right _ he)
    rw [ht.settle] at hk
    rw [Prog.bind_some k' hr, hk]

theorem last {m m' : Eval α} {f : Act Unit} (h : Fades Settled m m')
    (hf : ∀ s, f s.settle = f s) {x : Nat} {s : State} (hs : Settled s)
    (hl : ∀ e ∈ ((m >>= fun a => act f >>= fun _ => (Pure.pure a : Eval α)) x s).log,
      e.Straight) :
    (m' >>= fun a => act f >>= fun _ => (Pure.pure a : Eval α)) x s =
      (m >>= fun a => act f >>= fun _ => Pure.pure a) x s := by
  have h := h x s hs
  rw [hs.settle] at h
  generalize hr : m x s = r at h
  obtain ⟨_ | ⟨a, y, t⟩, l⟩ := r
  · rw [Prog.bind_none _ hr] at hl ⊢
    exact Prog.bind_none _ (h hl)
  · rw [Prog.bind_some _ hr] at hl ⊢
    rw [Prog.bind_some _ (h fun e he => hl e (List.mem_append_left _ he))]
    have hact : (act f : Eval Unit) y t.settle = act f y t := by
      show Prog.lift f y t.settle = Prog.lift f y t
      unfold Prog.lift
      rw [hf]
    have hrest : (act f >>= fun _ => (Pure.pure a : Eval α)) y t.settle =
        (act f >>= fun _ => Pure.pure a) y t := by
      simp only [Bind.bind, hact]
    rw [hrest]

end Fades

variable {H : Host} {n : Nat} {E A : Evals} {R S : Flows}

namespace Flow.Block

theorem pubAsStr_agrees (h : Sim A S) (x : Expr) :
    Agrees Step.Straight True True (Pub3.Block.pubAsStr H n A x)
      (Pub3.Block.pubAsStr H n S.evals x) := by
  refine .bind (h.near.toVal _) fun v => ?_
  cases v with
  | none => exact .pure none
  | some v => exact .bind (.note _) fun _ => .lift _

theorem pubLogicalIf_agrees (hE : Sim E R) (h : Sim A S) (x : Expr) :
    Agrees Step.Straight True True (Pub3.Block.pubLogicalIf H n E A x)
      (Pub3.Block.pubLogicalIf H n R.evals S.evals x) := by
  refine .ite (fun _ => ?_) fun _ => Pub3.Nonblock.evalLogical_agrees hE.near x
  rw [Pub3.Block.pubLogical_eq, Pub3.Block.pubLogical_eq]
  exact Pub3.Nonblock.evalLogical_agrees h.near x

theorem shellStr_agrees (h : Sim A S) (els : List Expr) :
    Agrees Step.Straight True True (Pub3.Block.shellStr H n A els)
      (Pub3.Block.shellStr H n S.evals els) := by
  induction els with
  | nil => exact .pure []
  | cons x xs ih =>
    exact .bind (h.near.toVal _) fun _ => .bind (.refl _) fun _ => .bind ih fun _ => .pure _

theorem pubCall_agrees (hE : Sim E R) (h : Sim A S) (line : Nat) (fn : Expr)
    (arglist : List Expr) :
    Agrees Step.Straight True True (Pub3.Block.pubCall E A line fn arglist)
      (Pub3.Block.pubCall R.evals S.evals line fn arglist) := by
  have hfn : Agrees Step.Straight True True (Pub3.Block.pubFnToVal E A fn)
      (Pub3.Block.pubFnToVal R.evals S.evals fn) :=
    .ite (fun _ => h.near.toVal _) fun _ => hE.near.toVal _
  have hcallee (f : Option Ptr) : Agrees Step.Straight True True (callee line fn f)
      (callee line fn f) := .refl _
  refine .bind (.setReg_bind line (.bind hfn hcallee)) fun f => ?_
  cases f with
  | none => exact .pure none
  | some f => exact .ite (fun _ => h.near.call f _) fun _ => hE.near.call f _

theorem raised_log {β : Type} {s t : State} (hs : s.control.jumps = false) (k : Eval β) (j : Jump)
    (x : Nat) : .jumped ∈ ((noteJump s.control >>= fun _ => k) x (t.jump (some j))).log := by
  generalize s.control = c at hs ⊢
  obtain ⟨b, c, e, r⟩ := c
  simp only [Control.jumps, Bool.or_eq_false_iff, Option.isSome_eq_false_iff,
    Option.isNone_iff_eq_none] at hs
  obtain ⟨⟨⟨rfl, rfl⟩, rfl⟩, rfl⟩ := hs
  rw [Prog.bind_some _ (m := noteJump _) rfl]
  refine List.mem_append_left _ ?_
  rw [if_pos]
  · exact List.mem_cons_self
  · obtain _ | _ | (y | _) := j <;> simp [State.jump, Control.jump]

theorem zone_ended {β : Type} (h : Sim A S) (z : Zone) (k : Status → Eval β) (x : Nat) (s : State)
    (hl : ∀ e ∈ ((A.zone z >>= fun xs => noteJump s.control >>= fun _ => k xs) x s).log,
      e.Straight) :
    (ended (S.zone z) >>= fun xs => noteJump s.control >>= fun _ => k xs) x s =
      (A.zone z >>= fun xs => noteJump s.control >>= fun _ => k xs) x s := by
  have hz : (∀ e ∈ (A.zone z x s).log, e.Straight) → Carry id s (A.zone z x s) (S.zone z x s) :=
    h.zone z x s trivial
  have hstill := fun hs => h.still z s hs x
  generalize hr : A.zone z x s = r at hz
  generalize hr' : S.zone z x s = r' at hz hstill
  obtain ⟨_ | ⟨a, y, t⟩, l⟩ := r
  · rw [Prog.bind_none _ hr] at hl ⊢
    cases hz hl
    exact Prog.bind_none _ (Prog.bind_none _ hr')
  · rw [Prog.bind_some _ hr] at hl ⊢
    have hz := hz fun e he => hl e (List.mem_append_left _ he)
    have hl := fun e he => hl e (List.mem_append_right _ he)
    generalize hq : (⟨some (a, y, t), l⟩ : Run Nat State Step Status) = q at hz
    cases hz with
    | none => cases hq
    | some b y t' l hset =>
      cases hq
      obtain ⟨b, _ | j⟩ := b
      · refine Prog.bind_some _ ?_
        rw [ended, Prog.bind_some _ hr']
        exact congrArg _ (List.append_nil _)
      · cases hs : s.control.jumps with
        | true => cases hstill hs _ rfl fun _ _ => trivial
        | false => exact absurd (hl .jumped (raised_log hs _ j y)) Step.jumped_crooked

theorem pubHeredoc_agrees (h : Sim A S) (body : Option Zone) :
    Agrees Step.Straight True True (Pub3.Block.pubHeredoc H A body)
      (Pub3.Block.pubHeredoc H S.evals body) := by
  cases body with
  | none => exact .pure _
  | some z =>
    refine .bind (.note _) fun _ => ?_
    intro x y s hxy hl
    cases hxy trivial
    exact .of_eq (zone_ended h z _ x { s with out := [], muzzle := false } hl) []

theorem pubToVal_agrees (hE : Sim E R) (h : Sim A S) (x : Ptr) :
    Agrees Step.Straight True True (Pub3.Block.pubToVal H n E A x)
      (Pub3.Block.pubToVal H n R.evals S.evals x) := by
  cases x with
  | node x =>
    cases x with
    | constant | regex | varref | scopedVarref | lambda =>
      exact Pub3.Nonblock.evalToVal_agrees hE.near _
    | or | and | not | eq | relation => exact .bind (pubLogicalIf_agrees hE h _) fun _ => .pure _
    | shellStr line els => exact .bind (shellStr_agrees h els) fun _ => .pure _
    | call line fn arglist => exact pubCall_agrees hE h line fn arglist
    | heredoc line body => exact pubHeredoc_agrees h body
    | binaryop line o₁ o₂ op =>
      exact .bind (h.near.toVal _) fun _ => .bind (h.near.toVal _) fun _ => .refl _
    | dictref line d key => exact .bind (h.near.toVal _) fun _ => .refl _
    | vecref line v i =>
      exact .bind (h.near.toVal _) fun _ => .bind (h.near.toVal _) fun _ => .refl _
    | list => exact listToMval_agrees h.near.toMval _ _
    | dict => exact dictToMval_agrees h.near.toMval _ _
    | assignment line lhs rhs =>
      exact .bind (Pub3.Nonblock.evalAssignment_agrees h.near line lhs rhs) fun _ => .lift _
  | obj a =>
    refine .bind (.lift _) fun o => ?_
    cases o with
    | list els st => exact listToMval_agrees h.near.toMval _ els
    | dict tab st => exact dictToMval_agrees h.near.toMval _ tab
    | _ => exact Pub3.Nonblock.objToVal_agrees hE.near a _

theorem pubToRef_agrees (hE : Sim E R) (h : Sim A S) (x : Ptr) :
    Agrees Step.Straight True True (Pub3.Block.pubToRef H n E A x)
      (Pub3.Block.pubToRef H n R.evals S.evals x) := by
  cases x with
  | node x =>
    cases x with
    | varref | scopedVarref => exact Pub3.Nonblock.evalToRef_agrees hE.near _
    | dictref line d key => exact .bind (h.near.toRef _) fun _ => .refl _
    | vecref line v i =>
      exact .bind (h.near.toRef _) fun _ => .bind (h.near.toVal _) fun _ => .refl _
    | assignment line lhs rhs => exact Pub3.Nonblock.evalAssignment_agrees h.near line lhs rhs
    | call line fn arglist => exact .bind (pubCall_agrees hE h line fn arglist) fun _ => .lift _
    | _ => exact .bind (pubToVal_agrees hE h _) fun _ => .lift _
  | obj a => exact .bind (pubToVal_agrees hE h _) fun _ => .lift _

theorem pubToMval_agrees (hE : Sim E R) (h : Sim A S) (x : Ptr) :
    Agrees Step.Straight True True (Pub3.Block.pubToMval H n E A x)
      (Pub3.Block.pubToMval H n R.evals S.evals x) := by
  cases x with
  | node x =>
    cases x with
    | list | dict => exact pubToVal_agrees hE h _
    | dictref | vecref | varref | scopedVarref =>
      exact .bind (pubToRef_agrees hE h _) fun _ => .lift _
    | _ => exact .bind (pubToVal_agrees hE h _) fun _ => .lift _
  | obj a =>
    refine .bind (.lift _) fun o => ?_
    cases o with
    | list els st => exact listToMval_agrees h.near.toMval _ els
    | dict tab st => exact dictToMval_agrees h.near.toMval _ tab
    | _ => exact .bind (pubToVal_agrees hE h _) fun _ => .lift _

theorem pubFn_agrees (hU : H.Uniform) (hE : Sim E R) (h : Sim A S) (f : Callable)
    (args : List Ptr) :
    Agrees Step.Straight True True (Pub3.Block.pubFn H E A f args) (pubFn H R S f args) := by
  cases f with
  | lambda l closure => exact evalFn_agrees hU h (.lambda l closure) args
  | compiled f =>
    dsimp only [Pub3.Block.pubFn, pubFn]
    cases f.kind with
    | plain safeArgs =>
      exact .bind (evalArgs_agrees h.near.toMval safeArgs args) fun xs =>
        callLib_agrees (hU.vEval1 _ f _ _ xs hE.near.call)
    | blocking => exact .bind (evalArgs_agrees h.near.toMval true args) fun xs => .refl _
    | isnull =>
      match args with
      | [a] => exact .bind (Pub3.Nonblock.evalAsNull_agrees h.near a) fun _ => .pure _
      | [] | _ :: _ :: _ => exact .refl _
    | default =>
      match args with
      | [a] =>
        exact .bind (Pub3.Nonblock.evalAsNull_agrees h.near a) fun _ => .ite (fun _ => .pure _)
          fun _ => h.near.toVal a
      | [a, b] =>
        exact .bind (Pub3.Nonblock.evalAsNull_agrees h.near a) fun _ =>
          .bind (h.near.toVal b) fun d => .ite (fun _ => .pure d) fun _ => h.near.toVal a
      | [] | _ :: _ :: _ :: _ => exact .refl _

theorem printArgs_agrees (h : Sim A S) (args : List Expr) :
    Agrees Step.Straight True True (Pub3.Block.printArgs H n A args)
      (Pub3.Block.printArgs H n S.evals args) := by
  induction args with
  | nil => exact .pure ()
  | cons x xs ih => exact .bind (pubAsStr_agrees h x) fun _ => .bind (.refl _) fun _ => ih

theorem pubToBindtab_agrees (h : Sim A S) (x : Expr) :
    Agrees Step.Straight True True (Pub3.Block.pubToBindtab n A x)
      (Pub3.Block.pubToBindtab n S.evals x) := by
  cases x with
  | dict l bs =>
    exact .bind (.lift _) fun _ => .ite (fun _ => .refl _) fun _ =>
      .bind (mapTab_agrees h.near.toMval _) fun _ => .refl _
  | _ =>
    refine .bind (h.near.toVal _) fun v => ?_
    cases v with
    | none => exact .pure none
    | some v => exact .refl _

variable {publish : Str → Eval Status}

theorem publishFile_agrees (hp : ∀ fn, Fades Settled (H.publish fn) (publish fn)) (load : Bool)
    (fn : Str) (bi : Option Nat) :
    Agrees Step.Straight True True (Pub3.Block.publishFile H load fn bi)
      (Pub3.Block.publishFile { H with publish := publish } load fn bi) := by
  intro x y s hxy hl
  cases hxy trivial
  cases bi with
  | none => exact .of_eq ((hp fn).last (fun _ => rfl) ⟨rfl, rfl, rfl⟩ hl) []
  | some b => exact .of_eq ((hp fn).last (fun _ => rfl) ⟨rfl, rfl, rfl⟩ hl) []

theorem publishNamed_agrees (hp : ∀ fn, Fades Settled (H.publish fn) (publish fn))
    (line : Nat) (load : Bool) (dict : Option Expr) (fn : Option Str) (bi : Option Nat) :
    Agrees Step.Straight True True
      (match fn with
      | none | some [] => do
        reportError line (text "include: cannot evaluate filename")
        pure .ok
      | some f =>
        if dict.isSome && bi.isNone then do
          reportError line (text "include: cannot evalute parameters")
          pure .ok
        else Pub3.Block.publishFile H load (cstr f) bi)
      (match fn with
      | none | some [] => do
        reportError line (text "include: cannot evaluate filename")
        pure .ok
      | some f =>
        if dict.isSome && bi.isNone then do
          reportError line (text "include: cannot evalute parameters")
          pure .ok
        else Pub3.Block.publishFile { H with publish := publish } load (cstr f) bi) := by
  obtain _ | _ | ⟨c, f⟩ := fn
  · exact .refl _
  · exact .refl _
  · exact .ite (fun _ => .refl _) fun _ => publishFile_agrees hp load _ bi

theorem vPublishInclude_agrees (hp : ∀ fn, Fades Settled (H.publish fn) (publish fn))
    (h : Sim A S) (line : Nat) (load : Bool) (file : Expr) (dict : Option Expr) :
    Agrees Step.Straight True True (Pub3.Block.vPublishInclude H n A line load file dict)
      (Pub3.Block.vPublishInclude { H with publish := publish } n S.evals line load file dict) := by
  refine .bind (pubAsStr_agrees h file) fun fn => ?_
  cases dict with
  | none => exact .bind (.pure none) fun bi => publishNamed_agrees hp line load none fn bi
  | some d =>
    exact .bind (pubToBindtab_agrees h d) fun bi => publishNamed_agrees hp line load (some d) fn bi

theorem vPublishZone_carries (h : Sim A S) (z : Zone) :
    Carries (fun _ => True) none id (Pub3.Block.vPublishZone H n E A z)
      (vPublishZone H n R S z) := by
  cases z with
  | raw | text | wssBoundary =>
    exact (Settles.refl (.bind (output_keeps _) fun _ => .pure _)).carries
  | html line children =>
    exact publishAll_carries (fun z => (h.zone z).weaken fun _ _ => trivial) children _
  | inlineExpr line x =>
    exact Settles.carries ⟨.bind (.refl _) fun _ => .bind (.refl _) fun _ =>
      .bind (pubAsStr_agrees h x) fun _ => .refl _, Pub3.Block.publishInline_keeps h.calm line x⟩
  | pub line statements => exact publishAll_carries h.statement statements _

theorem publishZone_still (R S : Flows) (z : Zone) {s : State} (hs : s.control.jumps = true) :
    Ensures (fun _ => True) (publishZone H n R S z) s fun r _ => r.2 = none := by
  refine .bind (.setReg _ (.ite (fun _ => ?_) fun _ => Nonblock.publishZone_still R z hs))
  cases z with
  | html line children => exact publishAll_still _ children _ hs
  | pub line statements => exact publishAll_still _ statements _ hs
  | raw | text | wssBoundary | inlineExpr => exact map_still _ s

theorem setLineno_settles (l : Nat) : Settles (setLineno l) (setLineno l) := .refl (.setReg l)

theorem publishZone_carries (hE : Sim E R) (h : Sim A S) (z : Zone) :
    Carries (fun _ => True) none id (Pub3.Block.publishZone H n E A z) (publishZone H n R S z) := by
  intro x s _ hl
  have hzone : Carries (fun _ => True) none id
      (if z.mightBlock then Pub3.Block.vPublishZone H n E A z
        else Pub3.Nonblock.publishZone H n E z)
      (if z.mightBlock then vPublishZone H n R S z else Nonblock.publishZone H n R z) :=
    .ite (fun _ => vPublishZone_carries h z) fun _ => Nonblock.publishZone_carries hE z
  exact hzone (Zone.line z) s trivial hl

theorem vPublishStatement_carries {publish : Str → Eval Status} (hT : H.Tidy)
    (hp : ∀ fn, Fades Settled (H.publish fn) (publish fn)) (hE : Sim E R) (h : Sim A S)
    (s : Statement) :
    Carries Settled none id (Pub3.Block.vPublishStatement H n E A s)
      (vPublishStatement H n R S publish s) := by
  have hS := Nonblock.publishStatement_carries (H := H) (n := n) h s
  cases s with
  | zone line z =>
    cases z with
    | none => exact .stuck
    | some z => exact (h.zone z).weaken fun _ _ => trivial
  | expr | «while» | «for» | «if» | decl | «break» | «continue» | «return» | exit | fndef => exact hS
  | switch line key cases =>
    refine .after ⟨Pub3.Nonblock.findCase_agrees hE.near key cases,
      Pub3.Nonblock.findCase_keeps hE.calm key cases⟩ fun z => ?_
    cases z with
    | none => exact .pure rfl
    | some z => exact (h.zone z).weaken fun _ _ => trivial
  | «include» line load file dict =>
    exact Settles.carries ⟨vPublishInclude_agrees hp h line load file dict,
      Pub3.Block.vPublishInclude_keeps hT h.calm line load file dict⟩
  | print line args =>
    exact Settles.carries ⟨.bind (printArgs_agrees h args) fun _ => .pure _,
      .bind (Pub3.Block.printArgs_keeps h.calm args) fun _ => .pure _⟩

theorem publishStatement_carries {publish : Str → Eval Status} (hT : H.Tidy)
    (hp : ∀ fn, Fades Settled (H.publish fn) (publish fn)) (hE : Sim E R) (h : Sim A S)
    (s : Statement) :
    Carries Settled none id (Pub3.Block.publishStatement H n E A s)
      (publishStatement H n R S publish s) :=
  .after (setLineno_settles _) fun _ => .ite
    (fun _ => vPublishStatement_carries hT hp hE h s) fun _ => Nonblock.publishStatement_carries hE s

end Flow.Block

section Sim

variable {publish : Str → Eval Status}

theorem Sim.pub (hT : H.Tidy) (hU : H.Uniform)
    (hp : ∀ fn, Fades Settled (H.publish fn) (publish fn)) (hE : Sim E R) (h : Sim A S) :
    Sim (Block.step H n E A) (Flow.Block.step H n R S publish) where
  near := {
    located := .inl trivial
    toVal := Flow.Block.pubToVal_agrees hE h
    toRef := Flow.Block.pubToRef_agrees hE h
    toMval := Flow.Block.pubToMval_agrees hE h
    toVal_call := Flow.Block.pubToVal_agrees hE h
    call := Flow.Block.pubFn_agrees hU hE h }
  calm := hE.calm.pub hT (Step.clean H) h.calm
  zone := Flow.Block.publishZone_carries hE h
  still z _ hs := Flow.Block.publishZone_still R S z hs
  statement := Flow.Block.publishStatement_carries hT hp hE h
  whileLoop := whileTurn_carries h
  forLoop := forTurn_carries h

theorem Sim.stuck : Sim .stuck .stuck where
  near := {
    located := .inl trivial
    toVal _ := .stuck
    toRef _ := .stuck
    toMval _ := .stuck
    toVal_call _ := .stuck
    call _ _ := .stuck }
  calm := .stuck
  zone _ := .stuck
  still _ _ _ := .stuck
  statement _ := .stuck
  whileLoop _ _ _ := .stuck
  forLoop _ _ _ _ := .stuck

theorem nonblock_sim (hT : H.Tidy) (hU : H.Uniform) (n : Nat) :
    Sim (nonblock H n) (Flow.nonblock H n) := by
  induction n with
  | zero => exact .stuck
  | succ n ih => exact ih.eval hT hU

theorem block_sim (hT : H.Tidy) (hU : H.Uniform)
    (hp : ∀ fn, Fades Settled (H.publish fn) (publish fn)) (n : Nat) :
    Sim (block H n) (Flow.block H publish n) := by
  induction n with
  | zero => exact .stuck
  | succ n ih => exact .pub hT hU hp (nonblock_sim hT hU n) ih

end Sim

end Okws.Pub3

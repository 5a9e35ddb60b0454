import Okws.Kept

namespace Okws.Pub3

open Zbuf Lib

/-- The functions of the libraries change neither the place nor the flags; they may leave layers,
as `import` does. -/
structure Host.Tidy (H : Host) : Prop where
  vEval1 : ∀ (G : Step → Prop) (p q : Prop) f call xs,
    (∀ g as, Keeps G (Kept p q) (call g as)) → Keeps G (Kept False q) (H.vEval1 f call xs)
  vPubToVal2 : ∀ (G : Step → Prop) (q : Prop) f xs, Keeps G (Kept False q) (H.vPubToVal2 f xs)
  publish : ∀ (G : Step → Prop) fn, Keeps G (Kept False False) (H.publish fn)

/-- Only `import` leaves layers. -/
structure Host.Modest (H : Host) : Prop where
  vEval1 : ∀ (G : Step → Prop) (p q : Prop) f call xs, f.imports = false →
    (∀ g as, Keeps G (Kept p q) (call g as)) → Keeps G (Kept p q) (H.vEval1 f call xs)
  vPubToVal2 : ∀ (G : Step → Prop) (p q : Prop) f xs, f.imports = false →
    Keeps G (Kept p q) (H.vPubToVal2 f xs)

/-- If `p`, no zone leaves layers that nothing pops and no library function leaves any; if `q`, no
jump leaves a heredoc. -/
structure Clean (H : Host) (G : Step → Prop) (p q : Prop) : Prop where
  zones : p → ∀ z, G (.unscoped z) → z.declares = false
  libraries : p → ∀ f, G (.library f) → f.imports = false
  modest : p → H.Modest
  jumps : q → ¬ G .jumped

structure Looped (p q : Prop) (s t : State) : Prop where
  kept : Kept p False s t
  ended : q → t.control.brk = false ∧ t.control.cont = false

theorem Looped.trans {p q : Prop} {s t u : State} (h : Kept p False s t) (h' : Looped p q t u) :
    Looped p q s u where
  kept := h.trans h'.kept
  ended := h'.ended

structure Calm (G : Step → Prop) (p q : Prop) (E : Evals) : Prop where
  toVal : ∀ x, Keeps G (Kept p q) (E.toVal x)
  toRef : ∀ x, Keeps G (Kept p q) (E.toRef x)
  toMval : ∀ x, Keeps G (Kept p q) (E.toMval x)
  call : ∀ f as, Keeps G (Kept p q) (E.call f as)
  zone : ∀ z, Keeps G (Kept (p ∧ z.declares = false) False) (E.zone z)
  jumping : ∀ z s, s.control.jumps = true → Ensures G (E.zone z) s fun _ t => Kept p q s t
  statement : ∀ s, Keeps G (Kept (p ∧ s.declares = false) False) (E.statement s)
  whileLoop : ∀ c b, Keeps G (Looped p q) (E.whileLoop c b)
  forLoop : ∀ f i st, Keeps G (Looped p q) (E.forLoop f i st)

theorem Calm.anyZone {G : Step → Prop} {p q : Prop} {E : Evals} (h : Calm G p q E) (z : Zone) :
    Keeps G (Kept False False) (E.zone z) :=
  (h.zone z).imp fun _ _ hk => hk.weaken False.elim id

section Pages

variable {H : Host} {G : Step → Prop} {p q : Prop}

theorem resetForloop_steps : Steps (Kept p False) resetForloop := by
  intro s _ t h
  cases h
  exact .ofControl rfl

theorem handleZone_keeps : Keeps G (Kept p q) (act handleZone) :=
  .lift (.bind .get fun _ => .pure _)

theorem handleZone_jumps {s : State} (h : s.control.jumps = true) :
    handleZone s = some (false, s) := by
  have hb : (!s.control.brk && s.control.rtrn.isNone && !s.control.cont && !s.control.exit) =
      false := by
    rw [← Option.not_isSome, ← Bool.not_or, ← Bool.not_or, ← Bool.not_or]
    exact (congrArg (!·) h)
  show some (_, s) = _
  rw [hb]

theorem handleZone_calm {s : State} (h : s.control.jumps = false) :
    handleZone s = some (true, s) := by
  have hb : (!s.control.brk && s.control.rtrn.isNone && !s.control.cont && !s.control.exit) =
      true := by
    rw [← Option.not_isSome, ← Bool.not_or, ← Bool.not_or, ← Bool.not_or]
    exact congrArg (!·) h
  show some (_, s) = _
  rw [hb]

theorem publishAll_keeps {α : Type} {f : α → Eval Status} {zs : List α}
    (h : ∀ x ∈ zs, Keeps G (Kept p False) (f x)) (ret : Status) :
    Keeps G (Kept p False) (publishAll f zs ret) := by
  induction zs generalizing ret with
  | nil => exact .pure ret
  | cons z zs ih =>
    obtain ⟨hz, hzs⟩ := List.forall_mem_cons.mp h
    exact .bind handleZone_keeps fun b => .ite (fun _ => .bind hz fun tmp => ih hzs _)
      fun _ => .pure ret

theorem publishAll_jumping {α : Type} (f : α → Eval Status) (zs : List α) (ret : Status)
    {s : State} (hs : s.control.jumps = true) :
    Ensures G (publishAll f zs ret) s fun _ t => Kept p q s t := by
  cases zs with
  | nil => exact .pure (.refl s)
  | cons z zs =>
    refine .bind (.lift fun b t h => ?_)
    rw [handleZone_jumps hs] at h
    cases h
    exact .pure (.refl s)

theorem whileBody_keeps {f : Zone → Eval Status} (h : ∀ x, Keeps G (Kept False False) (f x))
    (body : Option Zone) : Keeps G (Kept p False) (whileBody f body) := by
  cases body with
  | none => exact .pure ()
  | some z =>
    refine fun s => .bind (.lift fun size s' hs => ?_)
    cases hs
    refine .bind ((h z s).imp fun _ t ht => .lift fun _ u hu => ?_)
    cases hu
    exact ⟨ht.fixed, by simp only [ht.take_stack]; exact List.prefix_rfl, ht.out,
      fun _ => ht.take_stack, False.elim⟩

theorem emptyZone_keeps {f : Zone → Eval Status}
    (h : ∀ x, Keeps G (Kept (p ∧ x.declares = false) False) (f x)) (hG : Clean H G p q) (z : Zone) :
    Keeps G (Kept p False) (emptyZone f z) := fun s =>
  .bind (.note fun hz => (h z s).imp fun _ _ hk => hk.weaken (fun hp => ⟨hp, hG.zones hp z hz⟩) id)

theorem Kept.ended {s t : State} (h : Kept p q s t)
    (hs : s.control.brk = false ∧ s.control.cont = false) (hq : q) :
    t.control.brk = false ∧ t.control.cont = false := by
  obtain hc | ⟨_, hc⟩ := h.control hq <;> rw [hc] <;> exact hs

theorem loud_keeps {α : Type} (warn : Bool) {m : Eval α} {w : α → Eval Unit}
    (hm : Keeps G (Kept p q) m) (hw : ∀ a, Keeps G (Kept p q) (w a)) :
    Keeps G (Kept p q) (do
      let oldLoud ← act (if warn then setLoud true else pure false)
      let t ← m
      w t
      Prog.when warn (act (discard (setLoud oldLoud)))
      pure Status.ok) := by
  intro s
  cases warn with
  | false =>
    refine .bind (.lift fun b s' h => ?_)
    cases h
    refine .bind ((hm s).imp fun a t ht => .bind ((hw a t).imp fun _ u hu => ?_))
    exact Keeps.bind (T := Kept p q) (.pure _) (fun _ => .pure _) u |>.imp fun _ v hv =>
      (ht.trans hu).trans hv
  | true =>
    refine .bind (.lift fun b s' h => ?_)
    cases h
    refine .bind ((hm _).imp fun a t ht => .bind ((hw a t).imp fun _ u hu => .bind
      (.ite (fun _ => .lift fun _ v hv => .pure ?_) fun h => absurd rfl h)))
    cases hv
    exact (ht.trans hu).unloud

theorem row_loops {β : Type} {f : Zone → Eval Status} {k : Status → Eval β}
    (hf : ∀ z, Keeps G (Kept False False) (f z)) (hk : ∀ st, Keeps G (Looped p q) (k st))
    (z : Zone) (locals : Nat) (iter : Str) (x : Ptr) (l i : Nat) :
    Keeps G (Looped p q) (do
      act (insertTab locals iter (some x))
      let size ← act (pushLocals locals .locals)
      let tmp ← f z
      act (popTo size)
      mem (setRow l i x)
      k tmp) := by
  intro s
  refine .bind (.lift fun _ s₁ h₁ => ?_)
  have h₁ : Kept p False s s₁ := insertTab_steps _ _ _ _ _ _ h₁
  refine .bind (.lift fun size s₂ h₂ => ?_)
  have hsize : size = s₁.stack.length := by
    cases h₂
    rfl
  have h₂ : Kept False False s₁ s₂ := pushLocals_steps _ _ _ _ _ h₂
  refine .bind ((hf z s₂).imp fun tmp t ht => .bind (.lift fun _ u hu => ?_))
  have ht := h₂.trans ht
  have hu : Kept p False s₁ u := by
    cases hu
    rw [hsize]
    exact ⟨ht.fixed, by simp only [ht.take_stack]; exact List.prefix_rfl, ht.out,
      fun _ => ht.take_stack, False.elim⟩
  refine .bind ((mem_keeps (p := p) (q := False) _ u).imp fun _ v hv => ?_)
  exact ((hk _) v).imp fun _ w hw => Looped.trans (h₁.trans (hu.trans hv)) hw

end Pages

namespace Nonblock

variable {H : Host} {n : Nat} {G : Step → Prop} {p q : Prop} {E : Evals}

theorem evalAsBool_keeps (h : Calm G p q E) (x : Expr) : Keeps G (Kept p q) (evalAsBool E x) :=
  silent_keeps (h.toVal _) fun _ => mem_keeps _

theorem evalAsNull_keeps (h : Calm G p q E) (x : Ptr) : Keeps G (Kept p q) (evalAsNull E x) :=
  silent_keeps (h.toVal _) fun _ => mem_keeps _

theorem evalKey_keeps (h : Calm G p q E) (x : Expr) : Keeps G (Kept p q) (evalKey H n E x) := by
  refine .bind (h.toVal _) fun v => ?_
  cases v with
  | none => exact .pure none
  | some v => exact writtenStr_keeps H n _ v

theorem evalAsStr_keeps (h : Calm G p q E) (x : Expr) : Keeps G (Kept p q) (evalAsStr H n E x) := by
  refine .bind (h.toVal _) fun v => ?_
  cases v with
  | none => exact .pure none
  | some v => exact .bind (.note _) fun _ => writtenStr_keeps H n _ v

theorem evalLogical_keeps (h : Calm G p q E) (x : Expr) :
    Keeps G (Kept p q) (evalLogical H n E x) := by
  cases x with
  | or l t₁ t₂ =>
    exact .bind (evalAsBool_keeps h t₁) fun _ => .ite (fun _ => .pure _) fun _ =>
      evalAsBool_keeps h t₂
  | and l f₁ f₂ =>
    exact .bind (evalAsBool_keeps h f₁) fun _ =>
      .ite (fun _ => evalAsBool_keeps h f₂) fun _ => .pure _
  | not l e => exact .bind (evalAsBool_keeps h e) fun _ => .pure _
  | eq l o₁ o₂ pos => exact .bind (h.toVal _) fun _ => .bind (h.toVal _) fun _ => mem_keeps _
  | relation l x y op =>
    exact .bind (h.toVal _) fun _ => .bind (h.toVal _) fun _ => relationReport_keeps H n l op _ _
  | _ => exact .stuck

theorem shellStr_keeps (h : Calm G p q E) (els : List Expr) :
    Keeps G (Kept p q) (shellStr H n E els) := by
  induction els with
  | nil => exact .pure []
  | cons x xs ih =>
    exact .bind (h.toVal _) fun v => .bind (insertOpt_keeps H n _ v) fun s => .bind ih fun t =>
      .pure _

theorem evalCall_keeps (h : Calm G p q E) (line : Nat) (fn : Expr) (arglist : List Expr) :
    Keeps G (Kept p q) (evalCall E line fn arglist) := by
  have hprep : Keeps G (Kept p q) (evalPrepare E line fn) :=
    .bind (.setReg line) fun _ => .bind (h.toVal _) fun f => callee_keeps line fn f
  refine .bind hprep fun f => ?_
  cases f with
  | none => exact .pure none
  | some f => exact h.call f _

theorem evalAssignment_keeps (h : Calm G p q E) (line : Nat) (lhs rhs : Expr) :
    Keeps G (Kept p q) (evalAssignment E line lhs rhs) :=
  .bind (h.toMval _) fun _ => .bind (h.toRef _) fun _ => final_keeps line _

theorem objToVal_keeps (h : Calm G p q E) (a : Nat) (o : Obj) :
    Keeps G (Kept p q) (objToVal n E a o) := by
  cases o with
  | list els st => exact listToMval_keeps h.toMval n _ els
  | dict tab st => exact dictToMval_keeps h.toMval n _ tab
  | cow c o =>
    dsimp only [objToVal]
    split
    · exact .pure none
    · exact h.toVal _
  | lambda => exact .map (close_keeps _)
  | compiled => exact .pure _
  | cowTab => exact .stuck

theorem evalToVal_keeps (h : Calm G p q E) (x : Ptr) : Keeps G (Kept p q) (evalToVal H n E x) := by
  cases x with
  | node x =>
    cases x with
    | constant | regex => exact .pure _
    | or | and | not | eq | relation => exact .bind (evalLogical_keeps h _) fun _ => .pure _
    | binaryop line o₁ o₂ op =>
      exact .bind (h.toVal _) fun _ => .bind (h.toVal _) fun _ => final_keeps line _
    | dictref line d key => exact .bind (h.toVal _) fun _ => final_keeps line _
    | vecref line v i =>
      exact .bind (h.toVal _) fun _ => .bind (h.toVal _) fun _ => final_keeps line _
    | varref line nm => exact varrefToVal_keeps line nm
    | scopedVarref line nm sc => exact scopedToVal_keeps sc nm
    | list => exact listToMval_keeps h.toMval n _ _
    | dict => exact dictToMval_keeps h.toMval n _ _
    | shellStr line els => exact .bind (shellStr_keeps h els) fun _ => .pure _
    | assignment line lhs rhs =>
      exact .bind (evalAssignment_keeps h line lhs rhs) fun _ => mem_keeps _
    | call line fn arglist => exact evalCall_keeps h line fn arglist
    | lambda => exact .map (close_keeps _)
    | heredoc => exact .bind (.note _) fun _ => .pure none
  | obj a => exact .bind (mem_keeps _) fun o => objToVal_keeps h a o

theorem evalToRef_keeps (h : Calm G p q E) (x : Ptr) : Keeps G (Kept p q) (evalToRef H n E x) := by
  cases x with
  | node x =>
    cases x with
    | dictref line d key => exact .bind (h.toRef _) fun _ => final_keeps line _
    | vecref line v i =>
      exact .bind (h.toRef _) fun _ => .bind (h.toVal _) fun _ => final_keeps line _
    | varref line nm => exact .map (.lift (lookupRef_steps nm))
    | scopedVarref line nm sc => exact scopedToRef_keeps sc nm
    | assignment line lhs rhs => exact evalAssignment_keeps h line lhs rhs
    | call line fn arglist => exact .bind (evalCall_keeps h line fn arglist) fun _ => mem_keeps _
    | lambda => exact .bind (close_keeps _) fun _ => .pure _
    | heredoc => exact .bind (.note _) fun _ => .pure none
    | _ => exact .bind (evalToVal_keeps h _) fun _ => mem_keeps _
  | obj a => exact .bind (evalToVal_keeps h _) fun _ => mem_keeps _

theorem evalToMval_keeps (h : Calm G p q E) (x : Ptr) :
    Keeps G (Kept p q) (evalToMval H n E x) := by
  cases x with
  | node x =>
    cases x with
    | list | dict => exact evalToVal_keeps h _
    | dictref | vecref | varref | scopedVarref =>
      exact .bind (evalToRef_keeps h _) fun _ => mem_keeps _
    | _ => exact .bind (evalToVal_keeps h _) fun _ => mem_keeps _
  | obj a =>
    refine .bind (mem_keeps _) fun o => ?_
    cases o with
    | list els st => exact listToMval_keeps h.toMval n _ els
    | dict tab st => exact dictToMval_keeps h.toMval n _ tab
    | _ => exact .bind (evalToVal_keeps h _) fun _ => mem_keeps _

theorem checkArgs_keeps (l : Lambda) (as : Nat) : Keeps G (Kept p q) (l.checkArgs H as) :=
  .ite (fun _ => .pure _) fun _ => .bind (outputErr_keeps _ _) fun _ => .pure _

theorem vEval1_keeps (hH : H.Tidy) (hM : p → H.Modest) (f : Compiled)
    {call : Callable → List Ptr → Eval (Option Ptr)} (xs : List (Option Ptr))
    (h : ∀ g as, Keeps G (Kept p q) (call g as)) :
    Keeps G (Kept (p ∧ f.imports = false) q) (H.vEval1 f call xs) := by
  by_cases hp : p ∧ f.imports = false
  · exact ((hM hp.1).vEval1 G p q f call xs hp.2 h).imp fun _ _ hk => hk.weaken And.left id
  · exact (hH.vEval1 G p q f call xs h).imp fun _ _ hk => hk.weaken hp id

theorem evalFn_keeps (hH : H.Tidy) (hG : Clean H G p q) (h : Calm G p q E) (f : Callable)
    (args : List Ptr) : Keeps G (Kept p q) (evalFn H E f args) := by
  cases f with
  | lambda l closure =>
    exact .bind (checkArgs_keeps l _) fun _ => .ite
      (fun _ => .bind (bindArgs_keeps h.toRef _ _ _) fun t => callBody_keeps h.anyZone l closure t)
      fun _ => .pure _
  | compiled f =>
    dsimp only [evalFn]
    cases f.kind with
    | plain safeArgs =>
      exact .bind (evalArgs_keeps h.toMval safeArgs args) fun xs =>
        callLib_keeps (fun hp => hG.libraries hp f) (vEval1_keeps hH hG.modest f xs h.call)
    | blocking =>
      exact .bind (.note _) fun _ => .bind (evalArgs_keeps h.toMval true args) fun _ => .pure _
    | isnull =>
      match args with
      | [a] => exact .bind (evalAsNull_keeps h a) fun _ => .pure _
      | [] | _ :: _ :: _ => exact .bind (outputErr_keeps _ _) fun _ => .pure _
    | default =>
      match args with
      | [a] =>
        exact .bind (evalAsNull_keeps h a) fun _ => .ite (fun _ => .pure _) fun _ => h.toVal a
      | [a, b] =>
        exact .bind (evalAsNull_keeps h a) fun _ => .bind (h.toVal b) fun d =>
          .ite (fun _ => .pure d) fun _ => h.toVal a
      | [] | _ :: _ :: _ :: _ => exact .bind (outputErr_keeps _ _) fun _ => .pure _

theorem nullWarn_keeps (dowarn : Bool) (line : Nat) :
    Keeps G (Kept p q) (nullWarn dowarn line) :=
  .when dowarn (reportError_keeps line _)

theorem publishInline_keeps (h : Calm G p q E) (line : Nat) (x : Expr) :
    Keeps G (Kept p q) (publishZone H n E (.inlineExpr line x)) :=
  .bind get_keeps fun _ => loud_keeps _ (evalAsStr_keeps h x) fun t =>
    outputOr_keeps t (nullWarn_keeps _ line)

theorem publishZone_keeps (h : Calm G p q E) (z : Zone) :
    Keeps G (Kept (p ∧ z.declares = false) False) (publishZone H n E z) := by
  cases z with
  | raw | text | wssBoundary => exact .bind (output_keeps _) fun _ => .pure _
  | html line children =>
    exact publishAll_keeps (fun z hz => (h.zone z).imp fun _ _ hk =>
      hk.weaken (fun hp => ⟨hp.1, declares_of_zones hp.2 hz⟩) id) _
  | inlineExpr line x =>
    exact (publishInline_keeps h line x).imp fun _ _ hk => hk.weaken And.left False.elim
  | pub line statements =>
    exact publishAll_keeps (fun s hs => (h.statement s).imp fun _ _ hk =>
      hk.weaken (fun hp => ⟨hp.1, declares_of_statements hp.2 hs⟩) id) _

theorem publishZone_jumping (h : Calm G p q E) (z : Zone) {s : State}
    (hs : s.control.jumps = true) :
    Ensures G (publishZone H n E z) s fun _ t => Kept p q s t := by
  cases z with
  | raw | text | wssBoundary =>
    exact Keeps.bind (T := Kept p q) (output_keeps _) (fun _ => .pure _) s
  | html line children => exact publishAll_jumping _ children _ hs
  | inlineExpr line x => exact publishInline_keeps h line x s
  | pub line statements => exact publishAll_jumping _ statements _ hs

theorem whileTurn_loops (h : Calm G p q E) (cond : Expr) (body : Option Zone) :
    Keeps G (Looped p q) (whileTurn E cond body) := by
  intro s
  refine .bind (.lift fun b s₁ h₁ => ?_)
  cases h₁
  refine .ite (fun _ => .bind (.noteIf fun _ => ?_))
    fun _ => .pure ⟨.ofControl rfl, fun _ => ⟨rfl, rfl⟩⟩
  refine .bind ((evalAsBool_keeps h cond _).imp fun go t ht => ?_)
  have hs : Kept p False s t := (ht.weaken id False.elim).afterControl rfl
  refine .ite (fun _ => ?_) fun _ => .pure ⟨hs, ht.ended ⟨rfl, rfl⟩⟩
  refine .bind ((whileBody_keeps (p := p) h.anyZone body t).imp fun _ u hu => ?_)
  exact (h.whileLoop cond body u).imp fun _ v hv => .trans (hs.trans hu) hv

theorem forTurn_loops (h : Calm G p q E) (f : ForLoop) (i : Nat) (status : Status) :
    Keeps G (Looped p q) (forTurn E f i status) := by
  intro s
  refine .bind (.lift fun b s₁ h₁ => ?_)
  cases h₁
  refine .ite (fun _ => .bind (.noteIf fun _ => ?_))
    fun _ => .pure ⟨.ofControl rfl, fun _ => ⟨rfl, rfl⟩⟩
  refine .bind ((mem_keeps (p := p) (q := q) _ _).imp fun els t ht => ?_)
  have hs : Kept p False s t := (ht.weaken id False.elim).afterControl rfl
  refine .ite (fun _ => ?_) fun _ => .pure ⟨hs, ht.ended ⟨rfl, rfl⟩⟩
  refine .bind ((rowValue_keeps h.toRef _ t).imp fun rev u hu => ?_)
  have hs : Kept p False s u := hs.trans (hu.weaken id False.elim)
  cases rev with
  | none =>
    refine .bind ((reportError_keeps (p := p) (q := False) _ _ u).imp fun _ v hv => ?_)
    exact (h.forLoop f _ _ v).imp fun _ w hw => .trans (hs.trans hv) hw
  | some x =>
    cases f.body with
    | none => exact (h.forLoop f _ _ u).imp fun _ w hw => .trans hs hw
    | some z =>
      exact (row_loops h.anyZone (fun _ => h.forLoop f _ _) z _ _ x _ _ u).imp fun _ w hw =>
        .trans hs hw

theorem evalList_keeps (h : Calm G p q E) (arr : Expr) : Keeps G (Kept p q) (evalList E arr) := by
  intro s
  refine .bind (.lift fun old s₁ h₁ => ?_)
  cases h₁
  refine .bind ((h.toRef _ _).imp fun m t ht => ?_)
  refine .bind ((mem_keeps (p := p) (q := q) _ _).imp fun x u hu => ?_)
  refine .bind ((mem_keeps (p := p) (q := q) _ _).imp fun l v hv => ?_)
  refine .bind (.lift fun _ w hw => .pure ?_)
  cases hw
  exact ((ht.trans hu).trans hv).unsilent

theorem findCase_keeps (h : Calm G p q E) (key : Expr)
    (cases : List (Option Constant × Option Zone)) :
    Keeps G (Kept p q) (findCase H n E key cases) := by
  refine .bind (evalKey_keeps h key) fun k => ?_
  cases lookupCase H cases k with
  | none => exact .bind (.note _) fun _ => .bind (outputErr_keeps _ _) fun _ => .pure none
  | some z => exact .pure (some z)

theorem findCase_declares (key : Expr) (cases : List (Option Constant × Option Zone)) :
    (findCase H n E key cases).Returns fun z =>
      casesDeclare cases = false → zoneDeclares z = false := by
  refine .last fun k => ?_
  have hlook (h : casesDeclare cases = false) := lookupCase_declares H h k
  cases hz : lookupCase H cases k with
  | none => exact .last fun _ => .last fun _ => .pure fun _ => rfl
  | some z =>
    rw [hz] at hlook
    exact .pure hlook

theorem printArgs_keeps (h : Calm G p q E) (args : List Expr) :
    Keeps G (Kept p q) (printArgs H n E args) := by
  induction args with
  | nil => exact .pure ()
  | cons x xs ih =>
    exact .bind (evalAsStr_keeps h x) fun t => .bind (outputOr_keeps t (.pure ())) fun _ => ih

theorem publishWhile_loops (h : Calm G p q E) (line : Nat) (cond : Expr) (body : Option Zone) :
    Keeps G (Looped p q) (publishStatement H n E (.while line cond body)) := by
  intro s
  refine .bind (.lift fun _ t ht => ?_)
  have ht : Kept p False s t := resetForloop_steps _ _ _ ht
  exact .bind ((h.whileLoop cond body t).imp fun _ u hu => .pure (.trans ht hu))

theorem rows_keeps (h : Calm G p q E) (line : Nat) (iter : Str) (body : Option Zone) (l : Nat) :
    Keeps G (Kept p False) (do
      let locals ← mem (Mem.alloc (.dict [] none))
      act resetForloop
      E.forLoop ⟨line, iter, body, l, locals⟩ 0 .ok) :=
  .bind (mem_keeps _) fun _ => .bind (.lift resetForloop_steps) fun _ =>
    (h.forLoop _ _ _).imp fun _ _ hl => hl.kept

theorem publishFor_keeps (hG : Clean H G p q) (h : Calm G p q E) (line : Nat) (iter : Str)
    (arr : Expr) (body empty : Option Zone) :
    Keeps G (Kept p False) (publishStatement H n E (.for line iter arr body empty)) := by
  refine .bind ((evalList_keeps h arr).imp fun _ _ hk => hk.weaken id False.elim) fun v =>
    .bind (mem_keeps _) fun l => ?_
  rcases l with _ | ⟨l, _ | k⟩ <;> cases empty
  · exact .bind (reportError_keeps line _) fun _ => .pure _
  · exact emptyZone_keeps h.zone hG _
  · exact .pure _
  · exact emptyZone_keeps h.zone hG _
  all_goals exact rows_keeps h line iter body l

theorem setFlag_keeps (f : Control → Control) (hf : ∀ c, (f c).depth = c.depth) :
    Keeps G (Kept p False) (act (modify fun s => { s with control := f s.control } : Act Unit)) :=
  .lift (.modify fun _ => .ofControl (hf _))

theorem someZone_keeps (h : Calm G p q E) (D : Bool) {z : Option Zone} {m : Eval Status}
    {k : Zone → Eval Status} (hm : Keeps G (Kept (p ∧ D = false) False) m)
    (hk : ∀ z, Keeps G (Kept (p ∧ D = false) False) (E.zone z) →
      Keeps G (Kept (p ∧ D = false) False) (k z))
    (hz : D = false → zoneDeclares z = false) :
    Keeps G (Kept (p ∧ D = false) False) (match z with | none => m | some z => k z) := by
  cases z with
  | none => exact hm
  | some z =>
    exact hk z ((h.zone z).imp fun _ _ hw => hw.weaken (fun hp => ⟨hp.1, hz hp.2⟩) id)

theorem declBlock_calm (h : Calm G p q E) (typ : DeclType) (bs : List (Str × Option Expr)) :
    Keeps G (Kept (p ∧ (typ != .globals) = false) False) (declBlock E.toMval typ bs) := by
  have weak {p' : Prop} (hp : p' → p) (x : Ptr) : Keeps G (Kept p' False) (E.toMval x) :=
    (h.toMval x).imp fun _ _ hk => hk.weaken hp False.elim
  cases typ with
  | globals => exact declBlock_globals (weak And.left) bs
  | universals | locals =>
    exact (declBlock_keeps (weak False.elim) _ bs).imp fun _ _ hk =>
      hk.weaken (fun hp => Bool.noConfusion hp.2) id

theorem publishStatement_keeps (hG : Clean H G p q) (h : Calm G p q E) (s : Statement) :
    Keeps G (Kept (p ∧ s.declares = false) False) (publishStatement H n E s) := by
  have weak {α : Type} {m : Eval α} {q : Prop} (hm : Keeps G (Kept p q) m) :
      Keeps G (Kept (p ∧ s.declares = false) False) m :=
    hm.imp fun _ _ hk => hk.weaken And.left False.elim
  cases s with
  | zone line z =>
    cases z with
    | none => exact .stuck
    | some z => exact h.zone z
  | expr line x => exact .bind (weak (h.toRef _)) fun _ => .pure _
  | «while» line cond body =>
    exact weak ((publishWhile_loops h line cond body).imp fun _ _ hl => hl.kept)
  | «for» line iter arr body empty => exact weak (publishFor_keeps hG h line iter arr body empty)
  | «if» line clauses =>
    exact .bindReturns (weak (findClause_keeps (evalAsBool_keeps h) clauses))
      (findClause_declares clauses) fun z => someZone_keeps h _ (.pure _) fun _ hz => hz
  | decl line typ bindings => exact declBlock_calm h typ bindings
  | switch line key cases =>
    exact .bindReturns (weak (findCase_keeps h key cases)) (findCase_declares key cases)
      fun z => someZone_keeps h _ (.pure _) fun _ hz => .bind hz fun _ => .pure _
  | «include» line load file =>
    exact .bind (.note _) fun _ => .bind (weak (evalKey_keeps h file)) fun _ =>
      .bind (weak (reportError_keeps (q := q) line _)) fun _ => .pure _
  | print line args => exact .bind (weak (printArgs_keeps h args)) fun _ => .pure _
  | fndef =>
    exact .bind (close_keeps _) fun _ => .bind get_keeps fun _ =>
      .bind (.lift (insertTab_steps _ _ _)) fun _ => .pure _
  | «break» =>
    exact .bind (setFlag_keeps (fun c => { c with brk := true }) fun _ => rfl) fun _ => .pure _
  | exit =>
    exact .bind (setFlag_keeps (fun c => { c with exit := true }) fun _ => rfl) fun _ => .pure _
  | «continue» =>
    exact .bind (setFlag_keeps (fun c => { c with cont := true }) fun _ => rfl) fun _ => .pure _
  | «return» line val =>
    exact .bind (weak (returnValue_keeps h.toVal val)) fun x =>
      .bind (setFlag_keeps (fun c => { c with rtrn := some (x.getD .null) }) fun _ => rfl)
        fun _ => .pure _

end Nonblock

open Nonblock in
theorem Calm.eval {H : Host} {n : Nat} {G : Step → Prop} {p q : Prop} {E : Evals} (hH : H.Tidy)
    (hG : Clean H G p q) (h : Calm G p q E) : Calm G p q (Nonblock.step H n E) where
  toVal := evalToVal_keeps h
  toRef := evalToRef_keeps h
  toMval := evalToMval_keeps h
  call := evalFn_keeps hH hG h
  zone := publishZone_keeps h
  jumping z _ hs := publishZone_jumping h z hs
  statement := publishStatement_keeps hG h
  whileLoop := whileTurn_loops h
  forLoop := forTurn_loops h

end Okws.Pub3

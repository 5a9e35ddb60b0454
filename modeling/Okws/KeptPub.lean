import Okws.KeptEval

namespace Okws.Pub3

open Zbuf Lib

variable {H : Host} {n : Nat} {G : Step → Prop} {p q : Prop} {E A : Evals}

namespace Block

theorem pubAsStr_keeps (h : Calm G p q A) (x : Expr) : Keeps G (Kept p q) (pubAsStr H n A x) := by
  refine .bind (h.toVal _) fun v => ?_
  cases v with
  | none => exact .pure none
  | some v => exact .bind (.note _) fun _ => writtenStr_keeps H n _ v

theorem pubLogical_eq (x : Expr) : pubLogical H n A x = Nonblock.evalLogical H n A x := by
  cases x <;> rfl

theorem pubLogicalIf_keeps (hE : Calm G p q E) (h : Calm G p q A) (x : Expr) :
    Keeps G (Kept p q) (pubLogicalIf H n E A x) := by
  unfold pubLogicalIf
  split
  · rw [pubLogical_eq]
    exact Nonblock.evalLogical_keeps h x
  · exact Nonblock.evalLogical_keeps hE x

theorem shellStr_keeps (h : Calm G p q A) (els : List Expr) :
    Keeps G (Kept p q) (shellStr H n A els) := by
  induction els with
  | nil => exact .pure []
  | cons x xs ih =>
    exact .bind (h.toVal _) fun v => .bind (insertOpt_keeps H n _ v) fun s => .bind ih fun t =>
      .pure _

theorem pubCall_keeps (hE : Calm G p q E) (h : Calm G p q A) (line : Nat) (fn : Expr)
    (arglist : List Expr) : Keeps G (Kept p q) (pubCall E A line fn arglist) := by
  have hfn : Keeps G (Kept p q) (pubFnToVal E A fn) := by
    unfold pubFnToVal
    split
    · exact h.toVal _
    · exact hE.toVal _
  refine .bind (.bind (.setReg line) fun _ => .bind hfn fun f => callee_keeps line fn f)
    fun f => ?_
  cases f with
  | none => exact .pure none
  | some f => exact .ite (fun _ => h.call f _) fun _ => hE.call f _

theorem control_of_noJump {s t : State}
    (hs : s.control.jumps = false)
    (ht : (t.control.brk && !s.control.brk || t.control.cont && !s.control.cont ||
      t.control.exit && !s.control.exit || t.control.rtrn.isSome && s.control.rtrn.isNone) =
        false) (hd : t.control.depth = s.control.depth) : t.control = s.control := by
  generalize s.control = c at hs ht hd ⊢
  generalize t.control = c' at ht hd ⊢
  obtain ⟨b, c, e, r, d⟩ := c
  obtain ⟨b', c', e', r', d'⟩ := c'
  cases r <;> cases r' <;> simp_all [Control.jumps]

theorem pubHeredoc_keeps (hG : Clean H G p q) (h : Calm G p q A) (body : Option Zone) :
    Keeps G (Kept p q) (pubHeredoc H A body) := by
  cases body with
  | none => exact .pure _
  | some z =>
    intro s
    refine .bind (.note fun hdeclares => .bind (.lift fun old s' hs => ?_))
    cases hs
    refine .bind (.lift fun _ s₀ h₀ => ?_)
    cases h₀
    -- a flag that is set before stays as it is, and one that is set in the zone is noted
    have hz : Ensures G (A.zone z) { s with out := [], muzzle := false } fun _ t =>
        Kept (p ∧ z.declares = false) False { s with out := [], muzzle := false } t ∧
        (s.control.jumps = true → Kept p q { s with out := [], muzzle := false } t) := by
      intro x r hr hl
      exact ⟨h.zone z _ x r hr hl, fun hj =>
        h.jumping z { s with out := [], muzzle := false } hj x r hr hl⟩
    refine .bind (hz.imp fun xs t ⟨ht, hj⟩ => .bind (.noteIf fun hjump =>
      .bind (.lift fun new t' hnew => ?_)))
    cases hnew
    refine .bind (.lift fun _ u hu => .pure ?_)
    cases hu
    refine ⟨congrArg (fun u : State => { u with muzzle := s.muzzle }) ht.fixed, ht.layers,
      List.prefix_rfl, fun hp => ht.same ⟨hp, hG.zones hp z hdeclares⟩, fun hp => ?_⟩
    cases hs : s.control.jumps with
    | true => exact (hj hs).control hp
    | false =>
      have hdepth := congrArg (fun u : State => u.control.depth) ht.fixed
      change t.control.depth = s.control.depth at hdepth
      refine .inl (control_of_noJump hs (Bool.eq_false_iff.mpr fun hraised => ?_) hdepth)
      exact hG.jumps hp (hjump hraised)

theorem pubToVal_keeps (hG : Clean H G p q) (hE : Calm G p q E) (h : Calm G p q A) (x : Ptr) :
    Keeps G (Kept p q) (pubToVal H n E A x) := by
  cases x with
  | node x =>
    cases x with
    | constant | regex | varref | scopedVarref | lambda => exact Nonblock.evalToVal_keeps hE _
    | or | and | not | eq | relation => exact .bind (pubLogicalIf_keeps hE h _) fun _ => .pure _
    | shellStr line els => exact .bind (shellStr_keeps h els) fun _ => .pure _
    | call line fn arglist => exact pubCall_keeps hE h line fn arglist
    | heredoc line body => exact pubHeredoc_keeps hG h body
    | binaryop line o₁ o₂ op =>
      exact .bind (h.toVal _) fun _ => .bind (h.toVal _) fun _ => final_keeps line _
    | dictref line d key => exact .bind (h.toVal _) fun _ => final_keeps line _
    | vecref line v i =>
      exact .bind (h.toVal _) fun _ => .bind (h.toVal _) fun _ => final_keeps line _
    | list => exact listToMval_keeps h.toMval n _ _
    | dict => exact dictToMval_keeps h.toMval n _ _
    | assignment line lhs rhs =>
      exact .bind (Nonblock.evalAssignment_keeps h line lhs rhs) fun _ => mem_keeps _
  | obj a =>
    refine .bind (mem_keeps _) fun o => ?_
    cases o with
    | list els st => exact listToMval_keeps h.toMval n _ els
    | dict tab st => exact dictToMval_keeps h.toMval n _ tab
    | _ => exact Nonblock.objToVal_keeps hE a _

theorem pubToRef_keeps (hG : Clean H G p q) (hE : Calm G p q E) (h : Calm G p q A) (x : Ptr) :
    Keeps G (Kept p q) (pubToRef H n E A x) := by
  cases x with
  | node x =>
    cases x with
    | varref | scopedVarref => exact Nonblock.evalToRef_keeps hE _
    | dictref line d key => exact .bind (h.toRef _) fun _ => final_keeps line _
    | vecref line v i =>
      exact .bind (h.toRef _) fun _ => .bind (h.toVal _) fun _ => final_keeps line _
    | assignment line lhs rhs => exact Nonblock.evalAssignment_keeps h line lhs rhs
    | call line fn arglist => exact .bind (pubCall_keeps hE h line fn arglist) fun _ => mem_keeps _
    | _ => exact .bind (pubToVal_keeps hG hE h _) fun _ => mem_keeps _
  | obj a => exact .bind (pubToVal_keeps hG hE h _) fun _ => mem_keeps _

theorem pubToMval_keeps (hG : Clean H G p q) (hE : Calm G p q E) (h : Calm G p q A) (x : Ptr) :
    Keeps G (Kept p q) (pubToMval H n E A x) := by
  cases x with
  | node x =>
    cases x with
    | list | dict => exact pubToVal_keeps hG hE h _
    | dictref | vecref | varref | scopedVarref =>
      exact .bind (pubToRef_keeps hG hE h _) fun _ => mem_keeps _
    | _ => exact .bind (pubToVal_keeps hG hE h _) fun _ => mem_keeps _
  | obj a =>
    refine .bind (mem_keeps _) fun o => ?_
    cases o with
    | list els st => exact listToMval_keeps h.toMval n _ els
    | dict tab st => exact dictToMval_keeps h.toMval n _ tab
    | _ => exact .bind (pubToVal_keeps hG hE h _) fun _ => mem_keeps _

theorem vPubToVal2_keeps (hH : H.Tidy) (hM : p → H.Modest) (f : Compiled)
    (xs : List (Option Ptr)) : Keeps G (Kept (p ∧ f.imports = false) q) (H.vPubToVal2 f xs) := by
  by_cases hp : p ∧ f.imports = false
  · exact ((hM hp.1).vPubToVal2 G p q f xs hp.2).imp fun _ _ hk => hk.weaken And.left id
  · exact (hH.vPubToVal2 G q f xs).imp fun _ _ hk => hk.weaken hp id

theorem pubFn_keeps (hH : H.Tidy) (hG : Clean H G p q) (hE : Calm G p q E) (h : Calm G p q A)
    (f : Callable) (args : List Ptr) : Keeps G (Kept p q) (pubFn H E A f args) := by
  cases f with
  | lambda l closure =>
    exact .bind (Nonblock.checkArgs_keeps l _) fun _ => .ite
      (fun _ => .bind (bindArgs_keeps h.toRef _ _ _) fun t => callBody_keeps h.anyZone l closure t)
      fun _ => .pure _
  | compiled f =>
    dsimp only [pubFn]
    cases f.kind with
    | plain safeArgs =>
      exact .bind (evalArgs_keeps h.toMval safeArgs args) fun xs =>
        callLib_keeps (fun hp => hG.libraries hp f)
          (Nonblock.vEval1_keeps hH hG.modest f xs hE.call)
    | blocking =>
      exact .bind (evalArgs_keeps h.toMval true args) fun xs =>
        callLib_keeps (fun hp => hG.libraries hp f) (vPubToVal2_keeps hH hG.modest f xs)
    | isnull =>
      match args with
      | [a] => exact .bind (Nonblock.evalAsNull_keeps h a) fun _ => .pure _
      | [] | _ :: _ :: _ => exact .bind (outputErr_keeps _ _) fun _ => .pure _
    | default =>
      match args with
      | [a] =>
        exact .bind (Nonblock.evalAsNull_keeps h a) fun _ => .ite (fun _ => .pure _)
          fun _ => h.toVal a
      | [a, b] =>
        exact .bind (Nonblock.evalAsNull_keeps h a) fun _ => .bind (h.toVal b) fun d =>
          .ite (fun _ => .pure d) fun _ => h.toVal a
      | [] | _ :: _ :: _ :: _ => exact .bind (outputErr_keeps _ _) fun _ => .pure _

theorem publishInline_keeps (h : Calm G p q A) (line : Nat) (x : Expr) :
    Keeps G (Kept p q) (vPublishZone H n E A (.inlineExpr line x)) :=
  .bind get_keeps fun _ => loud_keeps _ (pubAsStr_keeps h x) fun t =>
    outputOr_keeps t (Nonblock.nullWarn_keeps _ line)

theorem vPublishZone_keeps (hE : Calm G p q E) (h : Calm G p q A) (z : Zone) :
    Keeps G (Kept (p ∧ z.declares = false) False) (vPublishZone H n E A z) := by
  cases z with
  | raw | text | wssBoundary => exact Nonblock.publishZone_keeps (H := H) (n := n) hE _
  | html line children =>
    exact publishAll_keeps (fun z hz => (h.zone z).imp fun _ _ hk =>
      hk.weaken (fun hp => ⟨hp.1, declares_of_zones hp.2 hz⟩) id) _
  | inlineExpr line x =>
    exact (publishInline_keeps h line x).imp fun _ _ hk => hk.weaken And.left False.elim
  | pub line statements =>
    exact publishAll_keeps (fun s hs => (h.statement s).imp fun _ _ hk =>
      hk.weaken (fun hp => ⟨hp.1, declares_of_statements hp.2 hs⟩) id) _

theorem publishZone_keeps (hE : Calm G p q E) (h : Calm G p q A) (z : Zone) :
    Keeps G (Kept (p ∧ z.declares = false) False) (publishZone H n E A z) :=
  .bind (.setReg _) fun _ => .ite (fun _ => vPublishZone_keeps hE h z)
    fun _ => Nonblock.publishZone_keeps hE z

theorem publishZone_jumping (hE : Calm G p q E) (h : Calm G p q A) (z : Zone) {s : State}
    (hs : s.control.jumps = true) :
    Ensures G (publishZone H n E A z) s fun _ t => Kept p q s t := by
  refine .bind (.setReg _ (.ite (fun _ => ?_) fun _ => Nonblock.publishZone_jumping hE z hs))
  cases z with
  | raw | text | wssBoundary => exact Nonblock.publishZone_jumping hE _ hs
  | html line children => exact publishAll_jumping _ children _ hs
  | inlineExpr line x => exact publishInline_keeps h line x s
  | pub line statements => exact publishAll_jumping _ statements _ hs

theorem printArgs_keeps (h : Calm G p q A) (args : List Expr) :
    Keeps G (Kept p q) (printArgs H n A args) := by
  induction args with
  | nil => exact .pure ()
  | cons x xs ih =>
    exact .bind (pubAsStr_keeps h x) fun t => .bind (outputOr_keeps t (.pure ())) fun _ => ih

theorem evaluatedTab_keeps (h : Calm G p q A) (x : Expr) :
    Keeps G (Kept p q) (do match ← A.toVal (.node x) with
      | none => pure none
      | some p => do match ← mem (backingOf p) with
        | none => pure none
        | some o => some <$> mem (Mem.alloc (.cowTab o none)) : Eval (Option Nat)) := by
  refine .bind (h.toVal _) fun v => ?_
  cases v with
  | none => exact .pure none
  | some v =>
    refine .bind (mem_keeps _) fun o => ?_
    cases o with
    | none => exact .pure none
    | some o => exact .map (mem_keeps _)

theorem pubToBindtab_keeps (h : Calm G p q A) (x : Expr) :
    Keeps G (Kept p q) (pubToBindtab n A x) := by
  cases x with
  | dict l bs =>
    exact .bind (mem_keeps _) fun _ => .ite (fun _ => .map (mem_keeps _)) fun _ =>
      .bind (mapTab_keeps h.toMval _) fun _ => .map (mem_keeps _)
  | _ => exact evaluatedTab_keeps h _

theorem publishFile_keeps (hH : H.Tidy) (load : Bool) (fn : Str) (bi : Option Nat) :
    Keeps G (Kept p q) (publishFile H load fn bi) := by
  intro s
  refine .bind (.lift fun old s' h => ?_)
  cases h
  refine .bind (.lift fun _ s₁ h₁ => ?_)
  have hs₁ : s₁ =
      { s with muzzle := s.muzzle || load, control := { depth := s.control.depth + 1 } } := by
    cases h₁
    rfl
  have hpush : Ensures G (act (bi.elim stackSize
      (pushLocals · (if s.opts.strictIncludeScoping then .localsBarrier
        else .localsBarrierWeak)))) s₁ fun size t =>
      size = s₁.stack.length ∧ Kept False False s₁ t := by
    cases bi with
    | none =>
      refine .lift fun size t h => ?_
      cases h
      exact ⟨rfl, .refl _⟩
    | some b =>
      refine .lift fun size t h => ⟨?_, pushLocals_steps _ _ _ _ _ h⟩
      cases h
      rfl
  refine .bind (hpush.imp fun size t ⟨hsize, ht⟩ => ?_)
  refine .bind ((hH.publish G fn t).imp fun rs u hu => .bind (.lift fun _ v hv => .pure ?_))
  have hu := ht.trans hu
  have htake := hu.take_stack
  rw [← hsize] at htake
  subst hs₁
  cases hv
  exact ⟨congrArg (fun u : State => { u with
      muzzle := s.muzzle, control := { depth := s.control.depth } }) hu.fixed,
    by simp only [htake]; exact List.prefix_rfl, hu.out, fun _ => htake, fun _ => .inl rfl⟩

theorem publishNamed_keeps (hH : H.Tidy) (line : Nat) (load : Bool) (dict : Option Expr)
    (fn : Option Str) (bi : Option Nat) : Keeps G (Kept p q) (match fn with
      | none | some [] => do
        reportError line (text "include: cannot evaluate filename")
        pure .ok
      | some f =>
        if dict.isSome && bi.isNone then do
          reportError line (text "include: cannot evalute parameters")
          pure .ok
        else publishFile H load (cstr f) bi) := by
  obtain _ | _ | ⟨c, f⟩ := fn
  · exact .bind (reportError_keeps line _) fun _ => .pure _
  · exact .bind (reportError_keeps line _) fun _ => .pure _
  · exact .ite (fun _ => .bind (reportError_keeps line _) fun _ => .pure _) fun _ =>
      publishFile_keeps hH load _ bi

theorem vPublishInclude_keeps (hH : H.Tidy) (h : Calm G p q A) (line : Nat) (load : Bool)
    (file : Expr) (dict : Option Expr) :
    Keeps G (Kept p q) (vPublishInclude H n A line load file dict) := by
  refine .bind (pubAsStr_keeps h file) fun fn => ?_
  cases dict with
  | none => exact .bind (.pure none) fun bi => publishNamed_keeps hH line load none fn bi
  | some d =>
    exact .bind (pubToBindtab_keeps h d) fun bi => publishNamed_keeps hH line load (some d) fn bi

theorem publishWhile_loops (h : Calm G p q A) (line : Nat) (cond : Expr) (body : Option Zone) :
    Keeps G (Looped p q) (vPublishStatement H n E A (.while line cond body)) :=
  Nonblock.publishWhile_loops (H := H) (n := n) h line cond body

theorem publishFor_keeps (hG : Clean H G p q) (h : Calm G p q A) (line : Nat) (iter : Str)
    (arr : Expr) (body empty : Option Zone) :
    Keeps G (Kept p False) (vPublishStatement H n E A (.for line iter arr body empty)) :=
  Nonblock.publishFor_keeps (H := H) (n := n) hG h line iter arr body empty

theorem vPublishStatement_keeps (hH : H.Tidy) (hG : Clean H G p q) (hE : Calm G p q E)
    (h : Calm G p q A) (s : Statement) :
    Keeps G (Kept (p ∧ s.declares = false) False) (vPublishStatement H n E A s) := by
  have weak {α : Type} {m : Eval α} {q : Prop} (hm : Keeps G (Kept p q) m) :
      Keeps G (Kept (p ∧ s.declares = false) False) m :=
    hm.imp fun _ _ hk => hk.weaken And.left False.elim
  cases s with
  | zone line z =>
    cases z with
    | none => exact .stuck
    | some z => exact h.zone z
  | expr line x => exact .bind (weak (h.toRef _)) fun _ => .pure _
  | «while» line cond body =>
    exact weak ((publishWhile_loops h line cond body).imp fun _ _ hl => hl.kept)
  | «for» line iter arr body empty => exact weak (publishFor_keeps hG h line iter arr body empty)
  | «if» line clauses =>
    exact .bindReturns (weak (findClause_keeps (Nonblock.evalAsBool_keeps h) clauses))
      (findClause_declares clauses) fun z => Nonblock.someZone_keeps h _ (.pure _) fun _ hz => hz
  | decl line typ bindings => exact Nonblock.declBlock_calm h typ bindings
  | switch line key cases =>
    exact .bindReturns (weak (Nonblock.findCase_keeps hE key cases))
      (Nonblock.findCase_declares key cases)
      fun z => Nonblock.someZone_keeps h _ (.pure _) fun _ hz => hz
  | «include» line load file dict => exact weak (vPublishInclude_keeps hH h line load file dict)
  | print line args => exact .bind (weak (printArgs_keeps h args)) fun _ => .pure _
  | «return» line val =>
    exact .bind (weak (returnValue_keeps h.toVal val)) fun x =>
      .bind (Nonblock.setFlag_keeps (fun c => { c with rtrn := some (x.getD .null) }) fun _ => rfl)
        fun _ => .pure _
  | fndef | «break» | exit | «continue» => exact Nonblock.publishStatement_keeps (n := n) hG hE _

theorem publishStatement_keeps (hH : H.Tidy) (hG : Clean H G p q) (hE : Calm G p q E)
    (h : Calm G p q A) (s : Statement) :
    Keeps G (Kept (p ∧ s.declares = false) False) (publishStatement H n E A s) :=
  .bind (.setReg _) fun _ => .ite (fun _ => vPublishStatement_keeps hH hG hE h s)
    fun _ => Nonblock.publishStatement_keeps hG hE s

theorem whileTurn_loops (h : Calm G p q A) (cond : Expr) (body : Option Zone) :
    Keeps G (Looped p q) (whileTurn A cond body) := Nonblock.whileTurn_loops h cond body

end Block

theorem Calm.pub (hH : H.Tidy) (hG : Clean H G p q) (hE : Calm G p q E) (h : Calm G p q A) :
    Calm G p q (Block.step H n E A) where
  toVal := Block.pubToVal_keeps hG hE h
  toRef := Block.pubToRef_keeps hG hE h
  toMval := Block.pubToMval_keeps hG hE h
  call := Block.pubFn_keeps hH hG hE h
  zone := Block.publishZone_keeps hE h
  jumping z _ hs := Block.publishZone_jumping hE h z hs
  statement := Block.publishStatement_keeps hH hG hE h
  whileLoop := Block.whileTurn_loops h
  forLoop := Nonblock.forTurn_loops h

theorem Calm.stuck : Calm G p q .stuck where
  toVal _ := .stuck
  toRef _ := .stuck
  toMval _ := .stuck
  call _ _ := .stuck
  zone _ := .stuck
  jumping _ _ _ := .stuck
  statement _ := .stuck
  whileLoop _ _ := .stuck
  forLoop _ _ _ := .stuck

theorem nonblock_calm (hH : H.Tidy) (hG : Clean H G p q) (n : Nat) : Calm G p q (nonblock H n) := by
  induction n with
  | zero => exact .stuck
  | succ n ih => exact ih.eval hH hG

theorem block_calm (hH : H.Tidy) (hG : Clean H G p q) (n : Nat) : Calm G p q (block H n) := by
  induction n with
  | zero => exact .stuck
  | succ n ih => exact .pub hH hG (nonblock_calm hH hG n) ih

end Okws.Pub3

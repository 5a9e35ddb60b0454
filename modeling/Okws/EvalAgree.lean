import Okws.Eval

namespace Okws.Pub3

open Zbuf Lib

namespace Heap

/-- Values whose text is the same with and without quotes. -/
def plain (h : Heap) (p : Ptr) : Bool := match h.view p with
  | some (.const (.int i)) => !isBig i.toInt
  | some (.const (.uint u)) => !isBig u.toNat
  | some (.const (.str _)) => p.isStr
  | some (.regex _) | some (.lambda _ _) | some (.compiled _) => false
  | _ => true

end Heap

namespace Step

/-- The run has come to an `include`, a heredoc or a function that may wait. -/
def skipped : Step → Bool
  | .skippedInclude | .skippedHeredoc | .skippedBlocking => true
  | _ => false

/-- The two ways do not part at this step: the value that is written has the same text with and
without quotes, the one that is inserted has the same text with and without UTF-8, and errors say
where they belong. -/
def Alike (H : Host) : Step → Prop
  | .shown _ s p => s.heap.plain p = true
  | .inserted n s p => H.toStr s.heap n {} p = H.toStr s.heap n { utf8 := s.opts.utf8Json } p
  | .unlocated => False
  | .skippedInclude | .skippedHeredoc | .skippedBlocking | .strayed | .jumped | .unscoped _
  | .library _ => True

instance (H : Host) : DecidablePred (Alike H)
  | .shown _ s p => inferInstanceAs (Decidable (s.heap.plain p = true))
  | .inserted n s p => inferInstanceAs (Decidable
      (H.toStr s.heap n {} p = H.toStr s.heap n { utf8 := s.opts.utf8Json } p))
  | .unlocated => .isFalse id
  | .skippedInclude | .skippedHeredoc | .skippedBlocking | .strayed | .jumped | .unscoped _
  | .library _ => .isTrue trivial

structure Harmless (H : Host) (e : Step) : Prop where
  reached : e.skipped = false
  alike : e.Alike H

theorem unlocated_harmful {H : Host} : ¬ Harmless H .unlocated := fun h => h.alike

theorem skipped_harmful {H : Host} {e : Step} (he : e.skipped = true) : ¬ Harmless H e := by
  intro h
  rw [h.reached] at he
  cases he

end Step

section Text

variable (H : Host) (n : Nat)

theorem quoteInt_small {i : Int} (hi : isBig i = false) (o : StrOpt) :
    quoteInt o i = decimal i := by
  simp [quoteInt, hi]

theorem toStr_plain {h : Heap} {p : Ptr} (hp : h.plain p = true) (utf8 : Bool) :
    H.toStr h n { utf8 := utf8 } p = H.toStr h n { quoted := !p.isStr, utf8 := utf8 } p := by
  cases n with
  | zero => rfl
  | succ n =>
    unfold Heap.plain at hp
    unfold Prims.toStr
    generalize h.view p = v at hp ⊢
    cases v with
    | none => rfl
    | some v =>
      simp only [Option.bind_some]
      cases v with
      | const c =>
        cases c with
        | int i => simp [Prims.constantToStr, quoteInt_small (by simpa using hp)]
        | uint u => simp [Prims.constantToStr, quoteInt_small (by simpa using hp)]
        | str s => simp [Prims.constantToStr, Prims.quote, show p.isStr = true from hp]
        | _ => rfl
      | regex | lambda | compiled => cases hp
      | _ => rfl

theorem view_isStr {h : Heap} {p : Ptr} (hp : p.isStr = true) :
    ∃ s, h.view p = some (.const (.str s)) := by
  unfold Ptr.isStr at hp
  split at hp
  · exact ⟨_, rfl⟩
  · cases hp

theorem quoteInt_big {i : Int} (hi : isBig i = true) (utf8 : Bool) :
    quoteInt { utf8 := utf8 } i ≠ quoteInt { quoted := true, utf8 := utf8 } i := by
  intro h
  have := congrArg List.length h
  simp [quoteInt, hi] at this
  omega

theorem plain_of_toStr (hesc : ∀ u s, H.jsonEscape u s ≠ s) {h : Heap} {p : Ptr} (utf8 : Bool)
    (hp : H.toStr h (n + 1) { utf8 := utf8 } p =
      H.toStr h (n + 1) { quoted := !p.isStr, utf8 := utf8 } p) :
    h.plain p = true := by
  by_contra hplain
  have hstr : p.isStr = false := by
    apply Bool.eq_false_iff.mpr
    intro hp
    obtain ⟨s, hs⟩ := view_isStr (h := h) hp
    exact hplain (by simp [Heap.plain, hs, hp])
  rw [hstr, Bool.not_false, Prims.toStr, Prims.toStr] at hp
  unfold Heap.plain at hplain
  split at hplain
  case h_1 i hv =>
    simp only [hv, Option.bind_some, Prims.constantToStr, Option.some.injEq] at hp
    exact quoteInt_big (by simpa using hplain) utf8 hp
  case h_2 u hv =>
    simp only [hv, Option.bind_some, Prims.constantToStr, Option.some.injEq] at hp
    exact quoteInt_big (by simpa using hplain) utf8 hp
  case h_3 s hv =>
    simp only [hv, Option.bind_some, Prims.constantToStr, Option.some.injEq] at hp
    exact hesc _ _ hp.symm
  case h_4 b hv =>
    simp only [hv, Option.bind_some, Option.some.injEq] at hp
    exact hesc _ _ hp.symm
  case h_5 l c hv =>
    simp only [hv, Option.bind_some, Option.some.injEq] at hp
    exact hesc _ _ hp.symm
  case h_6 f hv =>
    simp only [hv, Option.bind_some, Option.some.injEq] at hp
    exact hesc _ _ hp.symm
  case h_7 => exact hplain rfl

end Text

section Agree

variable {H : Host} {n : Nat} {G : Step → Prop} {p q : Prop} {E E' : Evals}

/-- The two programs agree along a run of which all steps satisfy `G`. -/
abbrev Agrees (G : Step → Prop) (p q : Prop) {α : Type} (m₁ m₂ : Eval α) : Prop :=
  Lib.Agree G p q m₁ m₂

/-- The lines are the same, or no error is reported at the line in force. -/
def Located (G : Step → Prop) (p : Prop) : Prop := p ∨ ¬ G .unlocated

theorem Located.note (hG : Located G p) {α : Type} (m : Eval α) :
    Agrees G p p (Prog.note (fun _ => .unlocated) >>= fun _ => m)
      (Prog.note (fun _ => .unlocated) >>= fun _ => m) := by
  obtain hp | hbad := hG
  · exact (Lib.Agree.refl _).weaken (fun _ => hp) id
  · exact .note_bad _ fun _ => hbad

theorem reportError_agrees (hG : Located G p) (line : Nat) (msg : Str) :
    Agrees G p p (reportError line msg) (reportError line msg) := by
  unfold reportError
  apply Lib.Agree.ite
  · exact fun _ => hG.note _
  · exact fun _ => .setReg_bind line (.refl _)

theorem final_agrees {α : Type} (hG : Located G p) (line : Nat) (m : Mem (Except Str (Option α))) :
    Agrees G p p (final line m) (final line m) := by
  refine .bind (.lift _) fun r => ?_
  cases r with
  | ok x => exact .pure x
  | error msg => exact .bind (reportError_agrees hG line msg) fun _ => .pure none

theorem relationReport_agrees (hG : Located G p) (line : Nat) (op : RelOp) (x y : Option Ptr) :
    Agrees G p p (relationReport H n line op x y) (relationReport H n line op x y) :=
  .bind (.lift _) fun b => .bind (.when b.2 (reportError_agrees hG line _)) fun _ => .pure b.1

theorem varrefToVal_agrees (hG : Located G p) (line : Nat) (nm : Str) :
    Agrees G p p (varrefToVal line nm) (varrefToVal line nm) :=
  .bind (.lift _) fun x => .bind (.lift _) fun _ =>
    .bind (.when _ (reportError_agrees hG line _)) fun _ => .pure x

theorem callee_agrees (hG : Located G p) (line : Nat) (fn : Expr) (f : Option Ptr) :
    Agrees G p p (callee line fn f) (callee line fn f) := by
  cases f with
  | none => exact .bind (reportError_agrees hG line _) fun _ => .pure none
  | some f =>
    refine .bind (.lift _) fun v => ?_
    cases v.toCallable with
    | none => exact .bind (reportError_agrees hG line _) fun _ => .pure none
    | some c => exact .pure (some c)

section Lists

variable {f g : Ptr → Eval (Option Ptr)}

theorem mapEls_agrees (h : ∀ x, Agrees G p p (f x) (g x)) (els : List (Option Ptr)) :
    Agrees G p p (mapEls f els) (mapEls g els) := by
  induction els with
  | nil => exact .pure []
  | cons x xs ih =>
    cases x with
    | none => exact .bind ih fun ys => .pure _
    | some x => exact .bind (h x) fun y => .bind ih fun ys => .pure _

theorem mapTab_agrees (h : ∀ x, Agrees G p p (f x) (g x)) (tab : Tab) :
    Agrees G p p (mapTab f tab) (mapTab g tab) := by
  induction tab with
  | nil => exact .pure []
  | cons b bs ih =>
    obtain ⟨k, x⟩ := b
    cases x with
    | none => exact ih
    | some x => exact .bind (h x) fun y => .bind ih fun cs => .pure _

theorem listToMval_agrees (h : ∀ x, Agrees G p p (f x) (g x)) (x : Ptr)
    (els : List (Option Ptr)) :
    Agrees G p p (listToMval n f x els) (listToMval n g x els) :=
  .bind (.lift _) fun _ => .ite (fun _ => .lift _) fun _ =>
    .bind (mapEls_agrees h els) fun _ => .lift _

theorem dictToMval_agrees (h : ∀ x, Agrees G p p (f x) (g x)) (x : Ptr) (tab : Tab) :
    Agrees G p p (dictToMval n f x tab) (dictToMval n g x tab) :=
  .bind (.lift _) fun _ => .ite (fun _ => .lift _) fun _ =>
    .bind (mapTab_agrees h tab) fun _ => .lift _

theorem evalArgs_agrees (h : ∀ x, Agrees G p p (f x) (g x)) (safeArgs : Bool) (as : List Ptr) :
    Agrees G p p (evalArgs safeArgs f as) (evalArgs safeArgs g as) := by
  induction as with
  | nil => exact .pure []
  | cons a as ih => exact .bind (h a) fun x => .bind ih fun xs => .pure _

theorem bindArgs_agrees {f g : Ptr → Eval (Option Ref)} (h : ∀ x, Agrees G p p (f x) (g x))
    (as : List Ptr) (nms : List Str) (t : Tab) :
    Agrees G p p (bindArgs f as nms t) (bindArgs g as nms t) := by
  induction as generalizing nms t with
  | nil => exact .pure t
  | cons a as ih =>
    cases nms with
    | nil => exact .pure t
    | cons nm nms => exact .bind (h a) fun r => .bind (.lift _) fun x => ih nms _

theorem declare_agrees (h : ∀ x, Agrees G p p (f x) (g x)) (frame : Nat) (locals : Bool)
    (bs : List (Str × Option Expr)) :
    Agrees G p p (declare f frame locals bs) (declare g frame locals bs) := by
  induction bs with
  | nil => exact .pure ()
  | cons b bs ih =>
    obtain ⟨nm, x⟩ := b
    cases x with
    | none => exact .bind (.when locals (.lift _)) fun _ => ih
    | some x => exact .bind (h _) fun y => .bind (.lift _) fun _ => ih

theorem declBlock_agrees (h : ∀ x, Agrees G p p (f x) (g x)) (typ : DeclType)
    (bs : List (Str × Option Expr)) :
    Agrees G p p (declBlock f typ bs) (declBlock g typ bs) :=
  .ite (fun _ => .bind (.lift _) fun _ => .pure _) fun _ =>
    .bind (.lift _) fun frame => .bind (declare_agrees h frame _ bs) fun _ =>
      .bind (.lift _) fun _ => .pure _

theorem findClause_agrees {f g : Expr → Eval Bool} (h : ∀ x, Agrees G p p (f x) (g x))
    (cs : List (Option Expr × Option Zone)) :
    Agrees G p p (findClause f cs) (findClause g cs) := by
  induction cs with
  | nil => exact .pure none
  | cons c cs ih =>
    obtain ⟨x, z⟩ := c
    cases x with
    | none => exact .pure z
    | some x => exact .bind (h x) fun b => .ite (fun _ => .pure z) fun _ => ih

theorem publishAll_agrees {α : Type} {f g : α → Eval Status}
    (h : ∀ x, Agrees G p p (f x) (g x)) (zs : List α) (ret : Status) :
    Agrees G p p (publishAll f zs ret) (publishAll g zs ret) := by
  induction zs generalizing ret with
  | nil => exact .pure ret
  | cons z zs ih =>
    exact .bind (.lift _) fun b => .ite (fun _ => .bind (h z) fun tmp => ih _) fun _ => .pure ret

theorem whileBody_agrees {f g : Zone → Eval Status} (h : ∀ x, Agrees G p p (f x) (g x))
    (body : Option Zone) : Agrees G p p (whileBody f body) (whileBody g body) := by
  cases body with
  | none => exact .pure ()
  | some z => exact .bind (.lift _) fun size => .bind (h z) fun _ => .lift _

theorem emptyZone_agrees {f g : Zone → Eval Status} (h : ∀ x, Agrees G p p (f x) (g x))
    (z : Zone) : Agrees G p p (emptyZone f z) (emptyZone g z) :=
  .bind (.note _) fun _ => h z

end Lists

/-- Evaluators whose expressions agree, with registers that are the same if `p`; from a call on
they are the same in any case. -/
structure Near (G : Step → Prop) (p : Prop) (E E' : Evals) : Prop where
  located : Located G p
  toVal : ∀ x, Agrees G p p (E.toVal x) (E'.toVal x)
  toRef : ∀ x, Agrees G p p (E.toRef x) (E'.toRef x)
  toMval : ∀ x, Agrees G p p (E.toMval x) (E'.toMval x)
  toVal_call : ∀ x, Agrees G True True (E.toVal x) (E'.toVal x)
  call : ∀ f as, Agrees G True True (E.call f as) (E'.call f as)

namespace Nonblock

theorem evalAsBool_agrees (h : Near G p E E') (x : Expr) :
    Agrees G p p (evalAsBool E x) (evalAsBool E' x) :=
  .bind (.lift _) fun _ => .bind (h.toVal _) fun _ => .bind (.lift _) fun _ => .lift _

theorem evalAsNull_agrees (h : Near G p E E') (x : Ptr) :
    Agrees G p p (evalAsNull E x) (evalAsNull E' x) :=
  .bind (.lift _) fun _ => .bind (h.toVal _) fun _ => .bind (.lift _) fun _ => .lift _

theorem evalKey_agrees (h : Near G p E E') (x : Expr) :
    Agrees G p p (evalKey H n E x) (evalKey H n E' x) := by
  refine .bind (h.toVal _) fun v => ?_
  cases v with
  | none => exact .pure none
  | some v => exact .lift _

theorem evalAsStr_agrees (h : Near G p E E') (x : Expr) :
    Agrees G p p (evalAsStr H n E x) (evalAsStr H n E' x) := by
  refine .bind (h.toVal _) fun v => ?_
  cases v with
  | none => exact .pure none
  | some v => exact .note_lift _ fun _ _ => rfl

theorem evalLogical_agrees (h : Near G p E E') (x : Expr) :
    Agrees G p p (evalLogical H n E x) (evalLogical H n E' x) := by
  cases x with
  | or l t₁ t₂ =>
    exact .bind (evalAsBool_agrees h t₁) fun _ => .ite (fun _ => .pure _) fun _ =>
      evalAsBool_agrees h t₂
  | and l f₁ f₂ =>
    exact .bind (evalAsBool_agrees h f₁) fun _ =>
      .ite (fun _ => evalAsBool_agrees h f₂) fun _ => .pure _
  | not l e => exact .bind (evalAsBool_agrees h e) fun _ => .pure _
  | eq l o₁ o₂ pos => exact .bind (h.toVal _) fun _ => .bind (h.toVal _) fun _ => .lift _
  | relation l x y op =>
    exact .bind (h.toVal _) fun _ => .bind (h.toVal _) fun _ =>
      relationReport_agrees h.located l op _ _
  | _ => exact .stuck

theorem shellStr_agrees (h : Near G p E E') (els : List Expr) :
    Agrees G p p (shellStr H n E els) (shellStr H n E' els) := by
  induction els with
  | nil => exact .pure []
  | cons x xs ih =>
    refine .bind (h.toVal _) fun v => .bind ?_ fun s => .bind ih fun t => .pure _
    cases v with
    | none => exact .pure none
    | some v => exact .note_lift _ fun _ _ => rfl

theorem evalPrepare_agrees (h : Near G p E E') (line : Nat) (fn : Expr) :
    Agrees G p True (evalPrepare E line fn) (evalPrepare E' line fn) :=
  .setReg_bind line (.bind (h.toVal_call _) fun f => callee_agrees (.inl trivial) line fn f)

theorem evalCall_agrees (h : Near G p E E') (line : Nat) (fn : Expr) (arglist : List Expr) :
    Agrees G p p (evalCall E line fn arglist) (evalCall E' line fn arglist) := by
  refine .bind (evalPrepare_agrees h line fn) fun f => ?_
  cases f with
  | none => exact .refl _
  | some f => exact (h.call f _).weaken id fun _ => trivial

theorem evalAssignment_agrees (h : Near G p E E') (line : Nat) (lhs rhs : Expr) :
    Agrees G p p (evalAssignment E line lhs rhs) (evalAssignment E' line lhs rhs) :=
  .bind (h.toMval _) fun _ => .bind (h.toRef _) fun _ => final_agrees h.located line _

theorem objToVal_agrees (h : Near G p E E') (a : Nat) (o : Obj) :
    Agrees G p p (objToVal n E a o) (objToVal n E' a o) := by
  cases o with
  | list els st => exact listToMval_agrees h.toMval _ els
  | dict tab st => exact dictToMval_agrees h.toMval _ tab
  | cow c o =>
    dsimp only [objToVal]
    split
    · exact .pure none
    · exact h.toVal _
  | lambda => exact .map (.lift _)
  | compiled => exact .pure _
  | cowTab => exact .stuck

theorem evalToVal_agrees (h : Near G p E E') (x : Ptr) :
    Agrees G p p (evalToVal H n E x) (evalToVal H n E' x) := by
  cases x with
  | node x =>
    cases x with
    | constant | regex => exact .pure _
    | or | and | not | eq | relation => exact .bind (evalLogical_agrees h _) fun _ => .pure _
    | binaryop line o₁ o₂ op =>
      exact .bind (h.toVal _) fun _ => .bind (h.toVal _) fun _ => final_agrees h.located line _
    | dictref line d key => exact .bind (h.toVal _) fun _ => final_agrees h.located line _
    | vecref line v i =>
      exact .bind (h.toVal _) fun _ => .bind (h.toVal _) fun _ => final_agrees h.located line _
    | varref line nm => exact varrefToVal_agrees h.located line nm
    | scopedVarref => exact .lift _
    | list => exact listToMval_agrees h.toMval _ _
    | dict => exact dictToMval_agrees h.toMval _ _
    | shellStr line els => exact .bind (shellStr_agrees h els) fun _ => .pure _
    | assignment line lhs rhs =>
      exact .bind (evalAssignment_agrees h line lhs rhs) fun _ => .lift _
    | call line fn arglist => exact evalCall_agrees h line fn arglist
    | lambda => exact .map (.lift _)
    | heredoc => exact .bind (.note _) fun _ => .pure none
  | obj a => exact .bind (.lift _) fun o => objToVal_agrees h a o

theorem evalToRef_agrees (h : Near G p E E') (x : Ptr) :
    Agrees G p p (evalToRef H n E x) (evalToRef H n E' x) := by
  cases x with
  | node x =>
    cases x with
    | dictref line d key => exact .bind (h.toRef _) fun _ => final_agrees h.located line _
    | vecref line v i =>
      exact .bind (h.toRef _) fun _ => .bind (h.toVal _) fun _ => final_agrees h.located line _
    | varref => exact .map (.lift _)
    | scopedVarref line nm sc =>
      show Agrees G p p (scopedToRef sc nm) (scopedToRef sc nm)
      unfold scopedToRef
      exact .lift _
    | assignment line lhs rhs => exact evalAssignment_agrees h line lhs rhs
    | call line fn arglist => exact .bind (evalCall_agrees h line fn arglist) fun _ => .lift _
    | lambda => exact .bind (.lift _) fun _ => .pure _
    | heredoc => exact .bind (.note _) fun _ => .pure none
    | _ => exact .bind (evalToVal_agrees h _) fun _ => .lift _
  | obj a => exact .bind (evalToVal_agrees h _) fun _ => .lift _

theorem evalToMval_agrees (h : Near G p E E') (x : Ptr) :
    Agrees G p p (evalToMval H n E x) (evalToMval H n E' x) := by
  cases x with
  | node x =>
    cases x with
    | list | dict => exact evalToVal_agrees h _
    | dictref | vecref | varref | scopedVarref =>
      exact .bind (evalToRef_agrees h _) fun _ => .lift _
    | _ => exact .bind (evalToVal_agrees h _) fun _ => .lift _
  | obj a =>
    refine .bind (.lift _) fun o => ?_
    cases o with
    | list els st => exact listToMval_agrees h.toMval _ els
    | dict tab st => exact dictToMval_agrees h.toMval _ tab
    | _ => exact .bind (evalToVal_agrees h _) fun _ => .lift _

end Nonblock

/-- Evaluators whose pages agree, whatever the registers are. -/
structure Pages (G : Step → Prop) (E E' : Evals) : Prop where
  zone : ∀ z, Agrees G False False (E.zone z) (E'.zone z)
  statement : ∀ s, Agrees G False False (E.statement s) (E'.statement s)
  whileLoop : ∀ c b, Agrees G False False (E.whileLoop c b) (E'.whileLoop c b)
  forLoop : ∀ f i st, Agrees G False False (E.forLoop f i st) (E'.forLoop f i st)

section Pages

variable {f g : Zone → Eval Status}

theorem outputOr_agrees {m₁ m₂ : Eval Unit} (t : Option Str) (h : Agrees G p p m₁ m₂) :
    Agrees G p p (outputOr t m₁) (outputOr t m₂) := by
  cases t with
  | none => exact h
  | some t => exact .lift _

theorem rowValue_agrees {f g : Ptr → Eval (Option Ref)} (h : ∀ x, Agrees G p p (f x) (g x))
    (x : Option Ptr) : Agrees G p p (rowValue f x) (rowValue g x) := by
  cases x with
  | none => exact .pure none
  | some x => exact .bind (h x) fun _ => .lift _

theorem returnValue_agrees {f g : Ptr → Eval (Option Ptr)} (h : ∀ x, Agrees G p p (f x) (g x))
    (x : Option Expr) : Agrees G p p (returnValue f x) (returnValue g x) := by
  cases x with
  | none => exact .pure none
  | some x => exact h _

end Pages

namespace Nonblock

theorem printArgs_agrees (h : Near G p E E') (args : List Expr) :
    Agrees G p p (printArgs H n E args) (printArgs H n E' args) := by
  induction args with
  | nil => exact .pure ()
  | cons x xs ih =>
    exact .bind (evalAsStr_agrees h x) fun t => .bind (outputOr_agrees t (.pure ())) fun _ => ih

theorem evalList_agrees (h : Near G p E E') (arr : Expr) :
    Agrees G p p (evalList E arr) (evalList E' arr) :=
  .bind (.lift _) fun _ => .bind (h.toRef _) fun _ => .bind (.lift _) fun _ =>
    .bind (.lift _) fun l => .bind (.lift _) fun _ => .pure l

theorem findCase_agrees (h : Near G p E E') (key : Expr)
    (cases : List (Option Constant × Option Zone)) :
    Agrees G p p (findCase H n E key cases) (findCase H n E' key cases) := by
  refine .bind (evalKey_agrees h key) fun k => ?_
  cases lookupCase H cases k with
  | none => exact h.located.note _
  | some z => exact .pure (some z)

theorem nullWarn_agrees (hG : Located G p) (dowarn : Bool) (line : Nat) :
    Agrees G p p (nullWarn dowarn line) (nullWarn dowarn line) :=
  .when dowarn (reportError_agrees hG line _)

theorem publishZone_agrees (h : Near G False E E') (hp : Pages G E E') (z : Zone) :
    Agrees G False False (publishZone H n E z) (publishZone H n E' z) := by
  cases z with
  | raw | text | wssBoundary => exact .bind (.lift _) fun _ => .pure _
  | html line children => exact publishAll_agrees hp.zone children _
  | inlineExpr line x =>
    exact .bind (.lift _) fun _ => .bind (.lift _) fun _ => .bind (evalAsStr_agrees h x) fun t =>
      .bind (outputOr_agrees t (nullWarn_agrees h.located _ line)) fun _ =>
        .bind (.when _ (.lift _)) fun _ => .pure _
  | pub line statements => exact publishAll_agrees hp.statement statements _

theorem whileTurn_agrees (h : Near G False E E') (hp : Pages G E E') (cond : Expr)
    (body : Option Zone) : Agrees G False False (whileTurn E cond body) (whileTurn E' cond body) :=
  .bind (.lift _) fun _ => .ite
    (fun _ => .bind (.noteIf _ _) fun _ => .bind (evalAsBool_agrees h cond) fun _ => .ite
      (fun _ => .bind (whileBody_agrees hp.zone body) fun _ => hp.whileLoop cond body)
      fun _ => .pure ())
    fun _ => .pure ()

theorem forTurn_agrees (h : Near G False E E') (hp : Pages G E E') (f : ForLoop) (i : Nat)
    (status : Status) : Agrees G False False (forTurn E f i status) (forTurn E' f i status) := by
  refine .bind (.lift _) fun _ => .ite (fun _ => .bind (.noteIf _ _) fun _ =>
    .bind (.lift _) fun els => .ite (fun _ => ?_) fun _ => .pure status) fun _ => .pure status
  refine .bind (rowValue_agrees h.toRef _) fun rev => ?_
  cases rev with
  | none => exact .bind (reportError_agrees h.located _ _) fun _ => hp.forLoop _ _ _
  | some x =>
    cases f.body with
    | none => exact hp.forLoop _ _ _
    | some z =>
      exact .bind (.lift _) fun _ => .bind (.lift _) fun _ => .bind (hp.zone z) fun _ =>
        .bind (.lift _) fun _ => .bind (.lift _) fun _ => hp.forLoop _ _ _

theorem publishFor_agrees (h : Near G False E E') (hp : Pages G E E') (line : Nat) (iter : Str)
    (arr : Expr) (body empty : Option Zone) :
    Agrees G False False (publishStatement H n E (.for line iter arr body empty))
      (publishStatement H n E' (.for line iter arr body empty)) := by
  refine .bind (evalList_agrees h arr) fun v => .bind (.lift _) fun l => ?_
  rcases l with _ | ⟨l, _ | k⟩ <;> cases empty
  · exact .bind (reportError_agrees h.located line _) fun _ => .pure _
  · exact emptyZone_agrees hp.zone _
  · exact .pure _
  · exact emptyZone_agrees hp.zone _
  all_goals exact .bind (.lift _) fun _ => .bind (.lift _) fun _ => hp.forLoop _ _ _

theorem publishStatement_agrees (h : Near G False E E') (hp : Pages G E E') (s : Statement) :
    Agrees G False False (publishStatement H n E s) (publishStatement H n E' s) := by
  cases s with
  | zone line z =>
    cases z with
    | none => exact .stuck
    | some z => exact hp.zone z
  | expr line x => exact .bind (h.toRef _) fun _ => .pure _
  | «while» line cond body =>
    exact .bind (.lift _) fun _ => .bind (hp.whileLoop cond body) fun _ => .pure _
  | «for» line iter arr body empty => exact publishFor_agrees h hp line iter arr body empty
  | «if» line clauses =>
    refine .bind (findClause_agrees (evalAsBool_agrees h) clauses) fun z => ?_
    cases z with
    | none => exact .pure _
    | some z => exact hp.zone z
  | decl line typ bindings => exact declBlock_agrees h.toMval typ bindings
  | switch line key cases =>
    refine .bind (findCase_agrees h key cases) fun z => ?_
    cases z with
    | none => exact .pure _
    | some z => exact .bind (hp.zone z) fun _ => .pure _
  | «include» line load file =>
    exact .bind (.note _) fun _ => .bind (evalKey_agrees h file) fun _ =>
      .bind (reportError_agrees h.located line _) fun _ => .pure _
  | print line args => exact .bind (printArgs_agrees h args) fun _ => .pure _
  | fndef =>
    exact .bind (.lift _) fun _ => .bind (.lift _) fun _ => .bind (.lift _) fun _ => .pure _
  | «break» | exit | «continue» => exact .bind (.lift _) fun _ => .pure _
  | «return» line val =>
    exact .bind (returnValue_agrees h.toVal val) fun _ => .bind (.lift _) fun _ => .pure _

end Nonblock

structure Fine (E : Evals) : Prop where
  zone : ∀ z, (E.zone z).Returns (· = .ok)
  statement : ∀ s, (E.statement s).Returns (· = .ok)
  forLoop : ∀ f i, (E.forLoop f i .ok).Returns (· = .ok)

namespace Nonblock

theorem publishAll_fine {α : Type} {f : α → Eval Status} (h : ∀ x, (f x).Returns (· = .ok))
    (zs : List α) : (publishAll f zs .ok).Returns (· = .ok) := by
  induction zs with
  | nil => exact .pure rfl
  | cons z zs ih =>
    refine .last fun b => .ite (.bind (h z) ?_) (.pure rfl)
    rintro _ rfl
    exact ih

theorem emptyZone_fine {f : Zone → Eval Status} (h : ∀ x, (f x).Returns (· = .ok)) (z : Zone) :
    (emptyZone f z).Returns (· = .ok) :=
  .last fun _ => h z

theorem publishZone_fine (h : Fine E) (z : Zone) :
    (publishZone H n E z).Returns (· = .ok) := by
  cases z with
  | html line children => exact publishAll_fine h.zone children
  | pub line statements => exact publishAll_fine h.statement statements
  | inlineExpr =>
    exact .last fun _ => .last fun _ => .last fun _ => .last fun _ => .last fun _ => .pure rfl
  | _ => exact .last fun _ => .pure rfl

theorem forTurn_fine (h : Fine E) (f : ForLoop) (i : Nat) :
    (forTurn E f i .ok).Returns (· = .ok) := by
  refine .last fun _ => .ite (.last fun _ => .last fun els => .ite (.last fun rev => ?_)
    (.pure rfl)) (.pure rfl)
  cases rev with
  | none => exact .last fun _ => h.forLoop f _
  | some x =>
    cases f.body with
    | none => exact h.forLoop f _
    | some z =>
      refine .last fun _ => .last fun _ => .bind (h.zone z) ?_
      rintro _ rfl
      exact .last fun _ => .last fun _ => h.forLoop f _

theorem publishStatement_fine (h : Fine E) (s : Statement) :
    (publishStatement H n E s).Returns (· = .ok) := by
  cases s with
  | zone line z =>
    cases z with
    | none => exact .stuck
    | some z => exact h.zone z
  | «for» line iter arr body empty =>
    refine .last fun v => .last fun l => ?_
    rcases l with _ | ⟨l, _ | k⟩ <;> cases empty
    · exact .last fun _ => .pure rfl
    · exact emptyZone_fine h.zone _
    · exact .pure rfl
    · exact emptyZone_fine h.zone _
    all_goals exact .last fun _ => .last fun _ => h.forLoop _ _
  | «if» line clauses =>
    refine .last fun z => ?_
    cases z with
    | none => exact .pure rfl
    | some z => exact h.zone z
  | decl line typ bindings =>
    exact .ite (.last fun _ => .pure rfl)
      (.last fun _ => .last fun _ => .last fun _ => .pure rfl)
  | switch line key cases =>
    refine .last fun z => ?_
    cases z with
    | none => exact .pure rfl
    | some z => exact .last fun _ => .pure rfl
  | «include» => exact .last fun _ => .last fun _ => .last fun _ => .pure rfl
  | fndef => exact .last fun _ => .last fun _ => .last fun _ => .pure rfl
  | «while» | «return» => exact .last fun _ => .last fun _ => .pure rfl
  | expr | print | «break» | exit | «continue» => exact .last fun _ => .pure rfl

end Nonblock

end Agree

end Okws.Pub3

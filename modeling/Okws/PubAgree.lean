import Mathlib
import Okws.EvalAgree
import Okws.Pub

namespace Okws.Pub3

open Zbuf Lib

variable {H : Host} {n : Nat} {p : Prop} {E A : Evals}

namespace Block

theorem refToCopy_lambda {h : Heap} {a : Nat} {l : Lambda} {md : Str} {ls : List Layer}
    (ha : h[a]? = some (.lambda l md ls)) :
    refToCopy (some (.obj a)) h = some (some (.const (some (.obj a))), h) := by
  simp [refToCopy, copyOpt, copy, Mem.load, ha, Bind.bind, StateT.bind, Functor.map, StateT.map,
    Pure.pure, StateT.pure]

theorem close_copy (l : Lambda) :
    (do let p ← act (close l); pure (some (.const (some p))) : Eval (Option Ref)) =
      (do let v ← some <$> act (close l); mem (refToCopy v)) := by
  funext x s
  let o := Obj.lambda l s.md (captureClosure s.stack.reverse [])
  have ha : (s.heap ++ [o])[s.heap.length]? = some o := by simp
  have hv : (some <$> act (close l) : Eval (Option Ptr)) x s =
      ⟨some (some (.obj s.heap.length), x, { s with heap := s.heap ++ [o] }), []⟩ := rfl
  rw [Prog.bind_some _ hv]
  simp only [mem, Prog.lift, onHeap, refToCopy_lambda ha]
  rfl

theorem pubAsStr_agrees (h : ∀ x, Agrees (Step.Harmless H) p p (E.toVal x) (A.toVal x)) (x : Expr) :
    Agrees (Step.Harmless H) p p (Nonblock.evalAsStr H n E x) (pubAsStr H n A x) := by
  refine .bind (h _) fun v => ?_
  cases v with
  | none => exact .pure none
  | some v =>
    refine .note_lift _ fun s hs => ?_
    rw [writtenStr, writtenStr, toStr_plain H n hs.alike]

theorem pubLogicalIf_agrees (h : Near (Step.Harmless H) True E A) (x : Expr) :
    Agrees (Step.Harmless H) True True (Nonblock.evalLogical H n E x) (pubLogicalIf H n E A x) := by
  unfold pubLogicalIf
  split
  · cases x <;> exact Nonblock.evalLogical_agrees h _
  · exact .refl _

theorem shellStr_agrees (h : Near (Step.Harmless H) True E A) (els : List Expr) :
    Agrees (Step.Harmless H) True True (Nonblock.shellStr H n E els) (shellStr H n A els) := by
  induction els with
  | nil => exact .pure []
  | cons x xs ih =>
    refine .bind (h.toVal _) fun v => .bind ?_ fun s => .bind ih fun t => .pure _
    cases v with
    | none => exact .pure none
    | some v =>
      refine .note_lift _ fun s hs => ?_
      rw [insertedStr, insertedStr, Bool.false_and, Bool.true_and]
      exact congrArg _ hs.alike

theorem pubCall_agrees (h : Near (Step.Harmless H) True E A) (line : Nat) (fn : Expr)
    (arglist : List Expr) :
    Agrees (Step.Harmless H) True True (Nonblock.evalCall E line fn arglist)
      (pubCall E A line fn arglist) := by
  have hfn : Agrees (Step.Harmless H) True True (E.toVal (.node fn)) (pubFnToVal E A fn) := by
    unfold pubFnToVal
    split
    · exact h.toVal _
    · exact .refl _
  refine .bind (.setReg_bind line
    (.bind hfn fun f => callee_agrees (.inl trivial) line fn f)) fun f => ?_
  cases f with
  | none => exact .pure none
  | some f =>
    dsimp only
    split
    · exact h.call f _
    · exact .refl _

theorem pubToVal_agrees (h : Near (Step.Harmless H) True E A) (x : Ptr) :
    Agrees (Step.Harmless H) True True (Nonblock.evalToVal H n E x) (pubToVal H n E A x) := by
  cases x with
  | node x =>
    cases x with
    | constant | regex | varref | scopedVarref | lambda => exact .refl _
    | or | and | not | eq | relation => exact .bind (pubLogicalIf_agrees h _) fun _ => .pure _
    | shellStr line els => exact .bind (shellStr_agrees h els) fun _ => .pure _
    | call line fn arglist => exact pubCall_agrees h line fn arglist
    | heredoc => exact .note_bad _ fun _ => Step.skipped_harmful rfl
    | binaryop | dictref | vecref | list | dict | assignment =>
      exact Nonblock.evalToVal_agrees h _
  | obj a =>
    refine .bind (.lift _) fun o => ?_
    cases o with
    | list | dict => exact Nonblock.objToVal_agrees h a _
    | _ => exact .refl _

theorem pubToRef_agrees (h : Near (Step.Harmless H) True E A) (x : Ptr) :
    Agrees (Step.Harmless H) True True (Nonblock.evalToRef H n E x) (pubToRef H n E A x) := by
  cases x with
  | node x =>
    cases x with
    | varref | scopedVarref => exact .refl _
    | dictref | vecref | assignment => exact Nonblock.evalToRef_agrees h _
    | call line fn arglist => exact .bind (pubCall_agrees h line fn arglist) fun _ => .lift _
    | lambda => exact .of_eq (close_copy _)
    | heredoc => exact .note_bad _ fun _ => Step.skipped_harmful rfl
    | _ => exact .bind (pubToVal_agrees h _) fun _ => .lift _
  | obj a => exact .bind (pubToVal_agrees h _) fun _ => .lift _

theorem pubToMval_agrees (h : Near (Step.Harmless H) True E A) (x : Ptr) :
    Agrees (Step.Harmless H) True True (Nonblock.evalToMval H n E x) (pubToMval H n E A x) := by
  cases x with
  | node x =>
    cases x with
    | list | dict => exact pubToVal_agrees h _
    | dictref | vecref | varref | scopedVarref =>
      exact .bind (pubToRef_agrees h _) fun _ => .lift _
    | _ => exact .bind (pubToVal_agrees h _) fun _ => .lift _
  | obj a =>
    refine .bind (.lift _) fun o => ?_
    cases o with
    | list els st => exact listToMval_agrees h.toMval _ els
    | dict tab st => exact dictToMval_agrees h.toMval _ tab
    | _ => exact .bind (pubToVal_agrees h _) fun _ => .lift _

theorem popLambdaCall_agrees (st : LambdaState) :
    Agrees (Step.Harmless H) False True (popLambdaCall st) (popLambdaCall st) :=
  .bind (.noteIf _ _) fun _ => .bind (.lift _) fun _ => .bind (.setReg _) fun _ => .pure _

theorem pubLambda_agrees (h : Near (Step.Harmless H) True E A) (hp : Pages (Step.Harmless H) E A)
    (l : Lambda) (closure : Option (Str × List Layer)) (args : List Ptr) :
    Agrees (Step.Harmless H) True True (Nonblock.evalFn H E (.lambda l closure) args)
      (pubFn H E A (.lambda l closure) args) := by
  refine .bind (.refl _) fun b => .ite (fun _ => ?_) fun _ => .pure _
  refine .bind (bindArgs_agrees h.toRef _ _ _) fun t => .bind (.refl _) fun st =>
    .ite (fun _ => ?_) fun _ => .refl _
  cases l.body with
  | none => exact .stuck
  | some z =>
    exact .bind ((hp.zone z).weaken False.elim id) fun _ =>
      .bind (popLambdaCall_agrees st) fun _ => .pure _

theorem pubFn_agrees (h : Near (Step.Harmless H) True E A) (hp : Pages (Step.Harmless H) E A)
    (f : Callable) (args : List Ptr) :
    Agrees (Step.Harmless H) True True (Nonblock.evalFn H E f args) (pubFn H E A f args) := by
  cases f with
  | lambda l closure => exact pubLambda_agrees h hp l closure args
  | compiled f =>
    dsimp only [Nonblock.evalFn, pubFn]
    cases f.kind with
    | plain safeArgs => exact .bind (evalArgs_agrees h.toMval safeArgs args) fun _ => .refl _
    | blocking => exact .note_bad _ fun _ => Step.skipped_harmful rfl
    | isnull =>
      match args with
      | [a] => exact .bind (Nonblock.evalAsNull_agrees h a) fun _ => .pure _
      | [] | _ :: _ :: _ => exact .refl _
    | default =>
      match args with
      | [a] =>
        exact .bind (Nonblock.evalAsNull_agrees h a) fun _ => .ite (fun _ => .pure _) fun _ =>
          h.toVal a
      | [a, b] =>
        exact .bind (Nonblock.evalAsNull_agrees h a) fun _ => .bind (h.toVal b) fun d =>
          .ite (fun _ => .pure d) fun _ => h.toVal a
      | [] | _ :: _ :: _ :: _ => exact .refl _

structure Both (H : Host) (E A : Evals) : Prop where
  same : Near (Step.Harmless H) False E E
  pages : Pages (Step.Harmless H) E E
  fine : Fine E
  near : Near (Step.Harmless H) True E A
  cross : Pages (Step.Harmless H) E A

theorem Both.far (h : Both H E A) : Near (Step.Harmless H) False E A where
  located := h.same.located
  toVal x := (h.same.toVal x).comp (h.near.toVal x)
  toRef x := (h.same.toRef x).comp (h.near.toRef x)
  toMval x := (h.same.toMval x).comp (h.near.toMval x)
  toVal_call := h.near.toVal
  call := h.near.call

theorem vPublishZone_agrees (h : Both H E A) (z : Zone) :
    Agrees (Step.Harmless H) False False (Nonblock.publishZone H n E z)
      (vPublishZone H n E A z) := by
  cases z with
  | raw | text | wssBoundary => exact Nonblock.publishZone_agrees h.same h.pages _
  | html | pub => exact Nonblock.publishZone_agrees h.far h.cross _
  | inlineExpr line x =>
    exact .bind (.lift _) fun _ => .bind (.lift _) fun _ =>
      .bind (pubAsStr_agrees h.far.toVal x) fun t =>
        .bind (outputOr_agrees t (Nonblock.nullWarn_agrees h.same.located _ line)) fun _ =>
          .bind (.when _ (.lift _)) fun _ => .pure _

theorem publishZone_agrees (h : Both H E A) (z : Zone) :
    Agrees (Step.Harmless H) False False (Nonblock.publishZone H n E z)
      (publishZone H n E A z) := by
  refine .setReg_right _ ?_
  split
  · exact vPublishZone_agrees h z
  · exact Nonblock.publishZone_agrees h.same h.pages z

theorem printArgs_agrees (h : Both H E A) (args : List Expr) :
    Agrees (Step.Harmless H) False False (Nonblock.printArgs H n E args)
      (printArgs H n A args) := by
  induction args with
  | nil => exact .pure ()
  | cons x xs ih =>
    exact .bind (pubAsStr_agrees h.far.toVal x) fun t =>
      .bind (outputOr_agrees t (.pure ())) fun _ => ih

theorem vPublishStatement_agrees (h : Both H E A) (s : Statement) :
    Agrees (Step.Harmless H) False False (Nonblock.publishStatement H n E s)
      (vPublishStatement H n E A s) := by
  cases s with
  | zone line z => cases z <;> exact Nonblock.publishStatement_agrees h.far h.cross _
  | switch line key cases =>
    refine .bind (Nonblock.findCase_agrees h.same key cases) fun z => ?_
    cases z with
    | none => exact .pure _
    -- here the one drops the status and the other returns it
    | some z => exact .drop (h.fine.zone z) (h.cross.zone z)
  | «include» => exact .note_bad _ fun _ => Step.skipped_harmful rfl
  | print line args => exact .bind (printArgs_agrees h args) fun _ => .pure _
  | fndef | «break» | exit | «continue» =>
    exact Nonblock.publishStatement_agrees h.same h.pages _
  | _ => exact Nonblock.publishStatement_agrees h.far h.cross _

theorem publishStatement_agrees (h : Both H E A) (s : Statement) :
    Agrees (Step.Harmless H) False False (Nonblock.publishStatement H n E s)
      (publishStatement H n E A s) := by
  refine .setReg_right _ ?_
  split
  · exact vPublishStatement_agrees h s
  · exact Nonblock.publishStatement_agrees h.same h.pages s

theorem Both.step (h : Both H E A) : Both H (Nonblock.step H n E) (step H n E A) where
  same := {
    located := h.same.located
    toVal := Nonblock.evalToVal_agrees h.same
    toRef := Nonblock.evalToRef_agrees h.same
    toMval := Nonblock.evalToMval_agrees h.same
    toVal_call _ := .refl _
    call _ _ := .refl _ }
  pages := {
    zone := Nonblock.publishZone_agrees h.same h.pages
    statement := Nonblock.publishStatement_agrees h.same h.pages
    whileLoop := Nonblock.whileTurn_agrees h.same h.pages
    forLoop := Nonblock.forTurn_agrees h.same h.pages }
  fine := {
    zone := Nonblock.publishZone_fine h.fine
    statement := Nonblock.publishStatement_fine h.fine
    forLoop := Nonblock.forTurn_fine h.fine }
  near := {
    located := h.near.located
    toVal := pubToVal_agrees h.near
    toRef := pubToRef_agrees h.near
    toMval := pubToMval_agrees h.near
    toVal_call := pubToVal_agrees h.near
    call := pubFn_agrees h.near h.cross }
  cross := {
    zone := publishZone_agrees h
    statement := publishStatement_agrees h
    whileLoop := Nonblock.whileTurn_agrees h.far h.cross
    forLoop := Nonblock.forTurn_agrees h.far h.cross }

theorem both (H : Host) (n : Nat) : Both H (nonblock H n) (block H n) := by
  induction n with
  | zero =>
    have hnear (p : Prop) : Near (Step.Harmless H) p .stuck .stuck :=
      ⟨.inr Step.unlocated_harmful, fun _ => .stuck, fun _ => .stuck, fun _ => .stuck,
        fun _ => .stuck, fun _ _ => .stuck⟩
    have hpages : Pages (Step.Harmless H) .stuck .stuck :=
      ⟨fun _ => .stuck, fun _ => .stuck, fun _ _ => .stuck, fun _ _ _ => .stuck⟩
    exact ⟨hnear False, hpages, ⟨fun _ => .stuck, fun _ => .stuck, fun _ _ => .stuck⟩,
      hnear True, hpages⟩
  | succ n ih => exact ih.step

end Block

/-- What is asked of a node: the value of an expression, a reference, a value to be changed, its
text or its truth; or that a zone or a statement be published. -/
inductive Task
  | toVal (x : Expr)
  | toRef (x : Expr)
  | toMval (x : Expr)
  | asStr (x : Expr)
  | asBool (x : Expr)
  | zone (z : Zone)
  | statement (s : Statement)

inductive Answer
  | val (x : Option Ptr)
  | ref (r : Option Ref)
  | str (t : Option Str)
  | bool (b : Bool)
  | status (st : Status)

namespace Task

variable (H : Host) (n : Nat)

/-- `eval_to_val` and its kin, and `v_publish_nonblock`. -/
def eval : Task → Eval Answer
  | toVal x => .val <$> Nonblock.evalToVal H n (nonblock H n) (.node x)
  | toRef x => .ref <$> Nonblock.evalToRef H n (nonblock H n) (.node x)
  | toMval x => .val <$> Nonblock.evalToMval H n (nonblock H n) (.node x)
  | asStr x => .str <$> Nonblock.evalAsStr H n (nonblock H n) x
  | asBool x => .bool <$> Nonblock.evalAsBool (nonblock H n) x
  | zone z => .status <$> Nonblock.publishZone H n (nonblock H n) z
  | statement s => .status <$> Nonblock.publishStatement H n (nonblock H n) s

/-- `pub_to_val` and its kin, and `v_publish`. -/
def pub : Task → Eval Answer
  | toVal x => .val <$> Block.pubToVal H n (nonblock H n) (block H n) (.node x)
  | toRef x => .ref <$> Block.pubToRef H n (nonblock H n) (block H n) (.node x)
  | toMval x => .val <$> Block.pubToMval H n (nonblock H n) (block H n) (.node x)
  | asStr x => .str <$> Block.pubAsStr H n (block H n) x
  | asBool x => .bool <$> Block.pubAsBool (block H n) x
  | zone z => .status <$> Block.vPublishZone H n (nonblock H n) (block H n) z
  | statement s => .status <$> Block.vPublishStatement H n (nonblock H n) (block H n) s

theorem pub_agrees (t : Task) : Agrees (Step.Harmless H) True False (t.eval H n) (t.pub H n) := by
  have h := Block.both H n
  cases t with
  | toVal x => exact .map ((Block.pubToVal_agrees h.near _).weaken id False.elim)
  | toRef x => exact .map ((Block.pubToRef_agrees h.near _).weaken id False.elim)
  | toMval x => exact .map ((Block.pubToMval_agrees h.near _).weaken id False.elim)
  | asStr x => exact .map ((Block.pubAsStr_agrees h.near.toVal x).weaken id False.elim)
  | asBool x => exact .map ((Nonblock.evalAsBool_agrees h.near x).weaken id False.elim)
  | zone z => exact .map ((Block.vPublishZone_agrees h z).weaken False.elim id)
  | statement s => exact .map ((Block.vPublishStatement_agrees h s).weaken False.elim id)

end Task

/-- What is left of a run: the answer and the state, with the environment, the flags and the
output, but without the line in force. -/
def seen {α : Type} (r : Run Nat State Step α) : Option (α × State) :=
  r.out.map fun (a, _, s) => (a, s)

theorem seen_alike {α : Type} {q : Prop} {r₁ r₂ : Run Nat State Step α}
    (h : r₁.Alike q r₂) : seen r₁ = seen r₂ := by
  cases h <;> rfl

/-- The two ways come to the same along every run whose steps are all alike. -/
theorem pub_eq_eval_of_alike (H : Host) (n : Nat) (t : Task) (line : Nat) (s : State)
    (hreached : ∀ e ∈ (t.eval H n line s).log, e.skipped = false)
    (halike : ∀ e ∈ (t.eval H n line s).log, e.Alike H) :
    seen (t.pub H n line s) = seen (t.eval H n line s) :=
  (seen_alike (t.pub_agrees H n line line s (fun _ => rfl) fun e he =>
    ⟨hreached e he, halike e he⟩)).symm

/-- A host without libraries and files, which knows of texts only. -/
def Host.plain : Host where
  jsonEscape _ s := 34 :: s ++ [34]
  doubleToStr _ := []
  doubleToInt _ := 0
  locationToStr _ := []
  Scalar := Option Str
  ofInt i := some (decimal i.toInt)
  ofUint u := some (decimal u.toNat)
  ofDouble _ := none
  ofStr s := s
  isNull s := s.isNone
  isInf _ := false
  toInt64 s := s.bind Scalar.myConvertint
  toConstant s := s.elim .null .str
  math _ _ _ := none
  eq s t := s == t
  relation _ _ _ := false
  vEval1 _ _ _ := pure none
  vPubToVal2 _ _ := pure none
  publish _ := pure .ok
  toStrbuf _ _ := []

/-- A function that returns `n`. -/
def returnN : Lambda where
  line := 1
  name := ascii ['f']
  params := []
  optParams := []
  body := some (.pub 1 [.return 1 (some (.varref 1 (ascii ['n'])))])

/-- An environment in which `n` is a number and `f` returns it. -/
def State.withNumber (i : Int64) : State where
  heap :=
    [.dict [] none,
      .dict [(ascii ['n'], some (.const (.int i))), (ascii ['f'], some (.obj 2))] none,
      .lambda returnN (ascii ['p']) []]
  universals := 0
  globals := 1
  stack := [⟨some 0, .universals⟩, ⟨some 1, .globals⟩]
  globalFrames := 1
  md := ascii ['p']

/-- A page that shows what `f` returns.  The call is marked as one that may wait. -/
def showF : Task :=
  .zone (.html 1
    [.text 1 (ascii ['n', '=']), .inlineExpr 1 (.call 1 (.varref 1 (ascii ['f'])) [] true)])

theorem pub_eq_eval_small :
    (∀ e ∈ (showF.eval .plain 8 1 (.withNumber 42)).log, e.skipped = false) ∧
    (∀ e ∈ (showF.eval .plain 8 1 (.withNumber 42)).log, e.Alike .plain) ∧
    seen (showF.pub .plain 8 1 (.withNumber 42)) = seen (showF.eval .plain 8 1 (.withNumber 42)) ∧
    (seen (showF.eval .plain 8 1 (.withNumber 42))).map (·.2.out) =
      some [.text (ascii ['n', '=']), .str (ascii ['4', '2'])] := by
  have hreached : ∀ e ∈ (showF.eval .plain 8 1 (.withNumber 42)).log, e.skipped = false := by
    decide +kernel
  have halike : ∀ e ∈ (showF.eval .plain 8 1 (.withNumber 42)).log, e.Alike .plain := by
    decide +kernel
  exact ⟨hreached, halike, pub_eq_eval_of_alike .plain 8 showF 1 _ hreached halike,
    by decide +kernel⟩

/-- A number of 61 bits is written in quotes if the page is published with waits, and without
otherwise. -/
theorem pub_ne_eval_big :
    (∀ e ∈ (showF.eval .plain 8 1 (.withNumber 1152921504606846976)).log, e.skipped = false) ∧
    seen (showF.pub .plain 8 1 (.withNumber 1152921504606846976)) ≠
      seen (showF.eval .plain 8 1 (.withNumber 1152921504606846976)) := by
  refine ⟨by decide +kernel, fun h => ?_⟩
  have h := congrArg (Option.map (·.2.out)) h
  revert h
  decide +kernel

end Okws.Pub3

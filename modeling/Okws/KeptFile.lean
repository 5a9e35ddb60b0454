import Okws.KeptPub
import Okws.PubAgree

namespace Okws.Pub3

open Zbuf Lib

section Files

variable {H : Host} {G : Step → Prop} {p q : Prop} {A : Evals}

theorem outputErrs_keeps (typ : ErrType) (es : List Str) :
    Keeps G (Kept p q) (outputErrs typ es) := by
  induction es with
  | nil => exact .pure ()
  | cons e es ih => exact .bind (outputErr_keeps e typ) fun _ => ih

/-- The error that asks for the end of a file is forgotten with the file. -/
structure Filed (p : Prop) (s t : State) : Prop where
  kept : Kept p False s t
  exit : s.opts.exitOnError = false → s.control.exit = false → t.control.exit = false

namespace Filed

variable {s t u : State}

theorem refl (s : State) : Filed p s s := ⟨.refl s, fun _ h => h⟩

theorem trans (h : Filed p s t) (h' : Filed p t u) : Filed p s u where
  kept := h.kept.trans h'.kept
  exit ho he := by
    have hopts : t.fixed.opts = s.fixed.opts := congrArg State.opts h.kept.fixed
    change t.opts = s.opts at hopts
    exact h'.exit (by rw [hopts, ho]) (h.exit ho he)

instance : Std.Refl (Filed p) := ⟨refl⟩

instance : IsTrans State (Filed p) := ⟨fun _ _ _ => trans⟩

theorem ofKept (h : Kept p True s t) : Filed p s t where
  kept := h.weaken id False.elim
  exit ho he := by
    obtain hc | ⟨ho', _⟩ := h.control trivial
    · rw [hc, he]
    · rw [ho] at ho'
      cases ho'

end Filed

theorem outputErr_files (msg : Str) (typ : ErrType) :
    Keeps G (Filed p) (outputErr msg typ) :=
  (outputErr_keeps msg typ).imp fun _ _ => .ofKept

theorem outputErrs_files (typ : ErrType) (es : List Str) :
    Keeps G (Filed p) (outputErrs typ es) :=
  (outputErrs_keeps typ es).imp fun _ _ => .ofKept

theorem publishData_files (h : ∀ z, Keeps G (Kept False False) (A.zone z)) (md : Metadata)
    (z : Zone) : Keeps G (Filed p) (publishData A md z) := by
  intro s
  refine .bind (.getReg fun line => .bind (.lift fun size t ht => .bind (.setReg 0 ?_)))
  have hsize : size = s.stack.length := by
    cases ht
    rfl
  have hcontrol : t.control = s.control := by
    cases ht
    rfl
  have ht : Inside s t := by
    cases ht
    exact ⟨⟨line, rfl⟩, rfl, List.prefix_append .., List.prefix_rfl⟩
  refine .bind ((h z t).imp fun status u hu => .bind (.lift fun back v hv =>
    .bind (.setReg back (.pure ?_))))
  have hdepth := congrArg (fun v : State => v.control.depth) hu.fixed
  change u.control.depth = t.control.depth at hdepth
  rw [hcontrol] at hdepth
  have hu := ht.kept hu
  obtain ⟨line, hc⟩ := hu.callers
  have htake : u.stack.take s.stack.length = s.stack := (List.prefix_iff_eq_take.mp hu.layers).symm
  simp only [popTo, modify, modifyGet, MonadStateOf.modifyGet, StateT.modifyGet, get, getThe,
    MonadStateOf.get, StateT.get, set, StateT.set, Bind.bind, StateT.bind, Pure.pure,
    Option.bind_some, hc, hsize, htake] at hv
  cases hv
  refine ⟨⟨?_, List.prefix_rfl, hu.out, fun _ => rfl, False.elim⟩, fun _ _ => rfl⟩
  simp only [State.fixed, hdepth]
  exact hu.fixed

theorem publishFileData_files (h : ∀ z, Keeps G (Kept False False) (A.zone z)) (file : File) :
    Keeps G (Filed p) (publishFileData A file) := by
  refine .bind .getReg fun line => .bind (.lift .get) fun s => .ite (fun _ => ?_) fun _ => ?_
  · exact .bind (.lift fun s a t ht => .ofKept (outputErrAt_kept ht))
      fun _ => .pure _
  · cases file.data with
    | none => exact .pure _
    | some z => exact publishData_files h _ z

theorem publishPath_files (h : ∀ z, Keeps G (Kept False False) (A.zone z)) (P : Publisher)
    (fn : Str) : Keeps G (Filed p) (publishPath A P fn) := by
  intro s
  refine .bind (.lift fun s' t ht => ?_)
  cases ht
  dsimp only
  generalize P.find s fn = found
  obtain ⟨rfn, file | code | _ | ⟨code, errs⟩ | ⟨code, err⟩⟩ := found
  · refine .bind (.lift fun prev t ht => ?_)
    cases ht
    refine .bind ((publishFileData_files (p := p) h _ _).imp fun status u hu =>
      .bind (.lift fun _ v hv => ?_))
    cases hv
    have hcwd : Filed p s { u with cwd := s.cwd } := by
      refine ⟨⟨?_, hu.kept.layers, hu.kept.out, hu.kept.same, False.elim⟩, hu.exit⟩
      exact congrArg (fun u : State => { u with cwd := s.cwd }) hu.kept.fixed
    exact .bind (((Keeps.when (T := Filed p) _ (outputErr_files _ _)) _).imp fun _ _ hw =>
      .pure (hcwd.trans hw))
  · exact .bind ((outputErr_files _ _ s).imp fun _ _ he => .pure he)
  · exact .bind ((outputErr_files _ _ s).imp fun _ _ he => .pure he)
  · exact .bind ((outputErrs_files _ _ s).imp fun _ _ he => .pure he)
  · exact .bind ((outputErr_files _ _ s).imp fun _ _ he => .pure he)

theorem Host.Tidy.withFiles (hH : H.Tidy) (P : Publisher) (k : Nat) : (H.withFiles P k).Tidy := by
  induction k with
  | zero => exact ⟨hH.vEval1, hH.vPubToVal2, fun _ _ => .stuck⟩
  | succ k ih =>
    refine ⟨hH.vEval1, hH.vPubToVal2, fun G fn => ?_⟩
    have hcalm : Calm G False False (block (H.withFiles P k) k) :=
      block_calm ih ⟨False.elim, False.elim, False.elim, False.elim⟩ k
    exact (publishPath_files hcalm.anyZone P fn).imp fun _ _ hf => hf.kept

theorem Host.Modest.withFiles (hM : H.Modest) (P : Publisher) (k : Nat) :
    (H.withFiles P k).Modest := by
  cases k <;> exact ⟨hM.vEval1, hM.vPubToVal2⟩

end Files

/-- What puts back what it changed: the two kinds of loops, the loop over the rows of a `for`, an
included file, a file, and the call of a function; with waits or, but for files, without. -/
inductive Construct
  | while (line : Nat) (cond : Expr) (body : Option Zone)
  | for (line : Nat) (iter : Str) (arr : Expr) (body empty : Option Zone)
  | rows (f : ForLoop)
  | include (line : Nat) (load : Bool) (file : Expr) (dict : Option Expr)
  | file (fn : Str)
  | call (l : Lambda) (closure : Option (Str × List Layer)) (args : List Ptr)

namespace Construct

variable (H : Host) (P : Publisher) (n : Nat)

def eval : Construct → Eval Unit
  | .while l c b => discard (Nonblock.publishStatement H n (nonblock H n) (.while l c b))
  | .for l i a b e => discard (Nonblock.publishStatement H n (nonblock H n) (.for l i a b e))
  | .rows f => discard ((nonblock H n).forLoop f 0 .ok)
  | .include l ld f d => discard (Nonblock.publishStatement H n (nonblock H n) (.include l ld f d))
  | .file _ => Prog.stuck
  | .call l c as => discard (Nonblock.evalFn H (nonblock H n) (.lambda l c) as)

def pub : Construct → Eval Unit
  | .while l c b => discard (Block.vPublishStatement H n (nonblock H n) (block H n) (.while l c b))
  | .for l i a b e =>
    discard (Block.vPublishStatement H n (nonblock H n) (block H n) (.for l i a b e))
  | .rows f => discard ((block H n).forLoop f 0 .ok)
  | .include l ld f d =>
    discard (Block.vPublishStatement H n (nonblock H n) (block H n) (.include l ld f d))
  | .file fn => discard (publishPath (block H n) P fn)
  | .call l c as => discard (Block.pubFn H (nonblock H n) (block H n) (.lambda l c) as)

def run (wait : Bool) (c : Construct) : Eval Unit := if wait then c.pub H P n else c.eval H n

/-- The flags afterwards.  A loop has ended its `break` and `continue`; those of an empty zone are
for the loop around it. -/
def Flags (c : Construct) (s t : State) : Prop := match c with
  | .while _ _ _ | .rows _ => t.control.brk = false ∧ t.control.cont = false
  | .for _ _ _ _ _ => True
  | .file _ => s.opts.exitOnError = false → s.control.exit = false → t.control.exit = false
  | .include _ _ _ _ | .call _ _ _ => t.control = s.control ∨
    s.opts.exitOnError = true ∧ t.control = { s.control with exit := true }

variable {H n} {G : Step → Prop} {p q : Prop}

theorem discard_keeps {α : Type} {T : State → State → Prop} {m : Eval α} (h : Keeps G T m) :
    Keeps G T (discard m) :=
  fun s => .bind ((h s).imp fun _ _ ht => .pure ht)

theorem eval_kept (hH : H.Tidy) (hG : Clean H G p q) (c : Construct) :
    Keeps G (fun s t => Kept p False s t ∧ (q → c.Flags s t)) (c.eval H n) := by
  have h := nonblock_calm (n := n) hH hG
  cases c with
  | «while» l c b =>
    exact discard_keeps ((Nonblock.publishWhile_loops h l c b).imp fun _ _ ht =>
      ⟨ht.kept, ht.ended⟩)
  | «for» l i a b e =>
    exact discard_keeps ((Nonblock.publishFor_keeps hG h l i a b e).imp fun _ _ ht =>
      ⟨ht, fun _ => trivial⟩)
  | rows f => exact discard_keeps ((h.forLoop f 0 .ok).imp fun _ _ ht => ⟨ht.kept, ht.ended⟩)
  | «include» l ld f d =>
    refine discard_keeps (Keeps.imp (T := Kept p q) ?_ fun _ _ ht =>
      ⟨ht.weaken id False.elim, ht.control⟩)
    exact .bind (.note _) fun _ => .bind (Nonblock.evalKey_keeps h f) fun _ =>
      .bind (reportError_keeps l _) fun _ => .pure _
  | file fn => exact .stuck
  | call l c as =>
    exact discard_keeps ((Nonblock.evalFn_keeps hH hG h _ as).imp fun _ _ ht =>
      ⟨ht.weaken id False.elim, ht.control⟩)

theorem pub_kept (hH : H.Tidy) (hG : Clean H G p q) (c : Construct) :
    Keeps G (fun s t => Kept p False s t ∧ (q → c.Flags s t)) (c.pub H P n) := by
  have hE := nonblock_calm (n := n) hH hG
  have h := block_calm (n := n) hH hG
  cases c with
  | «while» l c b =>
    exact discard_keeps ((Block.publishWhile_loops h l c b).imp fun _ _ ht => ⟨ht.kept, ht.ended⟩)
  | «for» l i a b e =>
    exact discard_keeps ((Block.publishFor_keeps hG h l i a b e).imp fun _ _ ht =>
      ⟨ht, fun _ => trivial⟩)
  | rows f => exact discard_keeps ((h.forLoop f 0 .ok).imp fun _ _ ht => ⟨ht.kept, ht.ended⟩)
  | «include» l ld f d =>
    exact discard_keeps ((Block.vPublishInclude_keeps hH h l ld f d).imp fun _ _ ht =>
      ⟨ht.weaken id False.elim, ht.control⟩)
  | file fn =>
    exact discard_keeps ((publishPath_files h.anyZone P fn).imp fun _ _ ht =>
      ⟨ht.kept, fun _ => ht.exit⟩)
  | call l c as =>
    exact discard_keeps ((Block.pubFn_keeps hH hG hE h _ as).imp fun _ _ ht =>
      ⟨ht.weaken id False.elim, ht.control⟩)

end Construct

/-- The layers, the place, the control object, the muzzle, the silence, the output object and the
directory are those from before; the output may have been written to. -/
structure Restored (s t : State) : Prop where
  stack : t.stack = s.stack
  fixed : t.fixed = s.fixed
  out : s.out <+: t.out

/-- Whatever the run does, the layers that there were stay, and all the rest is put back.  Where
nothing is declared in a zone of a `for` without rows or in a heredoc, and nothing is imported, there
are no other layers; and where no jump leaves a heredoc, no other flags are raised than the
construct is to leave. -/
theorem construct_restores (H : Host) (hH : H.Tidy) (hM : H.Modest) (P : Publisher) (k n : Nat)
    (wait : Bool) (c : Construct) (line line' : Nat) (s t : State)
    (hrun : (c.run (H.withFiles P k) P n wait line s).out = some ((), line', t)) :
    (t.fixed = s.fixed ∧ s.stack <+: t.stack ∧ s.out <+: t.out) ∧
    ((∀ e ∈ (c.run (H.withFiles P k) P n wait line s).log, e.Scoped) → Restored s t) ∧
    ((∀ e ∈ (c.run (H.withFiles P k) P n wait line s).log, e.Stays) → c.Flags s t) := by
  have hkeeps (G : Step → Prop) (p q : Prop) (hG : Clean (H.withFiles P k) G p q) :
      Keeps G (fun s t => Kept p False s t ∧ (q → c.Flags s t))
        (c.run (H.withFiles P k) P n wait) := by
    cases wait with
    | false => exact c.eval_kept (hH.withFiles P k) hG
    | true => exact c.pub_kept P (hH.withFiles P k) hG
  have hkept := (hkeeps (fun _ => True) False False
    ⟨False.elim, False.elim, False.elim, False.elim⟩ s line _ hrun fun _ _ => trivial).1
  refine ⟨⟨hkept.fixed, hkept.layers, hkept.out⟩, fun hl => ?_, fun hl => ?_⟩
  · have hscoped := (hkeeps Step.Scoped True False
      ⟨fun _ _ => id, fun _ _ => id, fun _ => hM.withFiles P k, False.elim⟩ s line _ hrun hl).1
    exact ⟨hscoped.same trivial, hkept.fixed, hkept.out⟩
  · exact (hkeeps Step.Stays False True
      ⟨False.elim, False.elim, False.elim, fun _ => id⟩ s line _ hrun hl).2 trivial

theorem Host.plain_tidy : Host.plain.Tidy :=
  ⟨fun _ _ _ _ _ _ _ => .pure _, fun _ _ _ _ => .pure _, fun _ _ => .pure _⟩

theorem Host.plain_modest : Host.plain.Modest :=
  ⟨fun _ _ _ _ _ _ _ _ => .pure _, fun _ _ _ _ _ _ => .pure _⟩

def Publisher.none : Publisher := ⟨false, Option.none, fun _ => .noent⟩

def whileBreak : Construct :=
  .while 1 (.constant (.bool true)) (some (.pub 1
    [.decl 1 .locals [(ascii ['x'], some (.constant (.int 1)))], .break 1]))

/-- A `for` without rows, whose empty zone declares a variable. -/
def forEmpty : Construct :=
  .for 1 (ascii ['x']) (.list 1 []) none (some (.pub 1
    [.decl 1 .locals [(ascii ['y'], some (.constant (.int 1)))]]))

theorem construct_restores_while :
    ((whileBreak.run (Host.plain.withFiles .none 1) .none 6 true 1 (.withNumber 42)).out.map
      fun r => (r.2.2.stack.length, r.2.2.control.brk)) = some (2, false) ∧
    ∃ line t, (whileBreak.run (Host.plain.withFiles .none 1) .none 6 true 1 (.withNumber 42)).out =
        some ((), line, t) ∧ Restored (.withNumber 42) t ∧
      t.control.brk = false ∧ t.control.cont = false := by
  refine ⟨by decide +kernel, ?_⟩
  generalize hr : (whileBreak.run (Host.plain.withFiles .none 1) .none 6 true 1
    (.withNumber 42)).out = r
  cases r with
  | none =>
    have hsome : (whileBreak.run (Host.plain.withFiles .none 1) .none 6 true 1
      (.withNumber 42)).out.isSome = true := by decide +kernel
    rw [hr] at hsome
    cases hsome
  | some r =>
    obtain ⟨⟨⟩, line, t⟩ := r
    obtain ⟨-, hscoped, hstays⟩ := construct_restores .plain Host.plain_tidy Host.plain_modest .none
      1 6 true whileBreak 1 line (.withNumber 42) t hr
    exact ⟨line, t, rfl, hscoped (by decide +kernel), hstays (by decide +kernel)⟩

/-- What the zone declares stays. -/
theorem construct_leaves :
    ∃ line t, (forEmpty.run (Host.plain.withFiles .none 1) .none 6 true 1 (.withNumber 42)).out =
      some ((), line, t) ∧ ¬ Restored (.withNumber 42) t := by
  have hlayers : ((forEmpty.run (Host.plain.withFiles .none 1) .none 6 true 1
      (.withNumber 42)).out.map fun r => r.2.2.stack.length) = some 3 := by decide +kernel
  obtain ⟨⟨⟨⟩, line, t⟩, hr, hlen⟩ := Option.map_eq_some_iff.mp hlayers
  refine ⟨line, t, hr, fun h => ?_⟩
  rw [h.stack] at hlen
  revert hlen
  decide +kernel

end Okws.Pub3
